import OrderedStore.Decimal.Nearest

/-! # TOML scalars

The integers, floats and booleans of TOML. Every other kind of value (text, dates, arrays, tables)
counts as unreadable here, since no setting has one.
-/

namespace OrderedStore.Toml

inductive Scalar where
  | integer (n : Int)
  | float (x : Float)
  | boolean (b : Bool)
deriving Repr, DecidableEq

namespace Scalar

/-- A size: an integer that is not negative. -/
def size? : Scalar → Option Nat
  | .integer (.ofNat n) => some n
  | _ => none

/-- A ratio: a float, or an integer as one. -/
def ratio? : Scalar → Option Float
  | .float x => some x
  | .integer n => some (Decimal.nearest (n < 0) n.natAbs 0)
  | .boolean _ => none

def flag? : Scalar → Option Bool
  | .boolean b => some b
  | _ => none

end Scalar

/-- The value of a digit below `base`; letters count in either case. -/
def digit? (base : Nat) (c : Char) : Option Nat :=
  let value :=
    if '0' ≤ c ∧ c ≤ '9' then c.toNat - 48
    else if 'a' ≤ c ∧ c ≤ 'f' then c.toNat - 87
    else if 'A' ≤ c ∧ c ≤ 'F' then c.toNat - 55
    else base
  if value < base then some value else none

/-- The digits of a number: one or more of them, with single underscores between. -/
def digits? (base : Nat) (text : List Char) : Option (List Nat) :=
  let groups := text.splitOn '_'
  if groups.any List.isEmpty then none else groups.flatten.mapM (digit? base)

/-- The number that digits spell. Once it has reached `enough`, the digits left do not count. -/
def number (base enough : Nat) (digits : List Nat) : Nat :=
  digits.foldl (fun n d => if n < enough then base * n + d else n) 0

/-- Whether the text of a sign is a minus, and what follows the sign. -/
def signed : List Char → Bool × List Char
  | '-' :: rest => (true, rest)
  | '+' :: rest => (false, rest)
  | text => (false, text)

/-- `n` with its sign. -/
def withSign (negative : Bool) (n : Nat) : Int := if negative then -(n : Int) else n

/-- A whole number, in the 64 bits that integers have. What has outgrown them is not read on. -/
def integer? (base : Nat) (negative : Bool) (digits : List Nat) : Option Scalar :=
  let n := withSign negative (number base 9223372036854775809 digits)
  if -9223372036854775808 ≤ n ∧ n < 9223372036854775808 then some (.integer n) else none

/-- A decimal, `digits` followed by ten to `place`, as a float. One too large for a float is
refused, although a negative one becomes an infinity. -/
def float? (negative : Bool) (digits : List Nat) (place : Int) : Option Scalar :=
  let (digits, place) := Decimal.shorten digits place
  if !negative && Decimal.magnitudeBits digits place = Decimal.infinityBits then none
  else some (.float (Decimal.nearest negative digits place))

/-- The power of ten that follows an `e`. From 65536 on, digits behind it do not count. -/
def exponent? (text : List Char) : Option Int :=
  let (negative, power) := signed text
  (digits? 10 power).map fun digits => withSign negative (number 10 65536 digits)

/-- Whether a character starts an exponent. -/
def startsExponent (c : Char) : Bool := c = 'e' || c = 'E'

/-- A decimal number behind its sign: an integer, or with a fraction or an exponent a float. The
whole part has no leading zeros. -/
def decimal? (negative : Bool) (text : List Char) : Option Scalar := do
  let whole := text.takeWhile fun c => c ≠ '.' && !startsExponent c
  if whole.head? = some '0' ∧ whole.length ≠ 1 then none
  let high ← digits? 10 whole
  match text.drop whole.length with
  | [] => integer? 10 negative high
  | '.' :: rest =>
    let fraction := rest.takeWhile fun c => !startsExponent c
    let low ← digits? 10 fraction
    match rest.drop fraction.length with
    | [] => float? negative (high ++ low) (-(low.length : Int))
    | _ :: power => float? negative (high ++ low) ((← exponent? power) - low.length)
  | _ :: power => float? negative high (← exponent? power)

/-- The scalar that a whole text spells. Only decimal numbers have a sign. -/
def Scalar.read? (text : List Char) : Option Scalar :=
  if text = "true".toList then some (.boolean true)
  else if text = "false".toList then some (.boolean false)
  else
    match text with
    | '0' :: 'x' :: digits => (digits? 16 digits).bind (integer? 16 false)
    | '0' :: 'o' :: digits => (digits? 8 digits).bind (integer? 8 false)
    | '0' :: 'b' :: digits => (digits? 2 digits).bind (integer? 2 false)
    | _ =>
      let (negative, rest) := signed text
      if rest = "inf".toList then some (.float ((if negative then -1 else 1) / 0))
      else if rest = "nan".toList then some (.float (0 / 0))
      else decimal? negative rest

end OrderedStore.Toml
