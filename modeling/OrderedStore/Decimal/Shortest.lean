/-! # Shortest decimal text of a binary64

A finite float stands for an interval of reals, those that round to it. Its text has the fewest
digits of any decimal in that interval, and among those decimals the one nearest to the float; of
two equally near ones it is the larger. Digits are written positionally, whatever the magnitude.
-/

namespace OrderedStore.Decimal

/-- A positive float `value / scale` and the reals that round to it, over one denominator. -/
structure Rounding where
  value : Nat
  lower : Nat
  upper : Nat
  scale : Nat
  /-- Whether the two ends themselves round to the float. -/
  closed : Bool
deriving Repr, DecidableEq

namespace Rounding

/-- The interval of `mantissa * 2 ^ exponent`. Below a power of two the floats lie twice as dense;
`atPower` says that the float is such a power and not the least of its kind. -/
def ofBinary (mantissa : Nat) (exponent : Int) (atPower : Bool) : Rounding :=
  let up := Nat.pow 2 exponent.toNat
  { value := 4 * mantissa * up
    lower := (4 * mantissa - (if atPower then 1 else 2)) * up
    upper := (4 * mantissa + 2) * up
    scale := 4 * Nat.pow 2 (-exponent).toNat
    closed := mantissa % 2 = 0 }

/-- The same interval with `10 ^ place` as the unit. -/
def inUnits (r : Rounding) (place : Int) : Rounding :=
  let finer := Nat.pow 10 (-place).toNat
  { r with
    value := r.value * finer
    lower := r.lower * finer
    upper := r.upper * finer
    scale := r.scale * Nat.pow 10 place.toNat }

/-- Whether `n` units round to the float. -/
def holds (r : Rounding) (n : Nat) : Bool :=
  if r.closed then r.lower ≤ n * r.scale && n * r.scale ≤ r.upper
  else r.lower < n * r.scale && n * r.scale < r.upper

/-- The whole number of units that rounds to the float, the nearer of the two next to it. -/
def nearest? (r : Rounding) : Option Nat :=
  let below := r.value / r.scale
  match r.holds below, r.holds (below + 1) with
  | true, true =>
    some (if 2 * (r.value % r.scale) < r.scale then below else below + 1)
  | true, false => some below
  | false, true => some (below + 1)
  | false, false => none

/-- Zeros after the decimal point before the first digit of `value / scale`, when below one. -/
def leadingZeros : Nat → Nat → Nat → Nat
  | 0, _, _ => 0
  | rounds + 1, value, scale =>
    if scale ≤ 10 * value then 0 else 1 + leadingZeros rounds (10 * value) scale

/-- The `k` with `10 ^ (k - 1) ≤ value / scale < 10 ^ k`. -/
def magnitude (r : Rounding) : Int :=
  if r.scale ≤ r.value then (Nat.toDigits 10 (r.value / r.scale)).length
  else -(leadingZeros 400 r.value r.scale : Int)

/-- The fewest digits, and the power of ten they count: seventeen always suffice. A single digit
that is rounded up to ten counts the next power. -/
def shortest (r : Rounding) : Nat × Int :=
  let places := (List.range 17).map fun n => r.magnitude - (n + 1 : Nat)
  match places.findSome? fun place => ((r.inUnits place).nearest?).map (·, place) with
  | none => (0, 0)
  | some (digits, place) => if digits = 10 then (1, place + 1) else (digits, place)

end Rounding

/-- `digits * 10 ^ place` without an exponent. -/
def positional (digits : Nat) (place : Int) : String :=
  let text := Nat.toDigits 10 digits
  match place with
  | .ofNat zeros => String.ofList (text ++ List.replicate zeros '0')
  | .negSucc n =>
    let padded := List.replicate (n + 2 - text.length) '0' ++ text
    let whole := padded.length - (n + 1)
    String.ofList (padded.take whole ++ '.' :: padded.drop whole)

/-- The text of a float: not-a-number and the infinities by name, a sign also on negative zero. -/
def text (x : Float) : String :=
  let bits := x.toBits.toNat
  let sign := if Nat.pow 2 63 ≤ bits then "-" else ""
  let biased : Nat := bits / Nat.pow 2 52 % 2048
  let fraction : Nat := bits % Nat.pow 2 52
  if biased = 2047 then
    if fraction = 0 then sign ++ "inf" else "NaN"
  else if biased = 0 ∧ fraction = 0 then sign ++ "0"
  else
    let interval :=
      if biased = 0 then Rounding.ofBinary fraction (-1074) false
      else Rounding.ofBinary (Nat.pow 2 52 + fraction) ((biased : Int) - 1075)
        (fraction = 0 && 1 < biased)
    let (digits, place) := interval.shortest
    sign ++ positional digits place

end OrderedStore.Decimal
