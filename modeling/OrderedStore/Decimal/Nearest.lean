/-! # The binary64 nearest to a decimal

A decimal `digits * 10 ^ place` becomes the nearest float; a tie goes to the even mantissa, and what
lies beyond the largest float becomes an infinity.
-/

namespace OrderedStore.Decimal

/-- `n / d` rounded to a whole number, a half to the even neighbour. -/
def roundHalfEven (n d : Nat) : Nat :=
  let q := n / d
  let twice := 2 * (n % d)
  if twice < d then q
  else if d < twice then q + 1
  else q + q % 2

/-- The bits of positive infinity. -/
def infinityBits : Nat := 2047 * Nat.pow 2 52

/-- The bits of the float nearest to the positive quotient `n / d`. -/
def quotientBits (n d : Nat) : Nat :=
  let estimate : Int := (n.log2 : Int) - d.log2
  let short := n * Nat.pow 2 (-estimate).toNat < d * Nat.pow 2 estimate.toNat
  let exponent := if short then estimate - 1 else estimate
  let unit := max (exponent - 52) (-1074)
  let mantissa := roundHalfEven (n * Nat.pow 2 (-unit).toNat) (d * Nat.pow 2 unit.toNat)
  if mantissa < Nat.pow 2 52 then mantissa
  else min infinityBits ((unit + 1075).toNat * Nat.pow 2 52 + (mantissa - Nat.pow 2 52))

/-- The bits of the float nearest to `digits * 10 ^ place`. Magnitudes far outside the range are
settled by their decimal position alone. -/
def magnitudeBits (digits : Nat) (place : Int) : Nat :=
  let position : Int := (Nat.toDigits 10 digits).length + place
  if digits = 0 ∨ position < -330 then 0
  else if 310 < position then infinityBits
  else quotientBits (digits * Nat.pow 10 place.toNat) (Nat.pow 10 (-place).toNat)

/-- A decimal of at most 801 digits with the same nearest float as `digits` followed by ten to
`place`. Neither a float nor a midpoint of two floats has 800 significant digits, so of those behind
the first 800 it counts only whether they are all zero: one digit, 0 or 1, stands for them. -/
def shorten (digits : List Nat) (place : Int) : Nat × Int :=
  let significant := digits.dropWhile (· = 0)
  let high := (significant.take 800).foldl (fun n d => 10 * n + d) 0
  let low := significant.drop 800
  (10 * high + (if low.all (· = 0) then 0 else 1), place + low.length - 1)

/-- The float nearest to `digits * 10 ^ place`, with the given sign also on zero. -/
def nearest (negative : Bool) (digits : Nat) (place : Int) : Float :=
  Float.ofBits (UInt64.ofNat ((if negative then Nat.pow 2 63 else 0) + magnitudeBits digits place))

end OrderedStore.Decimal
