/-! # Prime numbers

Trial division, and the least prime from a number on.
-/

namespace OrderedStore.Prime

/-- Whether one of `d`, `d + 2`, `d + 4` and so on divides `n`, up to the square root of `n`. -/
def hasDivisorFrom (n d : Nat) : Bool :=
  if d * d ≤ n then n % d = 0 || hasDivisorFrom n (d + 2) else false
termination_by n + 1 - d
decreasing_by
  have := Nat.le_mul_self d
  omega

def isPrime (n : Nat) : Bool :=
  if n < 2 then false
  else if n % 2 = 0 then n = 2
  else !hasDivisorFrom n 3

/-- The least prime among the `count` numbers from `n` on, or the number behind them. -/
def leastWithin : Nat → Nat → Nat
  | 0, n => n
  | count + 1, n => if isPrime n then n else leastWithin count (n + 1)

/-- The least prime that is at least `n`. There is always one below twice `n`, or two itself. -/
def leastFrom (n : Nat) : Nat := leastWithin (n + 2) n

end OrderedStore.Prime
