import OrderedStore.Operation

/-! # Counters

A counter is stored as the decimal text of a signed 64-bit number. A missing counter stands at zero.
-/

namespace OrderedStore.Counter

/-- Whether `n` fits 64 bits with a sign. -/
def inRange (n : Int) : Bool := -9223372036854775808 ≤ n && n < 9223372036854775808

def digit (n : Nat) : UInt8 := UInt8.ofNat (48 + n)

def digitValue? (b : UInt8) : Option Nat :=
  if 48 ≤ b.toNat ∧ b.toNat ≤ 57 then some (b.toNat - 48) else none

/-- The decimal digits of `n`, without leading zeros. -/
def digits (n : Nat) : Bytes :=
  if n < 10 then [digit n] else digits (n / 10) ++ [digit (n % 10)]
termination_by n

def encode (n : Int) : Bytes := if n < 0 then 45 :: digits n.natAbs else digits n.natAbs

/-- The least number that is out of range with either sign. -/
def outgrown : Nat := 9223372036854775809

/-- The number that digits spell after `high`, or none if one of them is no digit. Every number that
is out of range with either sign counts as the least one. -/
def spelled? (high : Nat) : Bytes → Option Nat
  | [] => some high
  | b :: rest =>
    match digitValue? b with
    | none => none
    | some d => spelled? (min outgrown (10 * high + d)) rest

/-- The number that one or more digits spell. -/
def magnitude? (text : Bytes) : Option Nat := if text.isEmpty then none else spelled? 0 text

/-- The number of a decimal text: an optional sign, then digits, within range. -/
def decode (text : Bytes) : Option Int :=
  let number? : Option Int :=
    match text with
    | 45 :: rest => (magnitude? rest).map fun n => -(n : Int)
    | 43 :: rest => (magnitude? rest).map (·)
    | _ => (magnitude? text).map (·)
  number?.filter inRange

end Counter

namespace Operation

/-- Adds `delta` to the counter stored under `key`; reports where the counter stands then. -/
def increment (key : Bytes) (delta : Int) : Operation Int where
  key := key
  floor := false
  readOnly := false
  initial := 0
  run report found changes :=
    let current? := match found with
      | none => some 0
      | some record => Counter.decode record.value
    match current? with
    | none => ⟨.error (.misuse .notAnInteger), changes, report⟩
    | some current =>
      let next := current + delta
      if Counter.inRange next then
        match changes.push (.put key (Counter.encode next)) with
        | .error cause => ⟨.error (.misuse cause), changes, report⟩
        | .ok changes => ⟨.ok true, changes, next⟩
      else ⟨.error (.misuse .incrementOverflow), changes, report⟩

end Operation

end OrderedStore
