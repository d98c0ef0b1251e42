import OrderedStore.Change
import OrderedStore.Record

/-! # Operations

An operation names a key, is shown the live record found for it, and answers with a verdict and the
writes it asks for. What it tells its caller besides is its report, which it keeps from run to run.
-/

namespace OrderedStore

structure Found where
  key : Bytes
  value : Bytes
deriving Repr, DecidableEq

/-- What one run of an operation leaves behind. A run that fails keeps the writes it had asked for
by then in `changes`; nobody makes them. -/
structure Outcome (ρ : Type) where
  /-- `false` is an ordinary refusal. -/
  verdict : Except Fault Bool
  changes : Changes
  report : ρ

/-- A step that reads one record and may write two. -/
structure Operation (ρ : Type) where
  /-- The key whose record is looked up. -/
  key : Bytes
  /-- Look up the greatest live record at or below `key` instead of the one at `key`. -/
  floor : Bool
  /-- The operation never asks for writes. -/
  readOnly : Bool
  /-- The report before the first run. -/
  initial : ρ
  /-- One run, from the report of the run before and the changes asked for so far. -/
  run : ρ → Option Found → Changes → Outcome ρ

namespace Operation

/-- Reports the value stored under `key`, and refuses when there is none. -/
def lookup (key : Bytes) : Operation (Option Bytes) where
  key := key
  floor := false
  readOnly := true
  initial := none
  run _ found changes := ⟨.ok found.isSome, changes, found.map (·.value)⟩

/-- Adds `suffix` to the value stored under `key`, or stores it; reports the length of the result.
Refuses to build a value that is too long. -/
def append (key suffix : Bytes) : Operation Nat where
  key := key
  floor := false
  readOnly := false
  initial := 0
  run report found changes :=
    let value := (found.map (·.value)).getD [] ++ suffix
    if Record.maxValue < value.length then ⟨.ok false, changes, report⟩
    else
      match changes.push (.put key value) with
      | .error cause => ⟨.error (.misuse cause), changes, report⟩
      | .ok changes => ⟨.ok true, changes, value.length⟩

end Operation

end OrderedStore
