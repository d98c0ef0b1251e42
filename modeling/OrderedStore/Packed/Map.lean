import OrderedStore.Packed.Access
import OrderedStore.Packed.Options
import OrderedStore.Scan
import OrderedStore.Store.Execute

/-! # Packed maps

A packed map gives every user key fields of its own, each with a value. The fields of a user key lie
in chunks, one record each, so that a key with many fields has many records.
-/

namespace OrderedStore.Packed

structure Map where
  store : Store
  options : Options
  /-- How many chunks were split in two. -/
  splits : Nat

inductive SetResult where
  | inserted
  | replaced
  /-- The store refused the write. -/
  | refused
deriving Repr, DecidableEq

namespace Map

def create (store : Store) (options : Options) : Except BadSetting Map := do
  options.check
  return ⟨store, options, 0⟩

def set (m : Map) (user field value : Bytes) : Except Fault SetResult × Map :=
  match setField user field value m.options.maxValueSize with
  | .error cause => (.error (.misuse cause), m)
  | .ok op =>
    let e := m.store.execute op
    let m := { m with store := e.store }
    match e.verdict with
    | .error cause => (.error cause, m)
    | .ok false => (.ok .refused, m)
    | .ok true =>
      (.ok (if e.report.inserted then .inserted else .replaced),
        if e.report.split.isSome then { m with splits := m.splits + 1 } else m)

def get (m : Map) (user field : Bytes) : Except Fault (Option Bytes) :=
  match getField user field with
  | .error cause => .error (.misuse cause)
  | .ok op =>
    let e := m.store.execute op
    e.verdict.map fun _ => e.report

/-- Removes `field` of a user key, and tells whether there was one. -/
def delete (m : Map) (user field : Bytes) : Except Fault Bool × Map :=
  match deleteField user field with
  | .error cause => (.error (.misuse cause), m)
  | .ok op =>
    let e := m.store.execute op
    (e.verdict, { m with store := e.store })

/-- The chunks of a user key in order: their keys and elements. -/
def chunks (m : Map) (user : Bytes) : Except Fault (List (Bytes × List Element)) := do
  let common ← (chunkPrefix user).mapError .misuse
  let rows := m.store.range (some common) (prefixEnd? common) false
  let rows := rows.filter fun r => isChunkOf r.key common
  rows.mapM fun r => ((parse r.value).map (r.key, ·)).mapError .corruption

def size (m : Map) (user : Bytes) : Except Fault Nat := do
  let chunks ← m.chunks user
  return total (·.2.length) chunks

def fields (m : Map) (user : Bytes) : Except Fault (List Bytes) := do
  let chunks ← m.chunks user
  return chunks.flatMap fun chunk => chunk.2.map (·.field)

def chunkKeys (m : Map) (user : Bytes) : Except Fault (List Bytes) := do
  let chunks ← m.chunks user
  return chunks.map (·.1)

def describe (m : Map) : String :=
  s!"PackedMap \x7b options: {m.options.describe}, splits: {m.splits} \x7d"

end Map

end OrderedStore.Packed
