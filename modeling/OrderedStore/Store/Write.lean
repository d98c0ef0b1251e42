import OrderedStore.Store.Writer

/-! # Writing to a store

A write finds the block that owns its key, or a new one, and after a deletion small neighbours grow
together again. Writes of values are refused while the memory ceiling is reached, and a record
larger than the largest block is never stored; both are ordinary answers.
-/

namespace OrderedStore.Store

/-- Whether a record can be stored at all. -/
def admits (s : Store) (key value : Bytes) : Except Misuse Bool :=
  (Record.measure key value).map fun size => size ≤ s.options.largestBlock

/-- Whether writes of values are refused. -/
def atCeiling (s : Store) : Bool := s.options.memoryCeiling.any (· ≤ s.allocated)

/-- The store after it has refused a write at the ceiling. -/
def reject (s : Store) : Store := { s with ledger := s.ledger.count .addRejected }

/-- Lets the block under `anchor` take in its left neighbour, whose anchor it then has. -/
def mergeAt (s : Store) (anchor : Bytes) : Except Fault Bool × Store :=
  match s.directory.published? anchor, s.directory.lower? anchor with
  | some right, some left =>
    match right.block.merge left.value.block s.ledger false false with
    | .error e => (.error (.misuse e), s)
    | .ok m =>
      if m.merged then
        let d := s.directory.publish left.anchor ⟨right.id, m.block⟩
        let (_, d) := d.retire anchor (·.id = right.id)
        (.ok true, { s with directory := d, ledger := m.ledger.count (·.addBlocks (-1)) })
      else
        let d := s.directory.publish left.anchor ⟨left.value.id, m.left⟩
        let d := d.publish anchor ⟨right.id, m.block⟩
        (.ok false, { s with directory := d, ledger := m.ledger })
  | _, _ => (.ok false, s)

/-- The anchor whose block takes in its left neighbour when the block under `anchor` is small: for
the leftmost block that of the next one. -/
def mergeAnchor? (s : Store) (anchor : Bytes) : Option Bytes :=
  if anchor.isEmpty then (s.directory.higher? anchor).map (·.anchor) else some anchor

/-- Merges the blocks under the given anchors, as far as they fit. -/
def mergeAll (s : Store) : List Bytes → Except Fault Unit × Store
  | [] => (.ok (), s)
  | anchor :: rest =>
    match s.mergeAnchor? anchor with
    | none => s.mergeAll rest
    | some anchor =>
      match s.mergeAt anchor with
      | (.error e, s) => (.error e, s)
      | (.ok _, s) => s.mergeAll rest

/-- The store that a writer leaves. After a deletion the blocks that it held are merged. -/
def release (w : Writer) (deleted : Bool) : Except Fault Unit × Store :=
  if deleted then w.store.mergeAll w.underfilled else (.ok (), w.store)

/-- Stores `value` under `key`, and tells whether it was not refused. -/
def put (s : Store) (key value : Bytes) : Except Fault Bool × Store :=
  match s.admits key value with
  | .error e => (.error (.misuse e), s)
  | .ok false => (.ok false, s)
  | .ok true =>
    if s.atCeiling then (.ok false, s.reject)
    else
      match Writer.hold s key with
      | .error e => (.error e, s)
      | .ok w =>
        let (result, w) := w.put key value
        (result.map fun () => true, w.store)

/-- Deletes what is stored under `key`, and tells whether there was anything. -/
def delete (s : Store) (key : Bytes) : Except Fault Bool × Store :=
  match Record.checkKey key with
  | .error e => (.error (.misuse e), s)
  | .ok () =>
    match Writer.hold s key with
    | .error e => (.error e, s)
    | .ok w =>
      match w.delete key with
      | (.error e, w) => (.error e, w.store)
      | (.ok gone, w) =>
        let (result, s) := release w gone
        (result.map fun () => gone, s)

/-- Deletes what is stored under the given keys, and counts what there was. -/
def deleteAll (s : Store) : List Bytes → Except Fault Nat × Store
  | [] => (.ok 0, s)
  | key :: rest =>
    match s.delete key with
    | (.error e, s) => (.error e, s)
    | (.ok gone, s) =>
      let (result, s) := s.deleteAll rest
      (result.map fun n => if gone then n + 1 else n, s)

end OrderedStore.Store
