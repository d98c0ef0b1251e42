import OrderedStore.Operation
import OrderedStore.Store.Write

/-! # Running operations on a store

An operation is shown the record that it asks for, and its changes are made together: before the
first of them is made, all are known to be possible, and the owners of all their keys are held.
-/

namespace OrderedStore

structure Execution (ρ : Type) where
  store : Store
  verdict : Except Fault Bool
  /-- The changes asked for, made or not. -/
  changes : Changes
  report : ρ

namespace Store

/-- How a search to the left for a record at or below `key` ends in a block: with the greatest live
one, or at the left edge of the store with none. The anchor tells where. -/
def endOfSearch? (key : Bytes) (e : Entry Published) : Option (Bytes × Option Record) :=
  match e.value.block.floor? key with
  | some r => some (e.anchor, some r)
  | none => if e.anchor.isEmpty then some (e.anchor, none) else none

/-- The record that an operation on `key` is shown, and the anchor where the search for it ended. -/
def locate (s : Store) (key : Bytes) (floor : Bool) : Except Fault (Bytes × Option Record) :=
  if floor then
    match s.directory.findUpTo? key (endOfSearch? key) with
    | none => .error (.corruption .keyWithoutOwner)
    | some place => .ok place
  else (s.owner? key).map fun e => (e.anchor, e.value.block.liveAt? key)

/-- Whether the values of all changes can be stored at all. -/
def admitsAll (s : Store) : List Change → Except Misuse Bool
  | [] => .ok true
  | .delete _ :: rest => s.admitsAll rest
  | .put key value :: rest =>
    match s.admits key value with
    | .error e => .error e
    | .ok false => .ok false
    | .ok true => s.admitsAll rest

/-- Makes the changes that an operation asked for, or none of them. The search for its record ended
at `anchor`. -/
def commit (s : Store) (anchor : Bytes) (changes : Changes) : Except Fault Bool × Store :=
  match s.admitsAll changes.toList with
  | .error cause => (.error (.misuse cause), s)
  | .ok false => (.ok false, s)
  | .ok true =>
    if changes.hasPuts && s.atCeiling then (.ok false, s.reject)
    else
      match (Writer.hold s anchor).bind (·.extend (changes.toList.map Change.key)) with
      | .error cause => (.error cause, s)
      | .ok w =>
        match w.apply changes.toList with
        | (.error cause, w) => (.error cause, w.store)
        | (.ok deleted, w) =>
          let (result, s) := release w deleted
          (result.map fun () => true, s)

/-- What follows from the outcome of an operation. -/
def settle (s : Store) (anchor : Bytes) (readOnly : Bool) (verdict : Except Fault Bool)
    (changes : Changes) : Except Fault Bool × Store :=
  match verdict with
  | .error cause => (.error cause, s)
  | .ok accepted =>
    if readOnly then
      (if changes.isEmpty then .ok accepted else .error (.misuse .readOnlyWrote), s)
    else if !accepted || changes.isEmpty then (.ok accepted, s)
    else s.commit anchor changes

def execute {ρ : Type} (s : Store) (op : Operation ρ) : Execution ρ :=
  match Record.checkKey op.key with
  | .error cause => ⟨s, .error (.misuse cause), .empty, op.initial⟩
  | .ok () =>
    match s.locate op.key op.floor with
    | .error cause => ⟨s, .error cause, .empty, op.initial⟩
    | .ok (anchor, record) =>
      let found : Option Found := record.map fun r => ⟨r.key, r.value⟩
      let outcome := op.run op.initial found .empty
      let (verdict, s) := s.settle anchor op.readOnly outcome.verdict outcome.changes
      ⟨s, verdict, outcome.changes, outcome.report⟩

end Store

end OrderedStore
