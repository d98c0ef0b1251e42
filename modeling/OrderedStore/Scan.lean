import OrderedStore.Store.Write

/-! # Scans

A scan walks over the live records of a range of keys, up or down. It copies the records of one
block at a time and then stands on its own: the store may change between two steps. When its batch
is used up it looks for the next block from the last key that it returned.
-/

namespace OrderedStore

structure Scan where
  /-- The least key of the range, none at the left edge. -/
  start : Option Bytes
  /-- The least key above the range, none at the right edge. -/
  stop : Option Bytes
  /-- Whether the scan walks from high keys to low ones. -/
  reverse : Bool
  /-- Records copied and not yet returned. -/
  batch : List Record
  /-- The last key returned. -/
  last : Option Bytes
  /-- Whether there is nothing to copy behind the batch. -/
  done : Bool
deriving Repr, DecidableEq

/-- From where on a scan upwards looks for records. -/
structure Seek where
  key : Option Bytes
  /-- Whether the key itself is looked at. -/
  inclusive : Bool

def Seek.isPast (s : Seek) (r : Record) : Bool :=
  s.key.any fun key => if s.inclusive then r.key < key else r.key ≤ key

namespace Scan

def fresh (start stop : Option Bytes) (reverse : Bool) : Scan :=
  ⟨start, stop, reverse, [], none, false⟩

def restart (s : Scan) (reverse : Bool) : Scan := fresh s.start s.stop reverse

def isBelowStop (s : Scan) (key : Bytes) : Bool := s.stop.all (key < ·)

/-- What a scan upwards copies from a block, unless there is nothing and it has to look further up.
The range ends where a record or an anchor reaches its end. -/
def copyUp? (s : Scan) (seek : Seek) (e : Entry Published) : Option Scan :=
  let ahead := e.value.block.run.filter (!seek.isPast ·)
  let inside := ahead.takeWhile (s.isBelowStop ·.key)
  let live := inside.filter (!·.deleted)
  if !s.isBelowStop e.anchor then some { s with done := true }
  else if inside.length < ahead.length then some { s with batch := live, done := true }
  else if live.isEmpty then none
  else some { s with batch := live }

/-- What a scan downwards copies from a block below `bound`, unless there is nothing and it has to
look further down. The range begins at the latest where the anchors do. -/
def copyDown? (s : Scan) (bound : Option Bytes) (e : Entry Published) : Option Scan :=
  let below := e.value.block.run.takeWhile fun r => bound.all (r.key < ·)
  let rows := (below.filter fun r => !r.deleted && s.start.all (· ≤ r.key)).reverse
  if e.anchor.isEmpty || s.start.any (e.anchor ≤ ·) then some { s with batch := rows, done := true }
  else if rows.isEmpty then none
  else some { s with batch := rows }

/-- The scan with a batch, unless nothing is left. -/
def fill (s : Scan) (store : Store) : Scan :=
  if !s.batch.isEmpty || s.done then s
  else
    let d := store.directory
    let filled? :=
      if s.reverse then
        let bound := s.last.or s.stop
        match bound with
        | some key => d.findBelow? key (s.copyDown? bound)
        | none => d.findSomeRev? (s.copyDown? bound)
      else
        let seek : Seek := if s.last.isSome then ⟨s.last, false⟩ else ⟨s.start, true⟩
        match seek.key with
        | some key => d.findOnward? key (s.copyUp? seek)
        | none => d.findSome? (s.copyUp? seek)
    filled?.getD { s with done := true }

def advance (s : Scan) (store : Store) : Option Record × Scan :=
  let s := s.fill store
  match s.batch with
  | [] => (none, s)
  | r :: rest => (some r, { s with batch := rest, last := some r.key })

/-- A scan of the keys from `start` up to `stop`, unless there is no live record among them. -/
def open? (store : Store) (start stop : Option Bytes) (reverse : Bool) : Option Scan :=
  let disordered := match start, stop with
    | some low, some high => decide (high ≤ low)
    | _, _ => false
  if disordered then none
  else
    let s := (fresh start stop reverse).fill store
    if s.batch.isEmpty then none else some s

def next (s : Scan) (store : Store) : Except Misuse (Option Record) × Scan :=
  if s.reverse then (.error .scanIsReverse, s)
  else
    let (row, s) := s.advance store
    (.ok row, s)

def previous (s : Scan) (store : Store) : Except Misuse (Option Record) × Scan :=
  if s.reverse then
    let (row, s) := s.advance store
    (.ok row, s)
  else (.error .scanIsForward, s)

/-- Whether `next` would return a record. -/
def hasNext (s : Scan) (store : Store) : Bool × Scan :=
  if s.reverse then (false, s)
  else
    let s := s.fill store
    (!s.batch.isEmpty, s)

/-- Whether `previous` would return a record. -/
def hasPrevious (s : Scan) (store : Store) : Bool × Scan :=
  if s.reverse then
    let s := s.fill store
    (!s.batch.isEmpty, s)
  else (false, s)

def collect (store : Store) : Nat → Scan → List Record
  | 0, _ => []
  | count + 1, s =>
    match s.advance store with
    | (none, _) => []
    | (some r, s) => r :: collect store count s

/-- All records from the scan on. It returns no record twice, so the records of the store and those
of the batch bound their number. -/
def toList (s : Scan) (store : Store) : List Record :=
  collect store (s.batch.length + total (·.records.size) store.blocks) s

/-- The least record of the range, wherever the scan stands. -/
def first? (s : Scan) (store : Store) : Option Record := ((s.restart false).advance store).1

/-- The greatest record of the range, wherever the scan stands. -/
def last? (s : Scan) (store : Store) : Option Record := ((s.restart true).advance store).1

/-- How many records the range has, wherever the scan stands. -/
def count (s : Scan) (store : Store) : Nat := ((s.restart false).toList store).length

def describe (s : Scan) : String :=
  s!"Scanner \x7b reverse: {s.reverse}, buffered: {s.batch.length}, done: {s.done} \x7d"

end Scan

namespace Store

/-- The live records from `start` up to `stop`, in the direction of the scan. -/
def range (s : Store) (start stop : Option Bytes) (reverse : Bool) : List Record :=
  match Scan.open? s start stop reverse with
  | none => []
  | some scan => scan.toList s

/-- Deletes the live records from `start` up to `stop`, and counts them. -/
def deleteRange (s : Store) (start stop : Option Bytes) : Except Fault Nat × Store :=
  s.deleteAll ((s.range start stop false).map (·.key))

end Store

end OrderedStore
