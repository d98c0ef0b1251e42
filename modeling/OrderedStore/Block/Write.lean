import OrderedStore.Block

/-! # Writing to one block

A put that does not fit first compacts the block, then grows it, and asks for a split when the
largest capacity is too small. A deletion only marks its record.
-/

namespace OrderedStore.Block

/-- The block in a region of `size` bytes; its old region is given back. -/
def moveTo (b : Block) (l : Ledger) (size : Nat) : Block × Ledger :=
  let (lease, arena) := l.arena.sibling b.lease size
  let l := { l with arena := arena.release b.lease }
  ({ b with lease := lease }, b.report l .addExpansion)

def expand? (b : Block) (l : Ledger) : Option (Block × Ledger) :=
  (b.ladder.above? b.capacity).map (b.moveTo l)

/-- Grows the block through the given capacities, in ascending order, until it holds `bytes`. -/
def growThrough (bytes : Nat) : List Nat → Block → Ledger → Block × Ledger
  | [], b, l => (b, l)
  | size :: larger, b, l =>
    if bytes ≤ b.capacity then (b, l)
    else if size ≤ b.capacity then growThrough bytes larger b l
    else
      let (b, l) := b.moveTo l size
      growThrough bytes larger b l

/-- Grows the block until it holds `bytes` or has the largest capacity. -/
def reserve (b : Block) (l : Ledger) (bytes : Nat) : Block × Ledger :=
  growThrough bytes b.ladder.classes b l

/-- Whether a compaction that is not forced runs: too large a share of tombstones. -/
def wantsCompaction (b : Block) : Bool :=
  !(Float.ofNat b.deletedCount / Float.ofNat b.recordCount ≤ b.tuning.compactionRatio)

/-- Removes every tombstone but a first record's, and tells whether there was one to remove. -/
def compact (b : Block) (l : Ledger) (force : Bool) : Bool × Block × Ledger :=
  if b.deletedCount = 0 || !b.valid || !(force || b.wantsCompaction) then (false, b, l)
  else
    let gone := Run.removable b.run
    if gone.isEmpty then (false, b, l)
    else
      let bytes := Run.size gone
      let b' := { b with
        records := (Run.compact b.run).toArray
        used := b.used - bytes
        recordCount := b.recordCount - gone.length
        deletedCount := b.deletedCount - gone.length
        stamp := b.stamp + 1 }
      (true, b', b.report l (·.addCompaction bytes))

inductive PutResult where
  | done
  /-- The block has no room for the record, and never will. -/
  | needsSplit
deriving Repr, DecidableEq

/-- The bytes in use once a record of `size` bytes is stored in the place of `old`. -/
def usedWith (b : Block) (old : Option Record) (size : Nat) : Nat :=
  b.used - (old.map Record.size).getD 0 + size

/-- Whether `used` bytes need no more room than there is: they are no more than now, or the block
has the capacity. -/
def hasRoom (b : Block) (used : Nat) : Bool := used ≤ b.used || used ≤ b.capacity

/-- The block with `new` stored in the place of `old`, for which there is room; `used` bytes are in
use then. -/
def store (b : Block) (l : Ledger) (old : Option Record) (new : Record) (used : Nat) :
    Block × Ledger :=
  let revived := if old.any (·.deleted) then 1 else 0
  let added := if old.isNone then 1 else 0
  let b' := { b with
    records := Ascending.put Record.key new b.records
    used := used
    recordCount := b.recordCount + added
    deletedCount := b.deletedCount - revived }
  (b', b.report l (·.addData ((used : Int) - b.used) ((revived + added : Nat) : Int)))

def put (b : Block) (l : Ledger) (key value : Bytes) :
    Except Misuse (PutResult × Block × Ledger) := do
  b.ensureValid
  let size ← Record.check key value b.ladder.max
  let new := Record.live key value
  let old := b.at? key
  let used := b.usedWith old size
  if b.hasRoom used then
    return (.done, b.store l old new used)
  else
    let (_, b, l) := b.compact l true
    let old := b.at? key
    let used := b.usedWith old size
    let (b, l) := b.reserve l used
    if b.hasRoom used then return (.done, b.store l old new used)
    else return (.needsSplit, b, l)

/-- Marks the live record stored under `key` as deleted, and tells whether there was one. -/
def delete (b : Block) (l : Ledger) (key : Bytes) : Except Misuse (Bool × Block × Ledger) := do
  b.ensureValid
  match b.liveAt? key with
  | none => return (false, b, l)
  | some r =>
    let b' := { b with
      records := Ascending.put Record.key { r with deleted := true } b.records
      deletedCount := b.deletedCount + 1 }
    return (true, b', b.report l (·.addData 0 (-1)))

end OrderedStore.Block
