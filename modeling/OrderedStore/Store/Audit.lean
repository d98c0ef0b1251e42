import OrderedStore.Store

/-! # Audits

An audit looks at every record and compares what it finds with anchors, capacities and counters. Of
a store whose blocks are as they should be it gives the totals.
-/

namespace OrderedStore

structure Audit where
  blocks : Nat := 0
  records : Nat := 0
  liveRecords : Nat := 0
  tombstones : Nat := 0
  usedBytes : Nat := 0
  liveBytes : Nat := 0
  capacityBytes : Nat := 0
deriving Repr, DecidableEq

namespace Run

def isOrdered : Run → Bool
  | r :: next :: rest => r.key < next.key && isOrdered (next :: rest)
  | _ => true

end Run

namespace Audit

/-- Whether a block starts where it should: at its anchor, unless that is empty, and above the last
key of the blocks before it. -/
def checkStart (before : Option Bytes) (anchor : Bytes) : Run → Except Corruption Unit
  | [] => .ok ()
  | first :: _ =>
    if !anchor.isEmpty && first.key ≠ anchor then .error .anchorMismatch
    else if before.any (first.key ≤ ·) then .error .blocksOverlap
    else .ok ()

/-- Names the first thing wrong with a published block. -/
def checkBlock (before : Option Bytes) (e : Entry Published) : Except Corruption Unit := do
  let b := e.value.block
  if !b.valid then throw .publishedAbsorbed
  if b.capacity < b.used then throw .usedPastCapacity
  checkStart before e.anchor b.run
  if !Run.isOrdered b.run then throw .recordsUnordered
  if b.records.isEmpty && !e.anchor.isEmpty then throw .innerBlockEmpty
  if Run.size b.run ≠ b.used ∨ b.records.size ≠ b.recordCount
      ∨ Run.tombstones b.run ≠ b.deletedCount then
    throw .countersDisagree

/-- The totals with those of one more block. -/
def add (a : Audit) (b : Block) : Audit where
  blocks := a.blocks + 1
  records := a.records + b.records.size
  liveRecords := a.liveRecords + (b.records.size - Run.tombstones b.run)
  tombstones := a.tombstones + Run.tombstones b.run
  usedBytes := a.usedBytes + Run.size b.run
  liveBytes := a.liveBytes + b.liveBytes
  capacityBytes := a.capacityBytes + b.capacity

/-- Audits blocks from the left; `before` is the last key of those already seen. -/
def walk (a : Audit) (before : Option Bytes) : List (Entry Published) → Except Corruption Audit
  | [] => .ok a
  | e :: rest =>
    match checkBlock before e with
    | .error cause => .error cause
    | .ok () =>
      let last := e.value.block.lastKey?
      walk (a.add e.value.block) (if last.isSome then last else before) rest

end Audit

namespace Store

def audit (s : Store) : Except Corruption Audit := Audit.walk {} none s.directory.toList

end Store

end OrderedStore
