import OrderedStore.Block.Write

/-! # Splitting and merging blocks

A split moves the lower half of a block's records into a new block; a merge puts the records of the
block to the left in front of a block's own. Both move the change stamps of the blocks they touch.
-/

namespace OrderedStore.Block

/-- The ends of a run's records, the run starting at `offset`. -/
def ends (offset : Nat) : Run → List Nat
  | [] => []
  | r :: rest => (offset + r.size) :: ends (offset + r.size) rest

/-- How many records the lower part of a split takes. It is the boundary nearest to half of the
used bytes that leaves a record on either side; of two equally near ones it is the upper. -/
def splitCount (records : Run) (used : Nat) : Nat :=
  let half := used / 2
  let stops := ends 0 records
  let first := (stops.findIdx? (half ≤ ·)).getD (stops.length - 1)
  let after := stops.getD first 0
  let before := stops.getD (first - 1) 0
  let nearest := if 0 < first ∧ half - before < after - half then first - 1 else first
  min nearest (stops.length - 2) + 1

/-- What a split or a merge gave, and the block and the ledger after it. A split that fails may
have compacted the block. -/
structure SplitResult where
  /-- The lower part, unless there are fewer than two records. -/
  lower : Except Fault (Option Block)
  block : Block
  ledger : Ledger

/-- Moves the lower part of the records into a new block. -/
def split (b : Block) (l : Ledger) (force : Bool) : SplitResult :=
  if !b.valid then ⟨.error (.misuse .blockAbsorbed), b, l⟩
  else
    let (_, b, l) := if force then b.compact l true else (false, b, l)
    if b.recordCount < 2 then ⟨.ok none, b, l⟩
    else
      let count := splitCount b.run b.used
      let lower := b.run.take count
      let bytes := Run.size lower
      match b.ladder.holding? bytes with
      | none => ⟨.error (.corruption .lowerHalfTooLarge), b, l⟩
      | some size =>
        let (lease, arena) := l.arena.sibling b.lease size
        let deleted := Run.tombstones lower
        let sibling := { create lease b.tuning b.counted with
          records := lower.toArray
          used := bytes
          recordCount := count
          deletedCount := deleted
          stamp := 1 }
        let b' := { b with
          records := b.records.extract count
          used := b.used - bytes
          recordCount := b.recordCount - count
          deletedCount := b.deletedCount - deleted
          stamp := b.stamp + 1 }
        ⟨.ok (some sibling), b', b.report { l with arena := arena } .addSplit⟩

/-- Whether the block and its left neighbour together fit the share of the largest size that the
tuning gives. -/
def shouldMerge (b left : Block) : Bool :=
  Float.ofNat (b.used + left.used) ≤ b.tuning.mergeRatio * Float.ofNat b.ladder.max

/-- A block that was absorbed: it holds nothing and has no region. -/
def absorbed (b : Block) : Block :=
  { b with
    lease := .detached 0
    records := #[]
    used := 0
    recordCount := 0
    deletedCount := 0
    stamp := b.stamp + 1
    valid := false }

/-- Whether `left` ends at or above where `b` starts. -/
def overlaps (b left : Block) : Bool :=
  match left.lastKey?, b.firstKey? with
  | some last, some first => first ≤ last
  | _, _ => false

/-- What a merge gave, and both blocks and the ledger after it. -/
structure MergeResult where
  merged : Bool
  block : Block
  left : Block
  ledger : Ledger

/-- Puts the records of `left`, the block to the left, in front of the block's own. Without `force`
the two must fit the merge ratio, in any case the largest capacity. -/
def merge (b left : Block) (l : Ledger) (compactFirst force : Bool) :
    Except Misuse MergeResult := do
  b.ensureValid
  left.ensureValid
  if b.overlaps left then throw .mergeNotLeft
  let (left, l) := if compactFirst then (left.compact l true).2 else (left, l)
  let (b, l) := if compactFirst then (b.compact l true).2 else (b, l)
  let together := left.used + b.used
  if b.ladder.max < together || !(force || b.shouldMerge left) then
    return ⟨false, b, left, l⟩
  let (b, l) := b.reserve l together
  if b.capacity < together then return ⟨false, b, left, l⟩
  let b' := { b with
    records := left.records ++ b.records
    used := together
    recordCount := b.recordCount + left.recordCount
    deletedCount := b.deletedCount + left.deletedCount
    stamp := b.stamp + 1 }
  return ⟨true, b', left.absorbed, b.report (l.release left.lease) .addMerge⟩

end OrderedStore.Block
