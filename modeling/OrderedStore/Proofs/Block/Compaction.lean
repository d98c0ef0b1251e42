import OrderedStore.Block.Write
import OrderedStore.Proofs.Ledger.Balance

/-! # Compacting a block

A compaction, forced or not, leaves a sound block with a pruned run in the same region, and takes
the removed bytes off the books. A forced one leaves no tombstone but a first record's.
-/

namespace OrderedStore.Block

/-- What a compaction that removes something makes of the block. -/
def compacted (b : Block) : Block :=
  { b with
    records := (Run.compact b.run).toArray
    used := b.used - Run.size (Run.removable b.run)
    recordCount := b.recordCount - (Run.removable b.run).length
    deletedCount := b.deletedCount - (Run.removable b.run).length
    stamp := b.stamp + 1 }

@[simp] theorem run_compacted (b : Block) : b.compacted.run = Run.compact b.run := rfl

theorem compact_cases (b : Block) (l : Ledger) (force : Bool) :
    b.compact l force = (false, b, l) ∨
      b.compact l force = (true, b.compacted,
        b.report l (·.addCompaction (Run.size (Run.removable b.run)))) := by
  rw [compact]
  split
  · exact .inl rfl
  · by_cases clean : (Run.removable b.run).isEmpty = true
    · exact .inl (if_pos clean)
    · exact .inr (if_neg clean)

theorem WellFormed.compacted {b : Block} (wf : b.WellFormed) : b.compacted.WellFormed where
  valid := wf.valid
  used := by
    have parts := Run.size_compact_add_size_removable b.run
    rw [run_compacted]
    simp only [Block.compacted, wf.used]
    omega
  recordCount := by
    have parts := Run.length_compact_add_length_removable b.run
    rw [run_compacted]
    simp only [Block.compacted, wf.recordCount]
    omega
  deletedCount := by
    have parts := Run.tombstones_compact_add_length_removable b.run
    rw [run_compacted]
    simp only [Block.compacted, wf.deletedCount]
    omega
  ascending := (Run.prunes_compact b.run).ascending wf.ascending
  describable r member := wf.describable r ((Run.prunes_compact b.run).subset member)
  room := Nat.le_trans (Nat.sub_le _ _) wf.room

section

variable {b : Block} {tuning : Tuning} (l : Ledger) (force : Bool)

theorem prunes_compact : Run.Prunes b.run (b.compact l force).2.1.run := by
  rcases compact_cases b l force with same | removed
  · rw [same]
    exact .refl b.run
  · rw [removed]
    exact Run.prunes_compact b.run

theorem WellFormed.compact (wf : b.WellFormed) : (b.compact l force).2.1.WellFormed := by
  rcases compact_cases b l force with same | removed
  · rw [same]
    exact wf
  · rw [removed]
    exact wf.compacted

theorem lease_compact : (b.compact l force).2.1.lease = b.lease := by
  rcases compact_cases b l force with same | removed
  · rw [same]
  · rw [removed]
    rfl

theorem tuning_compact : (b.compact l force).2.1.tuning = b.tuning := by
  rcases compact_cases b l force with same | removed
  · rw [same]
  · rw [removed]
    rfl

theorem capacity_compact : (b.compact l force).2.1.capacity = b.capacity :=
  congrArg Lease.size (lease_compact l force)

theorem ladder_compact : (b.compact l force).2.1.ladder = b.ladder :=
  congrArg Tuning.ladder (tuning_compact l force)

theorem Sound.compact (sound : b.Sound) : (b.compact l force).2.1.Sound where
  toWellFormed := sound.toWellFormed.compact l force
  capacity := by
    rw [capacity_compact, ladder_compact]
    exact sound.capacity

theorem Enrolled.compact (enrolled : b.Enrolled tuning) :
    (b.compact l force).2.1.Enrolled tuning where
  sound := enrolled.sound.compact l force
  tuning := (tuning_compact l force).trans enrolled.tuning
  counted := by
    rcases compact_cases b l force with same | removed
    · rw [same]
      exact enrolled.counted
    · rw [removed]
      exact enrolled.counted
  accounted := by
    rw [lease_compact]
    exact enrolled.accounted

theorem WellFormed.run_compact_force (wf : b.WellFormed) :
    (b.compact l true).2.1.run = Run.compact b.run := by
  rcases compact_cases b l true with same | removed
  · have none_gone : Run.removable b.run = [] := by
      rw [Block.compact, wf.valid, wf.deletedCount] at same
      by_cases clean : Run.tombstones b.run = 0
      · exact Run.removable_of_tombstones_zero clean
      · by_cases gone : (Run.removable b.run).isEmpty
        · exact List.isEmpty_iff.mp gone
        · simp [clean, gone] at same
    rw [same, Run.compact_of_removable_nil none_gone]
  · rw [removed]
    rfl

variable {l} {n : Nat} {rest : List Block}

theorem balanced_compact (enrolled : b.Enrolled tuning) (balanced : l.Balanced n (b :: rest)) :
    (b.compact l force).2.2.Balanced n ((b.compact l force).2.1 :: rest) := by
  rcases compact_cases b l force with same | removed
  · rw [same]
    exact balanced
  · rw [removed]
    have used := balanced.dataBytes
    have liveRecords := balanced.liveRecords
    have counts : b.compacted.liveCount = b.liveCount := by
      rw [enrolled.sound.compacted.liveCount, enrolled.sound.liveCount, run_compacted,
        (Run.prunes_compact b.run).live]
    have parts := Run.size_compact_add_size_removable b.run
    rw [← enrolled.sound.used] at parts
    rw [total_cons] at used liveRecords
    simp only [report, enrolled.counted, if_true, Ledger.count]
    refine ⟨balanced.allocated, ?_, ?_, balanced.published⟩
    · rw [total_cons]
      simp only [Counters.addCompaction, compacted]
      omega
    · rw [total_cons, counts]
      exact liveRecords

end

end OrderedStore.Block
