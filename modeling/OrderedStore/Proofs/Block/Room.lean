import OrderedStore.Proofs.Block.Rounds
import OrderedStore.Proofs.Run.Updates

/-! # When a put finds room

A put into a block never adds up what there would be room for: it compacts, looks again, and grows
step by step. Still its answer depends on one sum only, that of the records which a forced
compaction would keep and of the new one, and on the largest capacity.
-/

namespace OrderedStore.Block

/-- The bytes of the records that a forced compaction keeps, those under `key` not counted: of the
live ones, and of the first one even if it is deleted. -/
def keptBeside (b : Block) (key : Bytes) : Nat :=
  Run.size ((Run.compact b.run).filter (·.key ≠ key))

section

variable {b : Block} {l : Ledger} {key value : Bytes}

theorem WellFormed.need_eq (wf : b.WellFormed) (new : Record) :
    b.need new = Run.size (b.run.filter (·.key ≠ new.key)) + new.size := by
  obtain ⟨low, same, high, eq, below, equal, above, found⟩ := wf.exists_run_eq new.key
  have others : b.run.filter (·.key ≠ new.key) = low ++ high := by
    obtain ⟨_, _, low_ne, _⟩ := Ascending.filter_of_below below
    obtain ⟨_, high_ne, _, _⟩ := Ascending.filter_of_above above
    have same_eq : same.toList.filter (·.key ≠ new.key) = [] := by
      simpa using equal
    rw [eq, List.filter_append, List.filter_append, low_ne, high_ne, same_eq]
    rfl
  rw [need, found, wf.usedWith_eq eq, others, Run.size_append]
  omega

theorem keptBeside_le (b : Block) (key : Bytes) :
    b.keptBeside key ≤ Run.size (b.run.filter (·.key ≠ key)) :=
  total_le_of_sublist Record.size ((Run.prunes_compact b.run).sublist.filter _)

theorem WellFormed.need_prepared (wf : b.WellFormed) (new : Record) :
    (b.prepared l new).1.need new = b.keptBeside new.key + new.size := by
  rw [(wf.prepared new).need_eq, wf.run_prepared, keptBeside]

/-- How a put whose record passes the check ends. -/
structure PutSettles (b : Block) (l : Ledger) (key value : Bytes)
    (ended : PutResult × Block × Ledger) : Prop where
  answered : b.put l key value = .ok ended
  /-- The put comes to its end after rounds of which at most two make room. -/
  rounds : ∃ n ≤ 2, Rounds (Record.live key value) b l n ended
  /-- The rounds have no other end. -/
  only : ∀ n other, Rounds (Record.live key value) b l n other → other = ended
  compacted : (b.compact l true).2.1.run = Run.compact b.run
  done_iff : ended.1 = .done
    ↔ b.keptBeside key + (4 + key.length + value.length) ≤ b.ladder.max
  done : ended.1 = .done → Run.live ended.2.1.run
    = Ascending.inserted Record.key (Record.live key value) (Run.live b.run)
  full : ended.1 = .needsSplit → Run.live ended.2.1.run = Run.live b.run
  wellFormed : ended.2.1.WellFormed
  capacity_le : ended.2.1.capacity ≤ b.ladder.max

/-- The block that a put ends with is within the largest capacity, and it has room exactly if the
records that a forced compaction keeps leave enough of that. -/
theorem WellFormed.last_room (wf : b.WellFormed) (small : b.capacity ≤ b.ladder.max)
    {new : Record} {p : Block × Ledger}
    (last : p = (b, l) ∧ b.need new ≤ b.capacity ∨ p = b.prepared l new) :
    p.1.capacity ≤ b.ladder.max
      ∧ (p.1.need new ≤ p.1.capacity ↔ b.keptBeside new.key + new.size ≤ b.ladder.max) := by
  rcases last with ⟨rfl, room⟩ | rfl
  · have less := b.keptBeside_le new.key
    have whole := wf.need_eq new
    exact ⟨small, iff_of_true room (by omega)⟩
  · have bounded : (b.prepared l new).1.capacity ≤ b.ladder.max := by
      rw [← ladder_prepared b l new]
      apply (grows_prepared b l new).capacity_le
      rw [capacity_compact, ladder_compact]
      exact small
    rw [← wf.need_prepared (l := l)]
    exact ⟨bounded, fun room => Nat.le_trans room bounded, need_le_capacity_prepared⟩

/-- A put of an accepted record always ends, and it finds room exactly if the record and the others
that a forced compaction keeps fit the largest capacity. -/
theorem WellFormed.put_settles (wf : b.WellFormed) (small : b.capacity ≤ b.ladder.max)
    {size : Nat} (accepted : Record.check key value b.ladder.max = .ok size) (l : Ledger) :
    ∃ ended, PutSettles b l key value ended := by
  obtain ⟨describable, size_eq, _⟩ := Record.describable_of_check accepted
  have check : Record.check key value b.ladder.max = .ok (Record.live key value).size :=
    size_eq ▸ accepted
  obtain ⟨p, answered, wf_p, prunes, last⟩ := wf.exists_outcome (l := l) check
  obtain ⟨ended, n, answered', few, rounds⟩ := wf.exists_rounds (l := l) check
  obtain rfl : p.1.outcome p.2 (Record.live key value) = ended :=
    Except.ok.inj (answered.symm.trans answered')
  obtain ⟨bounded, room_iff⟩ := wf.last_room small last
  exact ⟨_,
    { answered := answered
      rounds := ⟨n, few, rounds⟩
      only := fun _ _ rounds' => (rounds'.unique rounds).2
      compacted := wf.run_compact_force l
      done_iff := outcome_done_iff.trans room_iff
      done := fun done => by rw [outcome_of_done done, wf_p.live_stored rfl, prunes.live]
      full := fun full => by rw [outcome_of_full full, prunes.live]
      wellFormed := wf_p.outcome rfl describable
      capacity_le := (capacity_outcome p.1 p.2 _).symm ▸ bounded }⟩

end

/-- A tombstone that a put would revive, if the compaction that makes room left it there. -/
def crowded : Block :=
  { scratch 56 ⟨⟨64⟩, 0.25, 0.5⟩ with
    records := #[⟨[1], List.replicate 20 0, false⟩, ⟨[2], List.replicate 20 0, true⟩]
    used := 50
    recordCount := 2
    deletedCount := 1 }

theorem put_settles_crowded : ∃ ended,
    PutSettles crowded (.create false) [2] (List.replicate 30 1) ended ∧ ended.1 = .done := by
  have accepted : Record.check [2] (List.replicate 30 1) crowded.ladder.max = .ok 35 := rfl
  have wf : crowded.WellFormed := by decide
  obtain ⟨ended, settles⟩ := wf.put_settles (by decide) accepted (.create false)
  exact ⟨ended, settles, settles.done_iff.mpr (by decide)⟩

end OrderedStore.Block
