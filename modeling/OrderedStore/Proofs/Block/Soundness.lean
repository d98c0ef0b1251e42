import OrderedStore.Block
import OrderedStore.Proofs.Record.Decoding
import OrderedStore.Proofs.Run.Updates

/-! # Well-formed and sound blocks

A block is well formed when its three counts are those of its records, its records ascend and can be
described, and they fit its region. What such a block finds under a key is what its run holds there.
It is sound if its region has, besides, a capacity of the ladder, as in a store.
-/

namespace OrderedStore.Block

/-- The counts of the block are those of its records, which lie in order within its region. -/
structure WellFormed (b : Block) : Prop where
  valid : b.valid = true
  used : b.used = Run.size b.run
  recordCount : b.recordCount = b.run.length
  deletedCount : b.deletedCount = Run.tombstones b.run
  ascending : Ascending Record.key b.run
  describable : ∀ r ∈ b.run, r.Describable
  room : b.used ≤ b.capacity

/-- The block is well formed in a region of the ladder. -/
structure Sound (b : Block) : Prop extends b.WellFormed where
  capacity : b.capacity ∈ b.ladder.classes

namespace Sound

variable {b : Block}

theorem capacity_le (sound : b.Sound) : b.capacity ≤ b.ladder.max :=
  Ladder.le_max_of_mem sound.capacity

theorem used_le (sound : b.Sound) : b.used ≤ b.ladder.max :=
  Nat.le_trans sound.room sound.capacity_le

end Sound

namespace WellFormed

variable {b : Block}

theorem liveCount (wf : b.WellFormed) : b.liveCount = (Run.live b.run).length := by
  have parts := Run.length_live_add_tombstones b.run
  rw [Block.liveCount, wf.recordCount, wf.deletedCount]
  omega

theorem ensureValid (wf : b.WellFormed) : b.ensureValid = .ok () := by
  simp [Block.ensureValid, wf.valid]

theorem exists_run_eq (wf : b.WellFormed) (key : Bytes) :
    ∃ (low : Run) (same : Option Record) (high : Run), b.run = low ++ (same.toList ++ high)
      ∧ (∀ r ∈ low, r.key < key) ∧ (∀ r ∈ same, r.key = key) ∧ (∀ r ∈ high, key < r.key)
      ∧ b.at? key = same := by
  obtain ⟨low, same, high, eq, below, equal, above, _, _, found⟩ :=
    Ascending.exists_eq wf.ascending key
  exact ⟨low, same, high, eq, below, equal, above, found⟩

theorem liveAt?_eq (wf : b.WellFormed) (key : Bytes) :
    b.liveAt? key = Run.at? (Run.live b.run) key := by
  obtain ⟨low, same, high, eq, below, equal, above, found⟩ := wf.exists_run_eq key
  have not_low : Run.at? (Run.live low) key = none :=
    Run.at?_eq_none.mpr fun r member => Std.ne_of_lt (below r (Run.mem_live.mp member).1)
  have not_high : Run.at? (Run.live high) key = none :=
    Run.at?_eq_none.mpr fun r member => (Std.ne_of_lt (above r (Run.mem_live.mp member).1)).symm
  rw [liveAt?, found, eq, Run.live_append, Run.live_append, Run.at?_append, Run.at?_append,
    not_low, not_high]
  cases same with
  | none => rfl
  | some r =>
      have at_key : r.key = key := equal r rfl
      cases deleted : r.deleted <;> simp [Run.at?, Run.live, deleted, at_key]

theorem mem_of_liveAt? (wf : b.WellFormed) {key : Bytes} {r : Record}
    (found : b.liveAt? key = some r) : r ∈ b.run ∧ r.deleted = false ∧ r.key = key := by
  rw [wf.liveAt?_eq] at found
  obtain ⟨member, at_key⟩ := Run.at?_eq_some found
  obtain ⟨inside, alive⟩ := Run.mem_live.mp member
  exact ⟨inside, alive, at_key⟩

/-- A search ends behind the records below its key. -/
theorem search_eq_size (wf : b.WellFormed) {low rest : Run} {key : Bytes}
    (eq : b.run = low ++ rest) (below : ∀ r ∈ low, r.key < key) (above : ∀ r ∈ rest, key ≤ r.key) :
    b.search key = Run.size low := by
  have passed : ∀ r ∈ low, decide (r.key < key) = true := fun r member =>
    decide_eq_true (below r member)
  have none_passes : rest.takeWhile (·.key < key) = [] := by
    cases rest with
    | nil => rfl
    | cons r rest =>
        have reached : ¬r.key < key := List.not_lt.mpr (above r List.mem_cons_self)
        simp [reached]
  have ranked : Ascending.rank Record.key key b.records = (b.run.takeWhile (·.key < key)).length :=
    Ascending.rank_eq wf.ascending
  rw [search, ranked, eq, List.takeWhile_append_of_pos passed, none_passes, List.append_nil,
    List.take_left]

theorem search_key_eq (wf : b.WellFormed) {low high : Run} {r : Record}
    (eq : b.run = low ++ r :: high) : b.search r.key = Run.size low := by
  have asc := wf.ascending
  rw [eq] at asc
  obtain ⟨_, from_here, before⟩ := List.pairwise_append.mp asc
  refine wf.search_eq_size eq (fun x member => before x member r List.mem_cons_self) fun y member => ?_
  cases List.mem_cons.mp member with
  | inl here => exact here ▸ List.le_refl _
  | inr behind => exact List.le_of_lt ((List.pairwise_cons.mp from_here).1 y behind)

theorem floor?_eq (wf : b.WellFormed) (key : Bytes) :
    b.floor? key = ((Run.live b.run).filter (·.key ≤ key)).getLast? := by
  have first : b.run.take (Ascending.reach Record.key key b.records)
      = b.run.filter (·.key ≤ key) := by
    have reached : Ascending.reach Record.key key b.records
        = (b.run.takeWhile (·.key ≤ key)).length := Ascending.reach_eq wf.ascending
    rw [reached, ← List.prefix_iff_eq_take.mp (List.takeWhile_prefix _)]
    exact wf.ascending.takeWhile_eq_filter (· ≤ key) fun k k' less passes =>
      decide_eq_true (List.le_trans (List.le_of_lt less) (of_decide_eq_true passes))
  rw [floor?, first, ← List.head?_filter, List.filter_reverse, List.head?_reverse, Run.live,
    List.filter_filter, List.filter_filter]
  simp only [Bool.and_comm]

theorem decoded (wf : b.WellFormed) :
    Record.readRun 0 b.image = (b.rows, none) ∧ b.image.length = b.used
      ∧ b.rows.length = b.recordCount ∧ b.rows.countP (·.record.deleted) = b.deletedCount := by
  have marks : b.rows.countP (·.record.deleted) = Run.tombstones b.run := by
    rw [rows, Run.tombstones, ← Run.map_record_place 0 b.run, List.countP_map]
    rw [Run.map_record_place]
    rfl
  refine ⟨Run.readRun_encode wf.describable 0, ?_, ?_, ?_⟩
  · rw [image, Run.length_encode, wf.used]
  · rw [rows, Run.length_place, wf.recordCount]
  · rw [marks, wf.deletedCount]

end WellFormed

instance (b : Block) : Decidable b.WellFormed :=
  have : Decidable (Ascending Record.key b.run) :=
    inferInstanceAs (Decidable (b.run.Pairwise (·.key < ·.key)))
  decidable_of_iff (b.valid = true ∧ b.used = Run.size b.run ∧ b.recordCount = b.run.length
      ∧ b.deletedCount = Run.tombstones b.run ∧ Ascending Record.key b.run
      ∧ (∀ r ∈ b.run, r.Describable) ∧ b.used ≤ b.capacity)
    ⟨fun ⟨valid, used, count, deleted, ascending, describable, room⟩ =>
        ⟨valid, used, count, deleted, ascending, describable, room⟩,
      fun wf => ⟨wf.valid, wf.used, wf.recordCount, wf.deletedCount, wf.ascending, wf.describable,
        wf.room⟩⟩

theorem firstKey?_eq (b : Block) : b.firstKey? = b.run.head?.map (·.key) := by
  rw [firstKey?, run, List.head?_eq_getElem?, Array.getElem?_toList]

theorem lastKey?_eq (b : Block) : b.lastKey? = b.run.getLast?.map (·.key) := by
  rw [lastKey?, run, Array.getLast?_toList]

theorem wellFormed_create (lease : Lease) (tuning : Tuning) (counted : Bool) :
    (create lease tuning counted).WellFormed where
  valid := rfl
  used := rfl
  recordCount := rfl
  deletedCount := rfl
  ascending := .nil
  describable := by simp [run, create]
  room := Nat.zero_le _

theorem sound_create {lease : Lease} {tuning : Tuning} (counted : Bool)
    (sized : lease.size ∈ tuning.ladder.classes) : (create lease tuning counted).Sound :=
  ⟨wellFormed_create lease tuning counted, sized⟩

end OrderedStore.Block
