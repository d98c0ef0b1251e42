import OrderedStore.Proofs.Block.Compaction
import OrderedStore.Proofs.Block.Growth

/-! # Puts and deletions in one block

A put stores its record in a block that was at most compacted and grown before, or leaves such a
block because the record would not fit the largest capacity. A deletion replaces a live record by
its tombstone.
-/

namespace OrderedStore.Block

section

variable {b : Block} {l : Ledger} {tuning : Tuning} {n : Nat} {rest : List Block}

theorem WellFormed.usedWith_eq (wf : b.WellFormed) {low high : Run} {same : Option Record}
    (eq : b.run = low ++ (same.toList ++ high)) (size : Nat) :
    b.usedWith same size = Run.size low + size + Run.size high := by
  rw [usedWith, wf.used, eq, Run.size_append, Run.size_append]
  cases same with
  | none =>
      simp only [Option.map_none, Option.getD_none, Option.toList_none, Run.size, total_nil]
      omega
  | some r =>
      have single : Run.size [r] = r.size := Nat.add_zero _
      simp only [Option.map_some, Option.getD_some, Option.toList_some, single]
      omega

/-- The bytes in use once `new` is stored. -/
abbrev need (b : Block) (new : Record) : Nat := b.usedWith (b.at? new.key) new.size

theorem Grows.need_eq {grown : Block} (h : b.Grows grown) (new : Record) :
    grown.need new = b.need new := by
  rw [need, usedWith, h.at?, h.used]
  rfl

theorem WellFormed.hasRoom_iff (wf : b.WellFormed) {used : Nat} :
    b.hasRoom used = true ↔ used ≤ b.capacity := by
  have room := wf.room
  simp only [hasRoom, Bool.or_eq_true, decide_eq_true_eq]
  omega

/-- The block with `new` stored in the place of the record that has its key. -/
abbrev stored (b : Block) (l : Ledger) (new : Record) : Block × Ledger :=
  b.store l (b.at? new.key) new (b.need new)

theorem WellFormed.run_stored (wf : b.WellFormed) (new : Record) :
    (b.stored l new).1.run = Ascending.inserted Record.key new b.run :=
  Ascending.toList_put wf.ascending new

theorem WellFormed.live_stored (wf : b.WellFormed) {new : Record} (live : new.deleted = false) :
    Run.live (b.stored l new).1.run = Ascending.inserted Record.key new (Run.live b.run) := by
  rw [wf.run_stored, Run.live_inserted live]

theorem WellFormed.stored (wf : b.WellFormed) {new : Record} (live : new.deleted = false)
    (describable : new.Describable) (room : b.need new ≤ b.capacity) :
    (b.stored l new).1.WellFormed := by
  obtain ⟨low, same, high, eq, below, equal, above, found⟩ := wf.exists_run_eq new.key
  have after : (b.stored l new).1.run = low ++ new :: high := by
    rw [wf.run_stored, eq, Ascending.inserted_append below equal above]
  have records := wf.recordCount
  have tombs := wf.deletedCount
  have parts := wf.usedWith_eq eq new.size
  rw [eq] at records tombs
  refine
    { valid := wf.valid
      used := ?_
      recordCount := ?_
      deletedCount := ?_
      ascending := Ascending.ascending_put wf.ascending new
      describable := ?_
      room := room }
  · rw [after, Run.size_append, Run.size_cons]
    simp only [Block.stored, store, need, found]
    omega
  · rw [after]
    simp only [Block.stored, store, found]
    cases same with
    | none =>
        simp_all
        omega
    | some r => simp_all
  · rw [after]
    simp only [Block.stored, store, found, Run.tombstones] at tombs ⊢
    cases same with
    | none => simp_all
    | some r => cases deleted : r.deleted <;> simp_all
  · intro r member
    rw [after] at member
    rcases List.mem_append.mp member with member | member
    · exact wf.describable r (eq ▸ List.mem_append_left _ member)
    · rcases List.mem_cons.mp member with rfl | member
      · exact describable
      · exact wf.describable r
          (eq ▸ List.mem_append_right _ (List.mem_append_right _ member))

theorem Enrolled.stored (enrolled : b.Enrolled tuning) {new : Record}
    (live : new.deleted = false) (describable : new.Describable)
    (room : b.need new ≤ b.capacity) : (b.stored l new).1.Enrolled tuning where
  sound := ⟨enrolled.sound.toWellFormed.stored live describable room, enrolled.sound.capacity⟩
  tuning := enrolled.tuning
  counted := enrolled.counted
  accounted := enrolled.accounted

theorem balanced_stored (enrolled : b.Enrolled tuning) {new : Record}
    (balanced : l.Balanced n (b :: rest)) :
    (b.stored l new).2.Balanced n ((b.stored l new).1 :: rest) := by
  obtain ⟨low, same, high, eq, _, _, _, found⟩ := enrolled.sound.exists_run_eq new.key
  have records := enrolled.sound.recordCount
  have tombs := enrolled.sound.deletedCount
  have bytes := balanced.dataBytes
  have liveRecords := balanced.liveRecords
  rw [total_cons] at bytes liveRecords
  rw [eq] at records tombs
  have some_tomb : ∀ r ∈ same, r.deleted = true → 0 < b.deletedCount := by
    rintro r ⟨⟩ deleted
    rw [tombs]
    exact List.countP_pos_iff.mpr ⟨r, by simp, deleted⟩
  have few : b.deletedCount ≤ b.recordCount := by
    rw [records, tombs]
    exact List.countP_le_length
  simp only [Block.stored, store, report, enrolled.counted, if_true, Ledger.count]
  refine ⟨balanced.allocated, ?_, ?_, balanced.published⟩
  · rw [total_cons]
    simp only [Counters.addData]
    omega
  · rw [total_cons]
    simp only [Counters.addData, liveCount, found] at liveRecords ⊢
    cases same with
    | none =>
        simp only [Option.any_none, Option.isNone_none, Bool.false_eq_true, if_false, if_true]
        omega
    | some r =>
        simp only [Option.any_some, Option.isNone_some, Bool.false_eq_true, if_false]
        by_cases deleted : r.deleted = true
        · have counted := some_tomb r rfl deleted
          simp only [deleted, if_true]
          omega
        · simp only [deleted, Bool.false_eq_true, if_false]
          omega

/-- The block that a put with too little room turns to: compacted, and then grown. -/
def prepared (b : Block) (l : Ledger) (new : Record) : Block × Ledger :=
  let c := (b.compact l true).2
  c.1.reserve c.2 (c.1.need new)

theorem grows_prepared (b : Block) (l : Ledger) (new : Record) :
    (b.compact l true).2.1.Grows (b.prepared l new).1 := grows_reserve _ _ _

theorem WellFormed.prepared (wf : b.WellFormed) (new : Record) :
    (b.prepared l new).1.WellFormed :=
  (grows_prepared b l new).wellFormed (wf.compact l true)

theorem WellFormed.run_prepared (wf : b.WellFormed) (new : Record) :
    (b.prepared l new).1.run = Run.compact b.run :=
  (grows_prepared b l new).run.trans (wf.run_compact_force l)

theorem tuning_prepared (b : Block) (l : Ledger) (new : Record) :
    (b.prepared l new).1.tuning = b.tuning :=
  (grows_prepared b l new).tuning.trans (tuning_compact l true)

theorem ladder_prepared (b : Block) (l : Ledger) (new : Record) :
    (b.prepared l new).1.ladder = b.ladder := congrArg Tuning.ladder (tuning_prepared b l new)

theorem need_le_capacity_prepared {new : Record}
    (small : (b.prepared l new).1.need new ≤ b.ladder.max) :
    (b.prepared l new).1.need new ≤ (b.prepared l new).1.capacity := by
  rw [(grows_prepared b l new).need_eq] at small ⊢
  refine le_capacity_reserve _ _ ?_
  rw [ladder_compact]
  exact small

/-- What a put makes of a block that it will not change any further: it stores the record, or finds
that the block is full. -/
def outcome (b : Block) (l : Ledger) (new : Record) : PutResult × Block × Ledger :=
  if b.need new ≤ b.capacity then (.done, b.stored l new) else (.needsSplit, b, l)

theorem outcome_done_iff {new : Record} :
    (b.outcome l new).1 = .done ↔ b.need new ≤ b.capacity := by
  rw [outcome]
  split
  next room => exact iff_of_true rfl room
  next full => exact iff_of_false nofun full

theorem outcome_of_done {new : Record} (done : (b.outcome l new).1 = .done) :
    b.outcome l new = (.done, b.stored l new) := if_pos (outcome_done_iff.mp done)

theorem outcome_of_full {new : Record} (full : (b.outcome l new).1 = .needsSplit) :
    b.outcome l new = (.needsSplit, b, l) :=
  if_neg fun room => by cases full.symm.trans (outcome_done_iff.mpr room)

theorem capacity_outcome (b : Block) (l : Ledger) (new : Record) :
    (b.outcome l new).2.1.capacity = b.capacity := by
  rw [outcome]
  split <;> rfl

theorem WellFormed.outcome (wf : b.WellFormed) {new : Record} (live : new.deleted = false)
    (describable : new.Describable) : (b.outcome l new).2.1.WellFormed := by
  rw [Block.outcome]
  split
  next room => exact wf.stored live describable room
  next => exact wf

/-- A put stores its record in the block, or else prepares the block and tries again. -/
theorem WellFormed.put_eq (wf : b.WellFormed) {key value : Bytes}
    (check : Record.check key value b.ladder.max = .ok (Record.live key value).size) :
    b.put l key value = .ok (
      if b.need (Record.live key value) ≤ b.capacity then
        (.done, b.stored l (Record.live key value))
      else
        (b.prepared l (Record.live key value)).1.outcome (b.prepared l (Record.live key value)).2
          (Record.live key value)) := by
  by_cases room : b.need (Record.live key value) ≤ b.capacity
  · have enough : b.hasRoom (b.usedWith (b.at? key) (Record.live key value).size) = true :=
      wf.hasRoom_iff.mpr room
    rw [if_pos room]
    simp only [put, wf.ensureValid, check, bind, Except.bind, enough, if_true]
    rfl
  · have short : b.hasRoom (b.usedWith (b.at? key) (Record.live key value).size) = false :=
      Bool.eq_false_iff.mpr (mt wf.hasRoom_iff.mp room)
    let c := (b.compact l true).2
    let used := c.1.usedWith (c.1.at? key) (Record.live key value).size
    let p := c.1.reserve c.2 used
    have grows : c.1.Grows p.1 := grows_prepared b l (Record.live key value)
    have need_eq : p.1.need (Record.live key value) = used := grows.need_eq _
    have stored_eq : p.1.stored p.2 (Record.live key value)
        = p.1.store p.2 (c.1.at? key) (Record.live key value) used := by
      have found : p.1.at? key = c.1.at? key := grows.at? key
      rw [← need_eq, ← found]
      rfl
    have steps : b.put l key value = .ok (if p.1.hasRoom used then
        (.done, p.1.store p.2 (c.1.at? key) (Record.live key value) used)
        else (.needsSplit, p.1, p.2)) := by
      simp only [put, wf.ensureValid, check, bind, Except.bind, short]
      exact (apply_ite Except.ok _ _ _).symm
    have enough_iff : p.1.hasRoom used = true
        ↔ p.1.need (Record.live key value) ≤ p.1.capacity := by
      rw [need_eq]
      exact (wf.prepared (Record.live key value)).hasRoom_iff
    rw [if_neg room, steps, ← stored_eq]
    simp only [enough_iff]
    rfl

theorem WellFormed.exists_outcome (wf : b.WellFormed) {key value : Bytes}
    (check : Record.check key value b.ladder.max = .ok (Record.live key value).size) :
    ∃ p : Block × Ledger, b.put l key value = .ok (p.1.outcome p.2 (Record.live key value))
      ∧ p.1.WellFormed ∧ Run.Prunes b.run p.1.run
      ∧ (p = (b, l) ∧ b.need (Record.live key value) ≤ b.capacity
        ∨ p = b.prepared l (Record.live key value)) := by
  have ended := wf.put_eq (l := l) check
  by_cases room : b.need (Record.live key value) ≤ b.capacity
  · refine ⟨(b, l), ?_, wf, .refl b.run, .inl ⟨rfl, room⟩⟩
    rw [ended, if_pos room]
    exact congrArg Except.ok (if_pos room).symm
  · refine ⟨b.prepared l (Record.live key value), ?_, wf.prepared _, ?_, .inr rfl⟩
    · rw [ended, if_neg room]
    · rw [wf.run_prepared]
      exact Run.prunes_compact b.run

/-- A put prepares the block by pruning and growing it, and then stores its record if there is room
in the largest capacity. -/
theorem put_cases {key value : Bytes} (enrolled : b.Enrolled tuning)
    (describable : (Record.live key value).Describable)
    (small : (Record.live key value).size ≤ b.ladder.max) (balanced : l.Balanced n (b :: rest)) :
    ∃ (p : Block) (pl : Ledger), p.Enrolled tuning ∧ Run.Prunes b.run p.run
      ∧ pl.Balanced n (p :: rest)
      ∧ (p.need (Record.live key value) ≤ p.capacity
            ∧ b.put l key value = .ok (.done, p.stored pl (Record.live key value))
          ∨ p.ladder.max < p.need (Record.live key value)
            ∧ b.put l key value = .ok (.needsSplit, p, pl)) := by
  have ended := enrolled.sound.toWellFormed.put_eq (l := l) (Record.check_of_le describable small)
  by_cases room : b.need (Record.live key value) ≤ b.capacity
  · rw [if_pos room] at ended
    exact ⟨b, l, enrolled, .refl b.run, balanced, .inl ⟨room, ended⟩⟩
  · rw [if_neg room] at ended
    let p := b.prepared l (Record.live key value)
    have compacted := enrolled.compact l true
    have grows := grows_prepared b l (Record.live key value)
    have balanced_p : p.2.Balanced n (p.1 :: rest) :=
      balanced_reserve _ compacted.accounted (balanced_compact true enrolled balanced)
    have prunes : Run.Prunes b.run p.1.run := grows.run ▸ prunes_compact l true
    refine ⟨p.1, p.2, grows.enrolled compacted, prunes, balanced_p, ?_⟩
    by_cases enough : p.1.need (Record.live key value) ≤ p.1.capacity
    · exact .inl ⟨enough, ended.trans (congrArg Except.ok (if_pos enough))⟩
    · refine .inr ⟨?_, ended.trans (congrArg Except.ok (if_neg enough))⟩
      apply Nat.lt_of_not_le
      intro least
      exact enough (need_le_capacity_prepared (ladder_prepared b l _ ▸ least))

/-- A block that has no room for a record holds another one, and none under the record's key if it
is the only one. -/
theorem WellFormed.of_full (wf : b.WellFormed) {key : Bytes} {size : Nat}
    (small : size ≤ b.ladder.max) (full : b.ladder.max < b.usedWith (b.at? key) size) :
    b.run ≠ [] ∧ ∀ r, b.run = [r] → r.key ≠ key := by
  obtain ⟨low, same, high, eq, _, equal, _, found⟩ := wf.exists_run_eq key
  have parts := wf.usedWith_eq eq size
  rw [found, parts] at full
  constructor
  · intro empty
    rw [eq] at empty
    simp only [List.append_eq_nil_iff] at empty
    simp only [empty, Run.size, total_nil] at full
    omega
  · intro r single at_key
    have same_eq : same = some r := by
      rw [← found, at?, Ascending.find?_eq wf.ascending]
      change b.run.find? _ = _
      simp [single, at_key]
    rw [single, same_eq] at eq
    have lengths := congrArg List.length eq
    simp only [Option.toList_some, List.length_append, List.length_singleton] at lengths
    have low_nil : low = [] := List.eq_nil_of_length_eq_zero (by omega)
    have high_nil : high = [] := List.eq_nil_of_length_eq_zero (by omega)
    simp only [low_nil, high_nil, Run.size, total_nil] at full
    omega

theorem put_empty {key value : Bytes} (enrolled : b.Enrolled tuning) (empty : b.run = [])
    (describable : (Record.live key value).Describable)
    (small : (Record.live key value).size ≤ b.ladder.max) (balanced : l.Balanced n (b :: rest)) :
    ∃ q l', b.put l key value = .ok (.done, q, l') ∧ q.Enrolled tuning
      ∧ q.run = [Record.live key value] ∧ l'.Balanced n (q :: rest) := by
  obtain ⟨p, pl, enrolled_p, prunes, balanced_p, outcome⟩ :=
    put_cases enrolled describable small balanced
  rw [empty] at prunes
  have still_empty : p.run = [] := List.sublist_nil.mp prunes.sublist
  rcases outcome with ⟨room, done⟩ | ⟨full, _⟩
  · have stored : (p.stored pl (Record.live key value)).1.run = [Record.live key value] := by
      rw [enrolled_p.sound.run_stored, still_empty]
      rfl
    exact ⟨_, _, done, enrolled_p.stored (l := pl) rfl describable room, stored,
      balanced_stored enrolled_p balanced_p⟩
  · have ladders : p.ladder = b.ladder := congrArg Tuning.ladder
      (enrolled_p.tuning.trans enrolled.tuning.symm)
    exact absurd still_empty (enrolled_p.sound.of_full (ladders ▸ small) full).1

/-- What a deletion that finds `r` makes of the block. -/
abbrev marked (b : Block) (r : Record) : Block :=
  { b with
    records := Ascending.put Record.key { r with deleted := true } b.records
    deletedCount := b.deletedCount + 1 }

theorem WellFormed.run_marked (wf : b.WellFormed) (r : Record) :
    (b.marked r).run = Ascending.inserted Record.key { r with deleted := true } b.run :=
  Ascending.toList_put wf.ascending _

theorem WellFormed.exists_run_marked (wf : b.WellFormed) {r : Record} {key : Bytes}
    (found : b.liveAt? key = some r) :
    ∃ low high : Run, b.run = low ++ r :: high
      ∧ (b.marked r).run = low ++ { r with deleted := true } :: high := by
  obtain ⟨low, same, high, eq, below, equal, above, at_key⟩ := wf.exists_run_eq key
  obtain ⟨same_eq, _⟩ : same = some r ∧ r.deleted = false := by
    simpa [liveAt?, at_key, Option.filter_eq_some_iff] using found
  subst same_eq
  obtain rfl : r.key = key := equal r rfl
  refine ⟨low, high, eq, ?_⟩
  rw [wf.run_marked, eq]
  exact Ascending.inserted_append below equal above

theorem WellFormed.marked (wf : b.WellFormed) {r : Record} {key : Bytes}
    (found : b.liveAt? key = some r) : (b.marked r).WellFormed := by
  obtain ⟨low, high, eq, after⟩ := wf.exists_run_marked found
  have alive := (wf.mem_of_liveAt? found).2.1
  have kept : Ascending Record.key (b.marked r).run := Ascending.ascending_put wf.ascending _
  refine ⟨wf.valid, ?_, ?_, ?_, kept, ?_, wf.room⟩
  · rw [after, wf.used, eq, Run.size_append, Run.size_append, Run.size_cons, Run.size_cons]
    rfl
  · rw [after, wf.recordCount, eq]
    simp
  · rw [after]
    simp only [wf.deletedCount, eq, Run.tombstones]
    simp [alive]
    omega
  · intro r' member
    rw [after] at member
    have all := wf.describable
    rw [eq] at all
    simp only [List.mem_append, List.mem_cons] at member all
    rcases member with member | rfl | member
    · exact all r' (.inl member)
    · have described := all r (.inr (.inl rfl))
      exact ⟨described.key, described.value⟩
    · exact all r' (.inr (.inr member))

theorem Enrolled.marked (enrolled : b.Enrolled tuning) {r : Record} {key : Bytes}
    (found : b.liveAt? key = some r) : (b.marked r).Enrolled tuning where
  sound := ⟨enrolled.sound.toWellFormed.marked found, enrolled.sound.capacity⟩
  tuning := enrolled.tuning
  counted := enrolled.counted
  accounted := enrolled.accounted

/-- A deletion marks the live record under its key, if there is one. -/
theorem WellFormed.delete_eq (wf : b.WellFormed) (key : Bytes) :
    b.delete l key = .ok (match b.liveAt? key with
      | none => (false, b, l)
      | some r => (true, b.marked r, b.report l (·.addData 0 (-1)))) := by
  simp only [delete, wf.ensureValid, bind, Except.bind]
  cases b.liveAt? key <;> rfl

theorem delete_cases (enrolled : b.Enrolled tuning) (key : Bytes)
    (balanced : l.Balanced n (b :: rest)) :
    b.liveAt? key = none ∧ b.delete l key = .ok (false, b, l)
      ∨ ∃ r l', b.liveAt? key = some r ∧ b.delete l key = .ok (true, b.marked r, l')
        ∧ l'.Balanced n (b.marked r :: rest) := by
  have deleted := enrolled.sound.delete_eq (l := l) key
  cases found : b.liveAt? key with
  | none => exact .inl ⟨rfl, by rw [deleted, found]⟩
  | some r =>
      refine .inr ⟨r, b.report l (·.addData 0 (-1)), rfl, by rw [deleted, found], ?_⟩
      obtain ⟨low, high, eq, _⟩ := enrolled.sound.exists_run_marked found
      have alive := (enrolled.sound.mem_of_liveAt? found).2.1
      have records := enrolled.sound.recordCount
      have tombs := enrolled.sound.deletedCount
      have parts := Run.length_live_add_tombstones b.run
      have some_live : 0 < (Run.live b.run).length :=
        List.length_pos_of_mem (Run.mem_live.mpr ⟨by simp [eq], alive⟩)
      have bytes := balanced.dataBytes
      have liveRecords := balanced.liveRecords
      rw [total_cons] at bytes liveRecords
      simp only [report, enrolled.counted, if_true, Ledger.count]
      refine ⟨balanced.allocated, ?_, ?_, balanced.published⟩
      · rw [total_cons]
        simp only [Counters.addData]
        omega
      · rw [total_cons]
        simp only [Counters.addData, liveCount] at liveRecords ⊢
        omega

end

end OrderedStore.Block
