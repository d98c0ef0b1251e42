import OrderedStore.Proofs.Block.Splits

/-! # What merges come to

A merge looks at three things in turn: whether the two blocks still hold data and lie in their order,
whether their records together fit the largest capacity, and whether the ratio allows it or force is
used. Compactions come between the first and the second. Once all three hold, the block always grows
far enough, because the sum that was compared is the one that it has to hold.
-/

namespace OrderedStore.Block

/-- A block that a neighbour has absorbed holds nothing any more. -/
structure Spent (b : Block) : Prop where
  invalid : b.valid = false
  records : b.records = #[]
  used : b.used = 0
  recordCount : b.recordCount = 0
  deletedCount : b.deletedCount = 0

/-- A block is well formed until a neighbour absorbs it. -/
inductive Coherent (b : Block) : Prop where
  | holding : b.WellFormed → Coherent b
  | spent : b.Spent → Coherent b

/-- What a merge answers, and both blocks and the ledger after it. -/
def takeIn (b left : Block) (l : Ledger) (compactFirst force : Bool) :
    Except Misuse Bool × Block × Block × Ledger :=
  match b.merge left l compactFirst force with
  | .ok m => (.ok m.merged, m.block, m.left, m.ledger)
  | .error cause => (.error cause, b, left, l)

/-- One of the blocks was absorbed before, or both hold records and the last of `left` is not below
the first of the other. -/
def Unmergeable (b left : Block) : Prop :=
  b.valid = false ∨ left.valid = false
    ∨ ∃ last ∈ left.run.getLast?, ∃ first ∈ b.run.head?, ¬last.key < first.key

/-- `m` is the block with the records of `left` in front of its own, and `rest` is what the merge
leaves of `left`. -/
structure TakesIn (b left m rest : Block) : Prop where
  wellFormed : m.WellFormed
  run : m.run = left.run ++ b.run
  used : m.used = left.used + b.used
  recordCount : m.recordCount = left.recordCount + b.recordCount
  deletedCount : m.deletedCount = left.deletedCount + b.deletedCount
  room : m.used ≤ m.capacity
  capacity_le : m.capacity ≤ b.ladder.max
  /-- The page has grown until both runs fit, and then its bytes have made way for those of `left`. -/
  page : ∃ p, Page.MakesRoom b.tuning left.used b.page true p ∧ m.page = p.joined left.page
  tuning : m.tuning = b.tuning
  stamp : m.stamp = b.stamp + 1
  spent : rest.Spent
  released : rest.capacity = 0
  stamp_rest : rest.stamp = left.stamp + 1

/-- How a merge ends. The blocks `b'` and `left'` are the two after the compactions, if these are
asked for, and else the two as they were. -/
structure MergeSettles (b left b' left' : Block) (l : Ledger) (compactFirst force : Bool)
    (answer : Except Misuse Bool) (m rest : Block) (l' : Ledger) : Prop where
  run : b'.run = if compactFirst then Run.compact b.run else b.run
  run_left : left'.run = if compactFirst then Run.compact left.run else left.run
  error_iff : (∃ cause, answer = .error cause) ↔ b.Unmergeable left
  error : ∀ cause, answer = .error cause → m = b ∧ rest = left ∧ l' = l
  refused : answer = .ok false → m = b' ∧ rest = left'
  kept : answer = .ok false → Run.live m.run = Run.live b.run ∧ Run.live rest.run = Run.live left.run
  untouched : answer = .ok false → compactFirst = false → m = b ∧ rest = left ∧ l' = l
  merged_iff : answer = .ok true ↔ ¬b.Unmergeable left ∧ left'.used + b'.used ≤ b.ladder.max
    ∧ (force = true ∨ b'.shouldMerge left' = true)
  merged : answer = .ok true → b'.TakesIn left' m rest
  coherent : m.Coherent ∧ rest.Coherent

section

variable {b left : Block} {l : Ledger} {compactFirst force : Bool}

theorem Spent.run (spent : b.Spent) : b.run = [] := by rw [Block.run, spent.records]

theorem spent_absorbed (b : Block) : b.absorbed.Spent := ⟨rfl, rfl, rfl, rfl, rfl⟩

/-- Only the last record of one run and the first of the other have to be compared. -/
theorem WellFormed.apart_of_ends (wf : b.WellFormed) (of_left : left.WellFormed)
    (ends : ∀ last ∈ left.run.getLast?, ∀ first ∈ b.run.head?, last.key < first.key) :
    ∀ x ∈ left.run, ∀ y ∈ b.run, x.key < y.key := by
  intro x left_member y member
  obtain ⟨low, last, left_eq⟩ :=
    (List.eq_nil_or_concat left.run).resolve_left (List.ne_nil_of_mem left_member)
  obtain ⟨first, high, eq⟩ := List.exists_cons_of_ne_nil (List.ne_nil_of_mem member)
  have between : last.key < first.key := ends last (by simp [left_eq]) first (by simp [eq])
  have upto : x.key ≤ last.key := by
    have asc := of_left.ascending
    rw [left_eq, List.concat_eq_append] at left_member asc
    rcases List.mem_append.mp left_member with below | here
    · exact List.le_of_lt ((List.pairwise_append.mp asc).2.2 x below last (by simp))
    · exact List.mem_singleton.mp here ▸ List.le_refl _
  have onward : first.key ≤ y.key := by
    have asc := wf.ascending
    rw [eq] at member asc
    rcases List.mem_cons.mp member with here | above
    · exact here ▸ List.le_refl _
    · exact List.le_of_lt ((List.pairwise_cons.mp asc).1 y above)
  exact Std.lt_of_lt_of_le (Std.lt_of_le_of_lt upto between) onward

theorem overlaps_iff : b.overlaps left = true
    ↔ ∃ last ∈ left.run.getLast?, ∃ first ∈ b.run.head?, ¬last.key < first.key := by
  rw [overlaps, firstKey?_eq, lastKey?_eq]
  cases left.run.getLast? with
  | none => simp
  | some last => cases b.run.head? <;> simp

theorem takeIn_of_unmergeable (unmergeable : b.Unmergeable left) (l : Ledger)
    (compactFirst force : Bool) :
    ∃ cause, b.takeIn left l compactFirst force = (.error cause, b, left, l) := by
  suffices failed : ∃ cause, b.merge left l compactFirst force = .error cause by
    obtain ⟨cause, failed⟩ := failed
    exact ⟨cause, by rw [takeIn, failed]⟩
  cases valid : b.valid with
  | false => exact ⟨.blockAbsorbed, by simp [merge, ensureValid, valid, bind, Except.bind]⟩
  | true =>
      cases left_valid : left.valid with
      | false =>
          exact ⟨.blockAbsorbed, by simp [merge, ensureValid, valid, left_valid, bind, Except.bind]⟩
      | true =>
          have overlap : b.overlaps left = true :=
            overlaps_iff.mpr (by simpa [Unmergeable, valid, left_valid] using unmergeable)
          exact ⟨.mergeNotLeft, by
            simp [merge, ensureValid, valid, left_valid, overlap, bind, Except.bind, throw,
              throwThe, MonadExceptOf.throw]⟩

theorem WellFormed.apart_uncut (wf : b.WellFormed) (of_left : left.WellFormed)
    (apart : ∀ x ∈ left.run, ∀ y ∈ b.run, x.key < y.key) (l l' : Ledger) (force : Bool) :
    ∀ x ∈ (left.uncut l force).1.run, ∀ y ∈ (b.uncut l' force).1.run, x.key < y.key := by
  rw [wf.run_uncut, of_left.run_uncut]
  cases force with
  | false => exact apart
  | true =>
      exact fun x left_member y member => apart x ((Run.prunes_compact left.run).subset left_member)
        y ((Run.prunes_compact b.run).subset member)

/-- A merge works on what the compactions left, and it does not fail there. -/
theorem WellFormed.takeIn_uncut (wf : b.WellFormed) (of_left : left.WellFormed)
    (apart : ∀ x ∈ left.run, ∀ y ∈ b.run, x.key < y.key) (l : Ledger) (compactFirst force : Bool) :
    b.takeIn left l compactFirst force
      = (b.uncut (left.uncut l compactFirst).2 compactFirst).1.takeIn (left.uncut l compactFirst).1
          (b.uncut (left.uncut l compactFirst).2 compactFirst).2 false force := by
  have still := wf.uncut (left.uncut l compactFirst).2 compactFirst
  have left_still := of_left.uncut l compactFirst
  have still_apart := wf.apart_uncut of_left apart l (left.uncut l compactFirst).2 compactFirst
  have same : b.merge left l compactFirst force
      = (b.uncut (left.uncut l compactFirst).2 compactFirst).1.merge (left.uncut l compactFirst).1
          (b.uncut (left.uncut l compactFirst).2 compactFirst).2 false force := by
    rw [merge, merge, wf.ensureValid, of_left.ensureValid, still.ensureValid,
      left_still.ensureValid, not_overlaps apart, not_overlaps still_apart]
    cases compactFirst <;> rfl
  obtain ⟨m, merged⟩ : ∃ m, b.merge left l compactFirst force = .ok m := by
    rw [same, still.merge_eq left_still still_apart]
    split
    · exact ⟨_, rfl⟩
    · split <;> exact ⟨_, rfl⟩
  rw [takeIn, takeIn, ← same, merged]

/-- Blocks in their order are joined if they fit and nothing else forbids it. -/
theorem WellFormed.takeIn_eq (wf : b.WellFormed) (of_left : left.WellFormed)
    (apart : ∀ x ∈ left.run, ∀ y ∈ b.run, x.key < y.key) (l : Ledger) (force : Bool) :
    let grown := b.reserve l (left.used + b.used)
    b.takeIn left l false force =
      if left.used + b.used ≤ b.ladder.max ∧ (force = true ∨ b.shouldMerge left = true) then
        (.ok true, grown.1.joined left, left.absorbed,
          grown.1.report (grown.2.release left.lease) .addMerge)
      else (.ok false, b, left, l) := by
  intro grown
  have merged := wf.merge_eq of_left apart l force
  simp only at merged
  by_cases small : left.used + b.used ≤ b.ladder.max
  · have room : ¬grown.1.capacity < left.used + b.used :=
      Nat.not_lt.mpr (le_capacity_reserve b l small)
    rw [takeIn, merged, if_neg room]
    by_cases allowed : (force || b.shouldMerge left) = true
    · have accepted : ¬(b.ladder.max < left.used + b.used || !(force || b.shouldMerge left)) = true := by
        simp [allowed, Nat.not_lt.mpr small]
      rw [if_neg accepted, if_pos ⟨small, Bool.or_eq_true_iff.mp allowed⟩]
    · have refused : (b.ladder.max < left.used + b.used || !(force || b.shouldMerge left)) = true := by
        simp [allowed]
      rw [if_pos refused, if_neg fun both => allowed (Bool.or_eq_true_iff.mpr both.2)]
  · have refused : (b.ladder.max < left.used + b.used || !(force || b.shouldMerge left)) = true := by
      simp [Nat.not_le.mp small]
    rw [takeIn, merged, if_pos refused, if_neg fun both => small both.1]

theorem Grows.joined {grown : Block} (grows : b.Grows grown) (wf : b.WellFormed)
    (of_left : left.WellFormed) (apart : ∀ x ∈ left.run, ∀ y ∈ b.run, x.key < y.key)
    (room : left.used + b.used ≤ grown.capacity) : (grown.joined left).WellFormed :=
  (grows.wellFormed wf).joined of_left (grows.run.symm ▸ apart) (grows.used.symm ▸ room)

theorem WellFormed.takesIn (wf : b.WellFormed) (of_left : left.WellFormed)
    (apart : ∀ x ∈ left.run, ∀ y ∈ b.run, x.key < y.key) (small : b.capacity ≤ b.ladder.max)
    (together : left.used + b.used ≤ b.ladder.max) (l : Ledger) :
    b.TakesIn left ((b.reserve l (left.used + b.used)).1.joined left) left.absorbed := by
  have grows : b.Grows (b.reserve l (left.used + b.used)).1 := grows_reserve b l _
  have room : left.used + b.used ≤ (b.reserve l (left.used + b.used)).1.capacity :=
    le_capacity_reserve b l together
  have expands := expands_reserve b l (left.used + b.used)
  rw [decide_eq_true room] at expands
  have makesRoom := expands.makesRoom wf (Nat.add_comm left.used b.used)
  have capacity_le := grows.capacity_le small
  rw [grows.ladder] at capacity_le
  generalize (b.reserve l (left.used + b.used)).1 = grown at *
  have used := grows.used
  have grown_wf := grows.wellFormed wf
  have grown_room : left.used + grown.used ≤ grown.capacity := used.symm ▸ room
  have joined := grows.joined wf of_left apart room
  exact
    { wellFormed := joined
      run := by rw [run_joined, grows.run]
      used := congrArg (left.used + ·) used
      recordCount := by
        change grown.recordCount + left.recordCount = _
        rw [grows.same, Nat.add_comm]
      deletedCount := by
        change grown.deletedCount + left.deletedCount = _
        rw [grows.same, Nat.add_comm]
      room := grown_room
      capacity_le := capacity_le
      page := ⟨grown.page, makesRoom, page_joined grown_wf of_left grown_room⟩
      tuning := grows.tuning
      stamp := by
        change grown.stamp + 1 = _
        rw [grows.same]
      spent := spent_absorbed left
      released := rfl
      stamp_rest := rfl }

theorem Spent.uncut (spent : b.Spent) (l : Ledger) (force : Bool) : b.uncut l force = (b, l) := by
  cases force with
  | false => rfl
  | true => simp [Block.uncut, compact, spent.deletedCount]

theorem Coherent.run_uncut (coherent : b.Coherent) (l : Ledger) (force : Bool) :
    (b.uncut l force).1.run = if force then Run.compact b.run else b.run := by
  cases coherent with
  | holding wf => exact wf.run_uncut l force
  | spent spent =>
      rw [spent.uncut, spent.run]
      cases force <;> rfl

theorem Coherent.live_uncut (coherent : b.Coherent) (l : Ledger) (force : Bool) :
    Run.live (b.uncut l force).1.run = Run.live b.run := by
  rw [coherent.run_uncut]
  cases force with
  | false => rfl
  | true => exact (Run.prunes_compact b.run).live

theorem capacity_uncut (b : Block) (l : Ledger) (force : Bool) :
    (b.uncut l force).1.capacity = b.capacity := by
  cases force with
  | false => rfl
  | true => exact capacity_compact l true

theorem WellFormed.not_unmergeable_iff (wf : b.WellFormed) (of_left : left.WellFormed) :
    ¬b.Unmergeable left ↔ ∀ x ∈ left.run, ∀ y ∈ b.run, x.key < y.key := by
  simp only [Unmergeable, wf.valid, of_left.valid, Bool.true_eq_false, false_or, not_exists, not_and,
    Classical.not_not]
  constructor
  · exact wf.apart_of_ends of_left
  · exact fun apart last at_end first at_start =>
      apart last (List.mem_of_getLast? at_end) first (List.mem_of_mem_head? at_start)

/-- Two blocks that can be merged hold data, and what the compactions leave of them is joined if it
fits and nothing else forbids it. -/
theorem Coherent.takeIn_of_mergeable (coherent : b.Coherent) (of_left : left.Coherent)
    (mergeable : ¬b.Unmergeable left) (l : Ledger) (compactFirst force : Bool) :
    let rest := left.uncut l compactFirst
    let ready := b.uncut rest.2 compactFirst
    let grown := ready.1.reserve ready.2 (rest.1.used + ready.1.used)
    b.WellFormed ∧ left.WellFormed ∧ (∀ x ∈ rest.1.run, ∀ y ∈ ready.1.run, x.key < y.key)
      ∧ b.takeIn left l compactFirst force =
        if rest.1.used + ready.1.used ≤ b.ladder.max
            ∧ (force = true ∨ ready.1.shouldMerge rest.1 = true) then
          (.ok true, grown.1.joined rest.1, rest.1.absorbed,
            grown.1.report (grown.2.release rest.1.lease) .addMerge)
        else (.ok false, ready.1, rest.1, ready.2) := by
  intro rest ready grown
  obtain ⟨wf, left_wf⟩ : b.WellFormed ∧ left.WellFormed := by
    cases coherent with
    | spent spent => exact absurd (.inl spent.invalid) mergeable
    | holding wf =>
        cases of_left with
        | spent spent => exact absurd (.inr (.inl spent.invalid)) mergeable
        | holding left_wf => exact ⟨wf, left_wf⟩
  have apart := (wf.not_unmergeable_iff left_wf).mp mergeable
  have still_apart := wf.apart_uncut left_wf apart l rest.2 compactFirst
  have ended := (wf.uncut rest.2 compactFirst).takeIn_eq (left_wf.uncut l compactFirst) still_apart
    ready.2 force
  rw [ladder_uncut] at ended
  exact ⟨wf, left_wf, still_apart, (wf.takeIn_uncut left_wf apart l compactFirst force).trans ended⟩

/-- A merge of two blocks fails only if one was absorbed before or they are not in their order, and
then leaves both alone. Otherwise it joins the two, compacted or not, if they fit and the ratio or
force allows it. -/
theorem Coherent.merge_settles (coherent : b.Coherent) (of_left : left.Coherent)
    (small : b.capacity ≤ b.ladder.max) (l : Ledger) (compactFirst force : Bool) :
    ∃ answer m rest l', b.takeIn left l compactFirst force = (answer, m, rest, l')
      ∧ MergeSettles b left (b.uncut (left.uncut l compactFirst).2 compactFirst).1
          (left.uncut l compactFirst).1 l compactFirst force answer m rest l' := by
  have run := coherent.run_uncut (left.uncut l compactFirst).2 compactFirst
  have run_left := of_left.run_uncut l compactFirst
  by_cases unmergeable : b.Unmergeable left
  · obtain ⟨cause, failed⟩ := takeIn_of_unmergeable unmergeable l compactFirst force
    exact ⟨_, _, _, _, failed,
      { run := run
        run_left := run_left
        error_iff := iff_of_true ⟨cause, rfl⟩ unmergeable
        error := fun _ _ => ⟨rfl, rfl, rfl⟩
        refused := nofun
        kept := nofun
        untouched := nofun
        merged_iff := iff_of_false nofun fun both => both.1 unmergeable
        merged := nofun
        coherent := ⟨coherent, of_left⟩ }⟩
  · obtain ⟨wf, left_wf, still_apart, ended⟩ :=
      coherent.takeIn_of_mergeable of_left unmergeable l compactFirst force
    have still := wf.uncut (left.uncut l compactFirst).2 compactFirst
    have left_still := left_wf.uncut l compactFirst
    have live := coherent.live_uncut (left.uncut l compactFirst).2 compactFirst
    have left_live := of_left.live_uncut l compactFirst
    have ladder := ladder_uncut b (left.uncut l compactFirst).2 compactFirst
    have capacity := capacity_uncut b (left.uncut l compactFirst).2 compactFirst
    have same : compactFirst = false → (b.uncut (left.uncut l compactFirst).2 compactFirst).1 = b
        ∧ (left.uncut l compactFirst).1 = left
        ∧ (b.uncut (left.uncut l compactFirst).2 compactFirst).2 = l := by
      rintro rfl
      exact ⟨rfl, rfl, rfl⟩
    -- the rest is about the blocks that the compactions left, however they came about
    generalize b.uncut (left.uncut l compactFirst).2 compactFirst = ready at *
    generalize (left.uncut l compactFirst).1 = left_ready at *
    by_cases joins : left_ready.used + ready.1.used ≤ b.ladder.max
        ∧ (force = true ∨ ready.1.shouldMerge left_ready = true)
    · rw [if_pos joins] at ended
      have takesIn := still.takesIn left_still still_apart (capacity.symm ▸ ladder.symm ▸ small)
        (ladder.symm ▸ joins.1) ready.2
      exact ⟨_, _, _, _, ended,
        { run := run
          run_left := run_left
          error_iff := iff_of_false nofun unmergeable
          error := nofun
          refused := nofun
          kept := nofun
          untouched := nofun
          merged_iff := iff_of_true rfl ⟨unmergeable, joins⟩
          merged := fun _ => takesIn
          coherent := ⟨.holding takesIn.wellFormed, .spent takesIn.spent⟩ }⟩
    · rw [if_neg joins] at ended
      exact ⟨_, _, _, _, ended,
        { run := run
          run_left := run_left
          error_iff := iff_of_false nofun unmergeable
          error := nofun
          refused := fun _ => ⟨rfl, rfl⟩
          kept := fun _ => ⟨live, left_live⟩
          untouched := fun _ uncompacted => same uncompacted
          merged_iff := iff_of_false nofun fun both => joins both.2
          merged := nofun
          coherent := ⟨.holding still, .holding left_still⟩ }⟩

end

/-- A block with a tombstone behind its first record. -/
def upperNeighbour : Block :=
  { scratch 32 ⟨⟨64⟩, 0.25, 0.5⟩ with
    records := #[⟨[4], List.replicate 7 0, false⟩, ⟨[5], [], true⟩, ⟨[6], [1], false⟩]
    used := 23
    recordCount := 3
    deletedCount := 1 }

/-- A block whose records lie below those of the other, with a tombstone at either end. -/
def lowerNeighbour : Block :=
  { scratch 32 ⟨⟨64⟩, 0.25, 0.5⟩ with
    records := #[⟨[1], List.replicate 7 0, true⟩, ⟨[2], [1], false⟩, ⟨[3], [], true⟩]
    used := 23
    recordCount := 3
    deletedCount := 2 }

theorem merge_settles_neighbours : ∃ m rest l',
    upperNeighbour.takeIn lowerNeighbour (.create false) true true = (.ok true, m, rest, l')
      ∧ m.run = [⟨[1], List.replicate 7 0, true⟩, ⟨[2], [1], false⟩,
        ⟨[4], List.replicate 7 0, false⟩, ⟨[6], [1], false⟩]
      ∧ m.used ≤ m.capacity ∧ rest.capacity = 0 := by
  have upper : upperNeighbour.Coherent := .holding (by decide)
  have lower : lowerNeighbour.Coherent := .holding (by decide)
  obtain ⟨answer, m, rest, l', ended, settles⟩ :=
    Coherent.merge_settles upper lower (by decide) (.create false) true true
  have mergeable : ¬upperNeighbour.Unmergeable lowerNeighbour := by
    unfold Unmergeable
    decide
  have merged := settles.merged_iff.mpr ⟨mergeable, by decide, .inl rfl⟩
  have takesIn := settles.merged merged
  exact ⟨m, rest, l', merged ▸ ended, takesIn.run, takesIn.room, takesIn.released⟩

end OrderedStore.Block
