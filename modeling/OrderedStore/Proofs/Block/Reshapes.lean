import OrderedStore.Block.Reshape
import OrderedStore.Proofs.Block.Growth

/-! # Splitting and absorbing blocks

A split cuts the run of a block in two parts with something in either, and a merge joins the runs of
two blocks again. Both keep the ledger balanced: the region of the new block is counted, that of an
absorbed one is given back.
-/

namespace OrderedStore

theorem Ladder.exists_holding? {l : Ladder} {bytes : Nat} (small : bytes ≤ l.max) :
    ∃ c, l.holding? bytes = some c ∧ bytes ≤ c ∧ c ∈ l.classes := by
  cases found : l.holding? bytes with
  | none =>
      have large := List.find?_eq_none.mp found l.max l.max_mem_classes
      simp [small] at large
  | some c => exact ⟨c, rfl, l.le_of_holding? found, List.mem_of_find?_eq_some found⟩

theorem Ladder.pairwise_classes (l : Ladder) : l.classes.Pairwise (· ≤ ·) := by
  refine List.pairwise_map.mpr (List.Pairwise.imp ?_ (by decide : sixteenths.Pairwise (· ≤ ·)))
  exact fun smaller => Nat.div_le_div_right (Nat.mul_le_mul_left l.max smaller)

theorem Ladder.holding?_le {l : Ladder} {bytes c size : Nat} (held : l.holding? bytes = some c)
    (sized : size ∈ l.classes) (room : bytes ≤ size) : c ≤ size := by
  obtain ⟨_, low, high, eq, before⟩ := List.find?_eq_some_iff_append.mp held
  rw [eq] at sized
  have ordered := l.pairwise_classes
  rw [eq] at ordered
  cases List.mem_append.mp sized with
  | inl earlier => simpa [room] using before size earlier
  | inr member =>
      cases List.mem_cons.mp member with
      | inl here => exact Nat.le_of_eq here.symm
      | inr later => exact (List.pairwise_cons.mp (List.pairwise_append.mp ordered).2.1).1 size later

namespace Block

theorem length_ends (offset : Nat) (run : Run) : (ends offset run).length = run.length := by
  induction run generalizing offset with
  | nil => rfl
  | cons r run ih => simp [ends, ih]

theorem splitCount_bounds {run : Run} (many : 2 ≤ run.length) (used : Nat) :
    0 < splitCount run used ∧ splitCount run used < run.length := by
  simp only [splitCount, length_ends]
  omega

section

variable {b left : Block} {l : Ledger} {tuning : Tuning} {n : Nat} {rest : List Block}

/-- The new block with the first `count` records. -/
abbrev lowerPart (b : Block) (lease : Lease) (count : Nat) : Block :=
  { create lease b.tuning b.counted with
    records := (b.run.take count).toArray
    used := Run.size (b.run.take count)
    recordCount := count
    deletedCount := Run.tombstones (b.run.take count)
    stamp := 1 }

/-- The block without its first `count` records. -/
abbrev upperPart (b : Block) (count : Nat) : Block :=
  { b with
    records := b.records.extract count
    used := b.used - Run.size (b.run.take count)
    recordCount := b.recordCount - count
    deletedCount := b.deletedCount - Run.tombstones (b.run.take count)
    stamp := b.stamp + 1 }

theorem run_upperPart (b : Block) (count : Nat) : (b.upperPart count).run = b.run.drop count := by
  simp only [run, Array.toList_extract, List.extract_eq_take_drop]
  rw [List.take_of_length_le (by simp)]

theorem run_lowerPart_ne (lease : Lease) {count : Nat} (some_lower : 0 < count)
    (some_upper : count < b.run.length) : (b.lowerPart lease count).run ≠ [] := by
  refine List.ne_nil_of_length_pos ?_
  change 0 < (b.run.take count).length
  rw [List.length_take_of_le (Nat.le_of_lt some_upper)]
  exact some_lower

theorem run_upperPart_ne {count : Nat} (some_upper : count < b.run.length) :
    (b.upperPart count).run ≠ [] := by
  rw [run_upperPart]
  exact List.ne_nil_of_length_pos (by rw [List.length_drop]; exact Nat.sub_pos_of_lt some_upper)

theorem WellFormed.size_take_le (wf : b.WellFormed) (count : Nat) :
    Run.size (b.run.take count) ≤ b.used := by
  rw [wf.used]
  exact total_le_of_sublist Record.size (List.take_sublist count b.run)

theorem WellFormed.lowerPart (wf : b.WellFormed) {lease : Lease} {count : Nat}
    (inside : count ≤ b.run.length) (room : Run.size (b.run.take count) ≤ lease.size) :
    (b.lowerPart lease count).WellFormed where
  valid := rfl
  used := rfl
  recordCount := (List.length_take_of_le inside).symm
  deletedCount := rfl
  ascending := List.Pairwise.sublist (List.take_sublist count b.run) wf.ascending
  describable r member := wf.describable r (List.mem_of_mem_take member)
  room := room

theorem WellFormed.upperPart (wf : b.WellFormed) (count : Nat) : (b.upperPart count).WellFormed := by
  have whole := List.take_append_drop count b.run
  have sizes := congrArg Run.size whole
  have tombs := congrArg Run.tombstones whole
  rw [Run.size_append] at sizes
  rw [Run.tombstones_append] at tombs
  refine ⟨wf.valid, ?_, ?_, ?_, ?_, ?_, Nat.le_trans (Nat.sub_le _ _) wf.room⟩
  · rw [run_upperPart]
    simp only [wf.used]
    omega
  · rw [run_upperPart, List.length_drop]
    simp only [wf.recordCount]
  · rw [run_upperPart]
    simp only [wf.deletedCount]
    omega
  · rw [run_upperPart]
    exact List.Pairwise.sublist (List.drop_sublist count b.run) wf.ascending
  · rw [run_upperPart]
    exact fun r member => wf.describable r (List.mem_of_mem_drop member)

theorem Enrolled.lowerPart (enrolled : b.Enrolled tuning) {lease : Lease} {count : Nat}
    (inside : count ≤ b.run.length) (accounted : lease.accounted = true)
    (room : Run.size (b.run.take count) ≤ lease.size) (sized : lease.size ∈ b.ladder.classes) :
    (b.lowerPart lease count).Enrolled tuning where
  sound := ⟨enrolled.sound.toWellFormed.lowerPart inside room, sized⟩
  tuning := enrolled.tuning
  counted := enrolled.counted
  accounted := accounted

theorem Enrolled.upperPart (enrolled : b.Enrolled tuning) (count : Nat) :
    (b.upperPart count).Enrolled tuning where
  sound := ⟨enrolled.sound.toWellFormed.upperPart count, enrolled.sound.capacity⟩
  tuning := enrolled.tuning
  counted := enrolled.counted
  accounted := enrolled.accounted

theorem balanced_parts (enrolled : b.Enrolled tuning) {count size : Nat}
    (lower : (b.lowerPart (l.arena.allocate size).1 count).Sound)
    (balanced : l.Balanced n (b :: rest)) :
    ({ l with arena := (l.arena.allocate size).2 } : Ledger).Balanced n
      (b.lowerPart (l.arena.allocate size).1 count :: b.upperPart count :: rest) := by
  have upper := (enrolled.upperPart count).sound
  have whole := List.take_append_drop count b.run
  have sizes := congrArg Run.size whole
  have lives := congrArg (fun run => (Run.live run).length) whole
  have allocated := balanced.allocated
  have bytes := balanced.dataBytes
  have liveRecords := balanced.liveRecords
  rw [total_cons, capacity] at allocated
  rw [total_cons, enrolled.sound.used, ← sizes, Run.size_append] at bytes
  rw [total_cons, enrolled.sound.liveCount, ← lives, Run.live_append, List.length_append]
    at liveRecords
  refine ⟨?_, ?_, ?_, balanced.published⟩
  · simp only [total_cons, capacity, create, Arena.allocate]
    omega
  · rw [total_cons, total_cons, upper.used, run_upperPart]
    simp only [bytes]
    omega
  · rw [total_cons, total_cons, lower.liveCount, upper.liveCount, run_upperPart]
    simp only [liveRecords, run]
    omega

theorem WellFormed.split_of_few (wf : b.WellFormed) (few : b.run.length < 2) (l : Ledger) :
    b.split l false = ⟨.ok none, b, l⟩ := by
  simp [split, wf.valid, wf.recordCount, few]

theorem WellFormed.split_of_held (wf : b.WellFormed) (many : 2 ≤ b.run.length) (l : Ledger)
    {size : Nat}
    (held : b.ladder.holding? (Run.size (b.run.take (splitCount b.run b.used))) = some size) :
    b.split l false
      = ⟨.ok (some (b.lowerPart (l.arena.sibling b.lease size).1 (splitCount b.run b.used))),
          b.upperPart (splitCount b.run b.used),
          b.report { l with arena := (l.arena.sibling b.lease size).2 } .addSplit⟩ := by
  have not_few : ¬b.recordCount < 2 := by rw [wf.recordCount]; exact Nat.not_lt.mpr many
  have valid : (!b.valid) = false := by rw [wf.valid]; rfl
  simp only [split, valid, not_few, held, Bool.false_eq_true, if_false]

theorem WellFormed.split_of_not_held (wf : b.WellFormed) (many : 2 ≤ b.run.length) (l : Ledger)
    (held : b.ladder.holding? (Run.size (b.run.take (splitCount b.run b.used))) = none) :
    b.split l false = ⟨.error (.corruption .lowerHalfTooLarge), b, l⟩ := by
  have not_few : ¬b.recordCount < 2 := by rw [wf.recordCount]; exact Nat.not_lt.mpr many
  have valid : (!b.valid) = false := by rw [wf.valid]; rfl
  simp only [split, valid, not_few, held, Bool.false_eq_true, if_false]

theorem split_cases (enrolled : b.Enrolled tuning) (balanced : l.Balanced n (b :: rest)) :
    b.run.length < 2 ∧ b.split l false = ⟨.ok none, b, l⟩
      ∨ ∃ lower upper l', b.split l false = ⟨.ok (some lower), upper, l'⟩
        ∧ lower.Enrolled tuning ∧ upper.Enrolled tuning ∧ l'.Balanced n (lower :: upper :: rest)
        ∧ lower.run ≠ [] ∧ upper.run ≠ [] ∧ b.run = lower.run ++ upper.run := by
  have sound := enrolled.sound
  by_cases few : b.run.length < 2
  · exact .inl ⟨few, sound.split_of_few few l⟩
  · obtain ⟨some_lower, some_upper⟩ := splitCount_bounds (Nat.not_lt.mp few) b.used
    obtain ⟨size, held, room, sized⟩ :=
      Ladder.exists_holding? (Nat.le_trans (sound.size_take_le _) sound.used_le)
    have opened := sound.split_of_held (Nat.not_lt.mp few) l held
    have sibling : l.arena.sibling b.lease size = l.arena.allocate size :=
      if_pos enrolled.accounted
    rw [sibling] at opened
    generalize splitCount b.run b.used = count at opened some_lower some_upper room
    have lower : (b.lowerPart (l.arena.allocate size).1 count).Enrolled tuning :=
      enrolled.lowerPart (Nat.le_of_lt some_upper) rfl room sized
    refine .inr ⟨_, _, _, opened, lower, enrolled.upperPart count, ?_, ?_, ?_, ?_⟩
    · exact (balanced_parts enrolled lower.sound balanced).report fun c => ⟨rfl, rfl, rfl⟩
    · exact run_lowerPart_ne (l.arena.allocate size).1 some_lower some_upper
    · exact run_upperPart_ne some_upper
    · rw [run_upperPart]
      exact (List.take_append_drop count b.run).symm

/-- What absorbing `left` makes of a block with room for both. -/
abbrev joined (b left : Block) : Block :=
  { b with
    records := left.records ++ b.records
    used := left.used + b.used
    recordCount := b.recordCount + left.recordCount
    deletedCount := b.deletedCount + left.deletedCount
    stamp := b.stamp + 1 }

theorem run_joined (b left : Block) : (b.joined left).run = left.run ++ b.run :=
  Array.toList_append

theorem WellFormed.joined (wf : b.WellFormed) (of_left : left.WellFormed)
    (apart : ∀ x ∈ left.run, ∀ y ∈ b.run, x.key < y.key)
    (room : left.used + b.used ≤ b.capacity) : (b.joined left).WellFormed := by
  refine ⟨wf.valid, ?_, ?_, ?_, ?_, ?_, room⟩
  · rw [run_joined, Run.size_append, ← wf.used, ← of_left.used]
  · rw [run_joined, List.length_append, ← wf.recordCount, ← of_left.recordCount]
    exact Nat.add_comm _ _
  · rw [run_joined, Run.tombstones_append, ← wf.deletedCount, ← of_left.deletedCount]
    exact Nat.add_comm _ _
  · rw [run_joined]
    exact List.pairwise_append.mpr ⟨of_left.ascending, wf.ascending, apart⟩
  · rw [run_joined]
    intro r member
    rcases List.mem_append.mp member with member | member
    · exact of_left.describable r member
    · exact wf.describable r member

theorem Enrolled.joined (enrolled : b.Enrolled tuning) (of_left : left.Enrolled tuning)
    (apart : ∀ x ∈ left.run, ∀ y ∈ b.run, x.key < y.key)
    (room : left.used + b.used ≤ b.capacity) : (b.joined left).Enrolled tuning where
  sound :=
    { toWellFormed :=
        enrolled.sound.toWellFormed.joined of_left.sound.toWellFormed apart room
      capacity := enrolled.sound.capacity }
  tuning := enrolled.tuning
  counted := enrolled.counted
  accounted := enrolled.accounted

theorem not_overlaps (apart : ∀ x ∈ left.run, ∀ y ∈ b.run, x.key < y.key) :
    b.overlaps left = false := by
  rw [overlaps, firstKey?_eq, lastKey?_eq]
  cases last : left.run.getLast? with
  | none => rfl
  | some x =>
      cases first : b.run.head? with
      | none => rfl
      | some y =>
          have less := apart x (List.mem_of_getLast? last) y (List.mem_of_mem_head? first)
          simpa using less

theorem balanced_joined {grown : Block} (enrolled : grown.Enrolled tuning)
    (of_left : left.Enrolled tuning) (joined : (grown.joined left).Sound)
    (balanced : l.Balanced n (grown :: left :: rest)) :
    (l.release left.lease).Balanced n (grown.joined left :: rest) := by
  have allocated := balanced.allocated
  have bytes := balanced.dataBytes
  have liveRecords := balanced.liveRecords
  simp only [total_cons, capacity] at allocated
  simp only [total_cons] at bytes
  rw [total_cons, total_cons, enrolled.sound.liveCount, of_left.sound.liveCount] at liveRecords
  refine ⟨?_, ?_, ?_, balanced.published⟩
  · simp only [total_cons, capacity, Ledger.release, Arena.release, of_left.accounted, if_true]
    omega
  · simp only [total_cons, Ledger.release, bytes]
    omega
  · rw [total_cons, joined.liveCount, run_joined, Run.live_append, List.length_append]
    simp only [Ledger.release, liveRecords]
    omega

/-- A merge without compactions grows the block to hold both runs, and joins them. -/
theorem WellFormed.merge_eq (wf : b.WellFormed) (of_left : left.WellFormed)
    (apart : ∀ x ∈ left.run, ∀ y ∈ b.run, x.key < y.key) (l : Ledger) (force : Bool) :
    let grown := b.reserve l (left.used + b.used)
    b.merge left l false force =
      if b.ladder.max < left.used + b.used || !(force || b.shouldMerge left) then
        .ok ⟨false, b, left, l⟩
      else if grown.1.capacity < left.used + b.used then .ok ⟨false, grown.1, left, grown.2⟩
      else .ok ⟨true, grown.1.joined left, left.absorbed,
        grown.1.report (grown.2.release left.lease) .addMerge⟩ := by
  intro grown
  have used : grown.1.used = b.used := (grows_reserve b l _).used
  rw [Block.joined, used]
  simp only [merge, wf.ensureValid, of_left.ensureValid, not_overlaps apart, bind, Except.bind,
    Bool.false_eq_true, if_false]
  rfl

theorem merge_cases (enrolled : b.Enrolled tuning) (of_left : left.Enrolled tuning)
    (apart : ∀ x ∈ left.run, ∀ y ∈ b.run, x.key < y.key)
    (balanced : l.Balanced n (left :: b :: rest)) :
    b.merge left l false false = .ok ⟨false, b, left, l⟩
      ∨ ∃ m l', b.merge left l false false = .ok ⟨true, m, left.absorbed, l'⟩
        ∧ m.Enrolled tuning ∧ m.run = left.run ++ b.run ∧ l'.Balanced n (m :: rest) := by
  have opened := enrolled.sound.merge_eq of_left.sound.toWellFormed apart l false
  let grown := b.reserve l (left.used + b.used)
  rw [Bool.false_or] at opened
  by_cases refused : (b.ladder.max < left.used + b.used || !b.shouldMerge left) = true
  · exact .inl (opened.trans (if_pos refused))
  · have small : left.used + b.used ≤ b.ladder.max := by
      simp only [Bool.or_eq_true, decide_eq_true_eq, not_or] at refused
      exact Nat.not_lt.mp refused.1
    have grows : b.Grows grown.1 := grows_reserve b l _
    have room : left.used + b.used ≤ grown.1.capacity := le_capacity_reserve b l small
    have joined : (grown.1.joined left).Enrolled tuning :=
      (grows.enrolled enrolled).joined of_left (grows.run.symm ▸ apart) (grows.used.symm ▸ room)
    refine .inr ⟨grown.1.joined left, grown.1.report (grown.2.release left.lease) .addMerge, ?_,
      joined, ?_, ?_⟩
    · exact opened.trans ((if_neg refused).trans (if_neg (Nat.not_lt.mpr room)))
    · rw [run_joined, grows.run]
    · refine Ledger.Balanced.report ?_ fun c => ⟨rfl, rfl, rfl⟩
      exact balanced_joined (grows.enrolled enrolled) of_left joined.sound
        (balanced_reserve _ enrolled.accounted (balanced.perm (List.Perm.swap b left rest)))

end

end Block

end OrderedStore
