import OrderedStore.Latch
import OrderedStore.Proofs.Block.Compacted
import OrderedStore.Proofs.Block.Merges

/-! # What change stamps tell

A block advances its stamp in a few places only: where a compaction removes something, in both parts
of a split, and in both blocks of a merge. These places are reached from many calls, and not by every
call of a kind. Here it is said of each act on a block whether it disturbs the block, in terms of the
block before the act, and shown that the stamp moves exactly then. A stamp that is still the same
vouches for every key that the block held when the stamp was seen.
-/

namespace OrderedStore

/-- The stamp as the word in which it is counted, modulo 2^64. -/
def Block.word (b : Block) : UInt64 := .ofNat b.stamp

namespace Latch

/-- Reading with the word that was seen instead of the stamp. -/
def readWord (l : Latch) (seen : UInt64) : Answer :=
  if l.writing then .taken
  else if l.block.word ≠ seen then .changed
  else .granted { l with readers := l.readers + 1 }

def writeWord (l : Latch) (seen : UInt64) : Answer :=
  if l.writing || 0 < l.readers then .taken
  else if l.block.word ≠ seen then .changed
  else .granted { l with writing := true }

end Latch

namespace Block

/-- The keys of all records, tombstones among them. -/
def keys (b : Block) : List Bytes := b.run.map (·.key)

/-- What can happen to a block. -/
inductive Act where
  | call (call : Call)
  | split (force : Bool)
  /-- The block takes in its left neighbour. -/
  | takeIn (left : Block) (compactFirst force : Bool)
  /-- The right neighbour takes in the block. -/
  | giveIn (right : Block) (compactFirst force : Bool)

/-- An act with the ledger that it finds, which acts on other blocks may have changed. -/
structure Move where
  ledger : Ledger
  act : Act

/-- The neighbour is well formed, or was absorbed before. -/
def Act.Orderly : Act → Prop
  | .takeIn left _ _ => left.Coherent
  | .giveIn right _ _ => right.Coherent
  | _ => True

/-- What an act makes of the block. -/
def act (b : Block) (l : Ledger) : Act → Block
  | .call call => (b.answer l call).2.1
  | .split force => (b.split l force).block
  | .takeIn left compactFirst force => (b.takeIn left l compactFirst force).2.1
  | .giveIn right compactFirst force => (right.takeIn b l compactFirst force).2.2.1

/-- What moves in their order make of the block. -/
def after (b : Block) : List Move → Block
  | [] => b
  | move :: moves => (b.act move.ledger move.act).after moves

/-- An act removes records from the block, or makes one block of two. -/
inductive Disturbs (b : Block) (l : Ledger) : Act → Prop where
  | compaction {force : Bool} : b.valid = true → force = true ∨ b.wantsCompaction = true →
      Run.removable b.run ≠ [] → Disturbs b l (.call (.compact force))
  /-- A put that finds too little room compacts the block. -/
  | put {key value : Bytes} {size : Nat} : b.valid = true →
      Record.check key value b.ladder.max = .ok size →
      b.capacity < b.need (Record.live key value) →
      Run.removable b.run ≠ [] → Disturbs b l (.call (.put key value))
  /-- So does a split on demand, be there enough left to split or not. -/
  | compactedToSplit : b.valid = true → Run.removable b.run ≠ [] → Disturbs b l (.split true)
  | split {force : Bool} {lower : Block} : (b.split l force).lower = .ok (some lower) →
      Disturbs b l (.split force)
  /-- And so does a merge of blocks that can be merged, whether it takes place or not. -/
  | compactedToTakeIn {left : Block} {force : Bool} : ¬b.Unmergeable left →
      Run.removable b.run ≠ [] → Disturbs b l (.takeIn left true force)
  | takesIn {left : Block} {compactFirst force : Bool} :
      (b.takeIn left l compactFirst force).1 = .ok true →
      Disturbs b l (.takeIn left compactFirst force)
  | compactedToGiveIn {right : Block} {force : Bool} : ¬right.Unmergeable b →
      Run.removable b.run ≠ [] → Disturbs b l (.giveIn right true force)
  | absorbed {right : Block} {compactFirst force : Bool} :
      (right.takeIn b l compactFirst force).1 = .ok true →
      Disturbs b l (.giveIn right compactFirst force)

/-- One of the moves disturbs the block, as it is by then. -/
def Disturbed (b : Block) (moves : List Move) : Prop :=
  ∃ earlier move later, moves = earlier ++ move :: later
    ∧ (b.after earlier).Disturbs move.ledger move.act

/-- The blocks that come of new ones by acts, and by splitting. -/
inductive Arises : Block → Prop where
  | created (lease : Lease) (tuning : Tuning) (counted : Bool) :
      Arises (create lease tuning counted)
  | called {b : Block} (l : Ledger) (call : Call) : Arises b → Arises (b.answer l call).2.1
  | upper {b : Block} (l : Ledger) (force : Bool) : Arises b → Arises (b.split l force).block
  | lower {b lower : Block} {l : Ledger} {force : Bool} : Arises b →
      (b.split l force).lower = .ok (some lower) → Arises lower
  | taker {b left : Block} (l : Ledger) (compactFirst force : Bool) : Arises b → Arises left →
      Arises (b.takeIn left l compactFirst force).2.1
  | taken {b left : Block} (l : Ledger) (compactFirst force : Bool) : Arises b → Arises left →
      Arises (b.takeIn left l compactFirst force).2.2.1

/-- `c` is what became of the block. Its stamp is the same if nothing disturbed the block, and then
it is as valid as before and has all its keys. -/
structure Ages (b : Block) (disturbed : Prop) (c : Block) : Prop where
  coherent : c.Coherent
  le : b.stamp ≤ c.stamp
  lt_iff : b.stamp < c.stamp ↔ disturbed
  valid : ¬disturbed → c.valid = b.valid
  keys : ¬disturbed → ∀ key ∈ b.keys, key ∈ c.keys

/-- What the stamp of a block tells after any moves. -/
structure StampTells (b : Block) (moves : List Move) : Prop where
  coherent : (b.after moves).Coherent
  le : b.stamp ≤ (b.after moves).stamp
  lt_iff : ∀ earlier move later, moves = earlier ++ move :: later →
    ((b.after earlier).stamp < (b.after (earlier ++ [move])).stamp
      ↔ (b.after earlier).Disturbs move.ledger move.act)
  eq_iff : (b.after moves).stamp = b.stamp ↔ ¬b.Disturbed moves
  /-- Where the stamp is the same, nothing had left the block at any moment between, either. -/
  kept : (b.after moves).stamp = b.stamp → ∀ earlier later, moves = earlier ++ later →
    (b.after earlier).valid = b.valid ∧ ∀ key ∈ b.keys, key ∈ (b.after earlier).keys
  /-- The word does not decrease, either, until it wraps around. -/
  word_le : (b.after moves).stamp < UInt64.size → b.word ≤ (b.after moves).word
  /-- Words tell what stamps tell, up to that many changes. -/
  latched : (b.after moves).stamp < b.stamp + UInt64.size → ∀ latch : Latch,
    latch.block = b.after moves → latch.readWord b.word = latch.read b.stamp
      ∧ latch.writeWord b.word = latch.write b.stamp
  granted : (b.after moves).stamp < b.stamp + UInt64.size → ∀ latch latch' : Latch,
    latch.block = b.after moves →
    latch.readWord b.word = .granted latch' ∨ latch.writeWord b.word = .granted latch' →
    latch'.block = b.after moves ∧ latch'.block.valid = b.valid
      ∧ ∀ key ∈ b.keys, key ∈ latch'.block.keys

section

variable {b c d left right : Block} {l : Ledger} {p q : Prop}

namespace Ages

theorem still (calm : ¬p) (coherent : c.Coherent) (stamp : c.stamp = b.stamp)
    (valid : c.valid = b.valid) (keys : ∀ key ∈ b.keys, key ∈ c.keys) : b.Ages p c where
  coherent := coherent
  le := Nat.le_of_eq stamp.symm
  lt_iff := iff_of_false (stamp ▸ Nat.lt_irrefl _) calm
  valid _ := valid
  keys _ := keys

theorem refl (calm : ¬p) (coherent : b.Coherent) : b.Ages p b :=
  still calm coherent rfl rfl fun _ member => member

theorem moved (disturbed : p) (coherent : c.Coherent) (less : b.stamp < c.stamp) : b.Ages p c where
  coherent := coherent
  le := Nat.le_of_lt less
  lt_iff := iff_of_true less disturbed
  valid untouched := absurd disturbed untouched
  keys untouched := absurd disturbed untouched

theorem trans (h : b.Ages p c) (h' : c.Ages q d) : b.Ages (p ∨ q) d where
  coherent := h'.coherent
  le := Nat.le_trans h.le h'.le
  lt_iff := by
    have first := h.le
    have second := h'.le
    rw [← h.lt_iff, ← h'.lt_iff]
    omega
  valid untouched := by
    obtain ⟨not_first, not_second⟩ := not_or.mp untouched
    exact (h'.valid not_second).trans (h.valid not_first)
  keys untouched key member := by
    obtain ⟨not_first, not_second⟩ := not_or.mp untouched
    exact h'.keys not_second key (h.keys not_first key member)

theorem congr (h : b.Ages p c) (same : p ↔ q) : b.Ages q c := by
  obtain rfl : p = q := propext same
  exact h

theorem calmly (h : b.Ages p c) (h' : c.Ages False d) : b.Ages p d :=
  (h.trans h').congr (or_iff_left id)

end Ages

theorem Spent.grows (spent : b.Spent) (grows : b.Grows c) : c.Spent := by
  rw [grows.same]
  exact ⟨spent.invalid, spent.records, spent.used, spent.recordCount, spent.deletedCount⟩

theorem Grows.ages (grows : b.Grows c) (coherent : b.Coherent) : b.Ages False c := by
  have after : c.Coherent := by
    cases coherent with
    | holding wf => exact .holding (grows.wellFormed wf)
    | spent spent => exact .spent (spent.grows grows)
  refine .still id after ?_ ?_ fun key member => ?_
  · rw [grows.same]
  · rw [grows.same]
  · rw [keys, grows.run]
    exact member

theorem WellFormed.ages_compact (wf : b.WellFormed) (l : Ledger) (force : Bool) :
    b.Ages ((force = true ∨ b.wantsCompaction = true) ∧ Run.removable b.run ≠ [])
      (b.compact l force).2.1 := by
  have forced : b.Ages (Run.removable b.run ≠ []) (b.compact l true).2.1 := by
    by_cases littered : Run.removable b.run ≠ []
    · refine .moved littered (.holding (wf.compact l true)) ?_
      rw [compact_of_shrank ((wf.shrank_iff l).mpr littered)]
      exact Nat.lt_succ_self _
    · rw [compact_of_removable_nil (Classical.not_not.mp littered)]
      exact .refl littered (.holding wf)
  cases force with
  | true => exact forced.congr (by simp)
  | false =>
      rw [compact_unforced_eq]
      cases wants : b.wantsCompaction with
      | true => exact forced.congr (by simp)
      | false => exact .refl (by simp) (.holding wf)

theorem WellFormed.ages_uncut (wf : b.WellFormed) (l : Ledger) (force : Bool) :
    b.Ages (force = true ∧ Run.removable b.run ≠ []) (b.uncut l force).1 := by
  cases force with
  | false => exact .refl (by simp) (.holding wf)
  | true => exact (wf.ages_compact l true).congr (by simp)

theorem keys_of_inserted {new : Record} (run_eq : c.run = Ascending.inserted Record.key new b.run) :
    ∀ key ∈ b.keys, key ∈ c.keys := by
  intro key member
  obtain ⟨r, inside, rfl⟩ := List.mem_map.mp member
  obtain ⟨r', inside', same⟩ := Ascending.exists_mem_inserted new inside
  exact List.mem_map.mpr ⟨r', run_eq ▸ inside', same⟩

theorem WellFormed.ages_outcome (wf : b.WellFormed) {new : Record} (live : new.deleted = false)
    (describable : new.Describable) : b.Ages False (b.outcome l new).2.1 := by
  have coherent : (b.outcome l new).2.1.Coherent := .holding (wf.outcome live describable)
  cases result : (b.outcome l new).1 with
  | done =>
      rw [outcome_of_done result] at coherent ⊢
      exact .still id coherent rfl rfl (keys_of_inserted (wf.run_stored new))
  | needsSplit =>
      rw [outcome_of_full result]
      exact .refl id (.holding wf)

theorem WellFormed.ages_put (wf : b.WellFormed) (l : Ledger) (key value : Bytes) :
    b.Ages (b.Disturbs l (.call (.put key value))) (b.answer l (.put key value)).2.1 := by
  cases checked : Record.check key value b.ladder.max with
  | error cause =>
      have refused : b.put l key value = .error cause := by
        simp [put, wf.ensureValid, checked, bind, Except.bind]
      simp only [answer, refused]
      refine .refl (fun disturbs => ?_) (.holding wf)
      cases disturbs with
      | put _ checked' => cases checked.symm.trans checked'
  | ok size =>
      obtain ⟨describable, rfl, _⟩ := Record.describable_of_check checked
      have ended := wf.put_eq (l := l) checked
      by_cases room : b.need (Record.live key value) ≤ b.capacity
      · have outcome := wf.ages_outcome (l := l) rfl describable
        rw [Block.outcome, if_pos room] at outcome
        simp only [answer, ended, if_pos room]
        refine outcome.congr (iff_of_false id fun disturbs => ?_)
        cases disturbs with
        | put _ _ short => exact absurd room (Nat.not_le.mpr short)
      · simp only [answer, ended, if_neg room]
        have compacted := wf.ages_compact l true
        have grown := (grows_prepared b l (Record.live key value)).ages compacted.coherent
        have stored := (wf.prepared (l := l) (Record.live key value)).ages_outcome
          (l := (b.prepared l (Record.live key value)).2) rfl describable
        refine ((compacted.calmly grown).calmly stored).congr ⟨?_, fun disturbs => ?_⟩
        · rintro ⟨_, littered⟩
          exact .put wf.valid checked (Nat.not_le.mp room) littered
        · cases disturbs with
          | put _ _ _ littered => exact ⟨.inl rfl, littered⟩

theorem WellFormed.ages_delete (wf : b.WellFormed) (l : Ledger) (key : Bytes) :
    b.Ages False (b.answer l (.delete key)).2.1 := by
  have ended := wf.delete_eq (l := l) key
  cases live : b.liveAt? key with
  | none =>
      rw [live] at ended
      simp only [answer, ended]
      exact .refl id (.holding wf)
  | some r =>
      rw [live] at ended
      simp only [answer, ended]
      exact .still id (.holding (wf.marked live)) rfl rfl (keys_of_inserted (wf.run_marked r))

theorem Coherent.ages_expand (coherent : b.Coherent) (l : Ledger) :
    b.Ages False (b.answer l .expand).2.1 := by
  cases next : b.expand? l with
  | none =>
      simp only [answer, next]
      exact .refl id coherent
  | some grown =>
      have grows : b.Grows grown.1 := grows_of_expand? next
      simp only [answer, next]
      exact grows.ages coherent

/-- Nothing disturbs a block that was absorbed, and only growth changes it. -/
theorem Spent.ages_call (spent : b.Spent) (l : Ledger) (call : Call) :
    b.Ages (b.Disturbs l (.call call)) (b.answer l call).2.1 := by
  have calm : ¬b.Disturbs l (.call call) := fun disturbs => by
    cases disturbs with
    | compaction valid => exact absurd spent.invalid (by simp [valid])
    | put valid => exact absurd spent.invalid (by simp [valid])
  have refused : b.ensureValid = .error .blockAbsorbed := by simp [ensureValid, spent.invalid]
  cases call with
  | put key value =>
      simp only [answer, put, refused, bind, Except.bind]
      exact .refl calm (.spent spent)
  | delete key =>
      simp only [answer, delete, refused, bind, Except.bind]
      exact .refl calm (.spent spent)
  | compact force =>
      simp only [answer, compact, spent.deletedCount]
      exact .refl calm (.spent spent)
  | expand => exact (Coherent.ages_expand (.spent spent) l).congr (iff_of_false id calm)

theorem Coherent.ages_call (coherent : b.Coherent) (l : Ledger) (call : Call) :
    b.Ages (b.Disturbs l (.call call)) (b.answer l call).2.1 := by
  cases coherent with
  | spent spent => exact spent.ages_call l call
  | holding wf =>
      cases call with
      | put key value => exact wf.ages_put l key value
      | delete key => exact (wf.ages_delete l key).congr (iff_of_false id nofun)
      | compact force =>
          refine (wf.ages_compact l force).congr ⟨fun ⟨runs, littered⟩ => ?_, fun disturbs => ?_⟩
          · exact .compaction wf.valid runs littered
          · cases disturbs with
            | compaction _ runs littered => exact ⟨runs, littered⟩
      | expand => exact (Coherent.ages_expand (.holding wf) l).congr (iff_of_false id nofun)

theorem WellFormed.ages_cut (wf : b.WellFormed) (l : Ledger) :
    b.Ages (∃ lower, (b.split l false).lower = .ok (some lower)) (b.split l false).block := by
  by_cases few : b.run.length < 2
  · rw [wf.split_of_few few]
    exact .refl nofun (.holding wf)
  · have many := Nat.not_lt.mp few
    cases held : b.ladder.holding? (Run.size (b.run.take (splitCount b.run b.used))) with
    | none =>
        rw [wf.split_of_not_held many l held]
        exact .refl nofun (.holding wf)
    | some size =>
        rw [wf.split_of_held many l held]
        exact .moved ⟨_, rfl⟩ (.holding (wf.upperPart _)) (Nat.lt_succ_self b.stamp)

theorem Coherent.ages_split (coherent : b.Coherent) (l : Ledger) (force : Bool) :
    b.Ages (b.Disturbs l (.split force)) (b.split l force).block := by
  cases coherent with
  | spent spent =>
      have refused : b.split l force = ⟨.error (.misuse .blockAbsorbed), b, l⟩ := by
        simp [split, spent.invalid]
      rw [refused]
      refine .refl (fun disturbs => ?_) (.spent spent)
      cases disturbs with
      | compactedToSplit valid => exact absurd spent.invalid (by simp [valid])
      | split cut => cases (congrArg SplitResult.lower refused).symm.trans cut
  | holding wf =>
      have same := wf.split_uncut l force
      have compacted := wf.ages_uncut l force
      have cut := (wf.uncut l force).ages_cut (b.uncut l force).2
      rw [← same] at cut
      refine (compacted.trans cut).congr ⟨?_, fun disturbs => ?_⟩
      · rintro (⟨rfl, littered⟩ | ⟨lower, cut⟩)
        · exact .compactedToSplit wf.valid littered
        · exact .split cut
      · cases disturbs with
        | compactedToSplit _ littered => exact .inl ⟨rfl, littered⟩
        | split cut => exact .inr ⟨_, cut⟩

theorem Coherent.ages_takeIn (coherent : b.Coherent) (of_left : left.Coherent) (l : Ledger)
    (compactFirst force : Bool) :
    b.Ages (b.Disturbs l (.takeIn left compactFirst force))
      (b.takeIn left l compactFirst force).2.1 := by
  by_cases unmergeable : b.Unmergeable left
  · obtain ⟨cause, failed⟩ := takeIn_of_unmergeable unmergeable l compactFirst force
    have calm : ¬b.Disturbs l (.takeIn left compactFirst force) := fun disturbs => by
      cases disturbs with
      | compactedToTakeIn mergeable => exact mergeable unmergeable
      | takesIn merged => cases (congrArg Prod.fst failed).symm.trans merged
    rw [failed]
    exact .refl calm coherent
  · obtain ⟨wf, left_wf, apart, ended⟩ :=
      coherent.takeIn_of_mergeable of_left unmergeable l compactFirst force
    have compacted := wf.ages_uncut (left.uncut l compactFirst).2 compactFirst
    have still := wf.uncut (left.uncut l compactFirst).2 compactFirst
    have left_still := left_wf.uncut l compactFirst
    have ladder := ladder_uncut b (left.uncut l compactFirst).2 compactFirst
    generalize b.uncut (left.uncut l compactFirst).2 compactFirst = ready at *
    generalize (left.uncut l compactFirst).1 = rest at *
    split at ended
    next joins =>
      have disturbs : b.Disturbs l (.takeIn left compactFirst force) :=
        .takesIn (congrArg Prod.fst ended)
      have grows := grows_reserve ready.1 ready.2 (rest.used + ready.1.used)
      have room := le_capacity_reserve ready.1 ready.2 (ladder.symm ▸ joins.1)
      have grown := compacted.calmly (grows.ages (.holding still))
      have joined := grows.joined still left_still apart room
      rw [ended]
      exact .moved disturbs (.holding joined) (Nat.lt_succ_of_le grown.le)
    next =>
      rw [ended]
      refine compacted.congr ⟨?_, fun disturbs => ?_⟩
      · rintro ⟨rfl, littered⟩
        exact .compactedToTakeIn unmergeable littered
      · cases disturbs with
        | compactedToTakeIn _ littered => exact ⟨rfl, littered⟩
        | takesIn merged => cases (congrArg Prod.fst ended).symm.trans merged

theorem Coherent.ages_giveIn (coherent : b.Coherent) (of_right : right.Coherent) (l : Ledger)
    (compactFirst force : Bool) :
    b.Ages (b.Disturbs l (.giveIn right compactFirst force))
      (right.takeIn b l compactFirst force).2.2.1 := by
  by_cases unmergeable : right.Unmergeable b
  · obtain ⟨cause, failed⟩ := takeIn_of_unmergeable unmergeable l compactFirst force
    have calm : ¬b.Disturbs l (.giveIn right compactFirst force) := fun disturbs => by
      cases disturbs with
      | compactedToGiveIn mergeable => exact mergeable unmergeable
      | absorbed merged => cases (congrArg Prod.fst failed).symm.trans merged
    rw [failed]
    exact .refl calm coherent
  · obtain ⟨_, wf, _, ended⟩ :=
      of_right.takeIn_of_mergeable coherent unmergeable l compactFirst force
    have compacted := wf.ages_uncut l compactFirst
    split at ended
    next =>
      have disturbs : b.Disturbs l (.giveIn right compactFirst force) :=
        .absorbed (congrArg Prod.fst ended)
      rw [ended]
      exact .moved disturbs (.spent (spent_absorbed _)) (Nat.lt_succ_of_le compacted.le)
    next =>
      rw [ended]
      refine compacted.congr ⟨?_, fun disturbs => ?_⟩
      · rintro ⟨rfl, littered⟩
        exact .compactedToGiveIn unmergeable littered
      · cases disturbs with
        | compactedToGiveIn _ littered => exact ⟨rfl, littered⟩
        | absorbed merged => cases (congrArg Prod.fst ended).symm.trans merged

/-- Every act leaves a block in good order, and advances its stamp exactly if it disturbs it. -/
theorem Coherent.ages_act (coherent : b.Coherent) (l : Ledger) {a : Act} (orderly : a.Orderly) :
    b.Ages (b.Disturbs l a) (b.act l a) := by
  cases a with
  | call call => exact coherent.ages_call l call
  | split force => exact coherent.ages_split l force
  | takeIn left compactFirst force => exact coherent.ages_takeIn orderly l compactFirst force
  | giveIn right compactFirst force => exact coherent.ages_giveIn orderly l compactFirst force

theorem after_append (b : Block) (earlier later : List Move) :
    b.after (earlier ++ later) = (b.after earlier).after later := by
  induction earlier generalizing b with
  | nil => rfl
  | cons move earlier ih => exact ih (b.act move.ledger move.act)

theorem disturbed_cons {move : Move} {moves : List Move} :
    b.Disturbed (move :: moves)
      ↔ b.Disturbs move.ledger move.act ∨ (b.act move.ledger move.act).Disturbed moves := by
  constructor
  · rintro ⟨earlier, move', later, eq, disturbs⟩
    cases earlier with
    | nil =>
        cases eq
        exact .inl disturbs
    | cons first earlier =>
        cases eq
        exact .inr ⟨earlier, move', later, rfl, disturbs⟩
  · rintro (disturbs | ⟨earlier, move', later, rfl, disturbs⟩)
    · exact ⟨[], move, moves, rfl, disturbs⟩
    · exact ⟨move :: earlier, move', later, rfl, disturbs⟩

theorem Coherent.ages_after (coherent : b.Coherent) {moves : List Move}
    (orderly : ∀ move ∈ moves, move.act.Orderly) : b.Ages (b.Disturbed moves) (b.after moves) := by
  -- each step starts from a coherent block again, because the one before left one
  induction moves generalizing b with
  | nil =>
      refine .refl ?_ coherent
      rintro ⟨earlier, move, later, eq, _⟩
      cases earlier <;> cases eq
  | cons move moves ih =>
      obtain ⟨here, later⟩ := List.forall_mem_cons.mp orderly
      have step := coherent.ages_act move.ledger here
      exact (step.trans (ih step.coherent later)).congr disturbed_cons.symm

theorem WellFormed.lower (wf : b.WellFormed) {lower : Block}
    (cut : (b.split l false).lower = .ok (some lower)) : lower.WellFormed := by
  by_cases few : b.run.length < 2
  · rw [wf.split_of_few few] at cut
    cases cut
  · have many := Nat.not_lt.mp few
    obtain ⟨_, inside⟩ := splitCount_bounds many b.used
    cases held : b.ladder.holding? (Run.size (b.run.take (splitCount b.run b.used))) with
    | none =>
        rw [wf.split_of_not_held many l held] at cut
        cases cut
    | some size =>
        rw [wf.split_of_held many l held] at cut
        cases cut
        refine wf.lowerPart (Nat.le_of_lt inside) ?_
        have sized : (l.arena.sibling b.lease size).1.size = size := by
          rw [Arena.sibling]
          split <;> rfl
        exact sized.symm ▸ Ladder.le_of_holding? held

/-- The blocks there are, and with them the neighbours there are, are well formed or absorbed. -/
theorem Arises.coherent (arises : b.Arises) : b.Coherent := by
  induction arises with
  | created lease tuning counted => exact .holding (wellFormed_create lease tuning counted)
  | called l call _ ih => exact (ih.ages_call l call).coherent
  | upper l force _ ih => exact (ih.ages_split l force).coherent
  | @lower b lower l force _ cut ih =>
      cases ih with
      | spent spent => simp [split, spent.invalid] at cut
      | holding wf =>
          rw [wf.split_uncut] at cut
          exact .holding ((wf.uncut l force).lower cut)
  | taker l compactFirst force _ _ ih ih_left =>
      exact (ih.ages_takeIn ih_left l compactFirst force).coherent
  | taken l compactFirst force _ _ ih ih_left =>
      exact (ih_left.ages_giveIn ih l compactFirst force).coherent

/-- Fewer than 2^64 changes cannot bring the same word back. -/
theorem word_eq_iff (le : b.stamp ≤ c.stamp) (near : c.stamp < b.stamp + UInt64.size) :
    c.word = b.word ↔ c.stamp = b.stamp := by
  have size : UInt64.size = 18446744073709551616 := rfl
  rw [word, word, ← UInt64.toNat_inj, UInt64.toNat_ofNat', UInt64.toNat_ofNat']
  omega

theorem word_le_of_le (le : b.stamp ≤ c.stamp) (small : c.stamp < UInt64.size) : b.word ≤ c.word := by
  rw [word, word, UInt64.le_iff_toNat_le, UInt64.toNat_ofNat_of_lt' (Nat.lt_of_le_of_lt le small),
    UInt64.toNat_ofNat_of_lt' small]
  exact le

theorem latched_word (le : b.stamp ≤ c.stamp) (near : c.stamp < b.stamp + UInt64.size) (latch : Latch)
    (holds : latch.block = c) :
    latch.readWord b.word = latch.read b.stamp ∧ latch.writeWord b.word = latch.write b.stamp := by
  have same : latch.block.word ≠ b.word ↔ latch.stamp ≠ b.stamp := by
    rw [Latch.stamp, holds]
    exact not_congr (word_eq_iff le near)
  simp only [Latch.readWord, Latch.read, Latch.writeWord, Latch.write, same, and_self]

/-- The stamp of a block never decreases, and it advances exactly when something disturbs the block.
Who is granted a latch for a stamp that they saw finds every key that the block held then. -/
theorem Coherent.stamp_tells (coherent : b.Coherent) {moves : List Move}
    (orderly : ∀ move ∈ moves, move.act.Orderly) : b.StampTells moves := by
  have ages := coherent.ages_after orderly
  have le := ages.le
  have eq_iff : (b.after moves).stamp = b.stamp ↔ ¬b.Disturbed moves := by
    rw [← ages.lt_iff]
    omega
  refine
    { coherent := ages.coherent
      le := le
      lt_iff := ?_
      eq_iff := eq_iff
      kept := ?_
      word_le := word_le_of_le le
      latched := latched_word le
      granted := ?_ }
  · rintro earlier move later rfl
    obtain ⟨before, here, _⟩ : (∀ move ∈ earlier, move.act.Orderly) ∧ move.act.Orderly
        ∧ ∀ move ∈ later, move.act.Orderly := by
      simpa [or_imp, forall_and] using orderly
    rw [after_append]
    exact ((coherent.ages_after before).coherent.ages_act move.ledger here).lt_iff
  · rintro same earlier later rfl
    have before := coherent.ages_after fun move member =>
      orderly move (List.mem_append_left later member)
    have calm : ¬b.Disturbed earlier := by
      rintro ⟨first, move, rest, rfl, disturbs⟩
      refine eq_iff.mp same ⟨first, move, rest ++ later, by simp, disturbs⟩
    exact ⟨before.valid calm, before.keys calm⟩
  · rintro near latch latch' holds granted
    obtain ⟨read_eq, write_eq⟩ := latched_word le near latch holds
    rw [read_eq, write_eq] at granted
    obtain ⟨same_block, same⟩ := Latch.stamp_of_granted granted
    rw [Latch.stamp, holds] at same
    have calm := eq_iff.mp same
    have now : latch'.block = b.after moves := same_block.trans holds
    exact ⟨now, now ▸ ages.valid calm, now ▸ ages.keys calm⟩

end

/-- An empty block after puts of two records. -/
def twoRecords : Block := (scratch 32 ⟨⟨64⟩, 0.25, 0.5⟩).after
  [⟨.create false, .call (.put [4] [0])⟩, ⟨.create false, .call (.put [5] [0])⟩]

/-- A deletion, which leaves a tombstone, and a put in the place of the other record. -/
def quietMoves : List Move :=
  [⟨.create false, .call (.delete [5])⟩, ⟨.create false, .call (.put [4] [1])⟩]

/-- A compaction that removes the tombstone, and a merge with a block to the left. -/
def loudMoves : List Move :=
  [⟨.create false, .call (.compact true)⟩, ⟨.create false, .takeIn lowerNeighbour false true⟩]

theorem stamp_tells_until_compacted : ∃ latch : Latch,
    twoRecords.StampTells quietMoves
      ∧ Latch.readWord { block := twoRecords.after quietMoves } twoRecords.word = .granted latch
      ∧ twoRecords.keys = [[4], [5]] ∧ (∀ key ∈ twoRecords.keys, key ∈ latch.block.keys)
      ∧ (twoRecords.after quietMoves).StampTells loudMoves
      ∧ (twoRecords.after quietMoves).Disturbed loudMoves := by
  have arises : twoRecords.Arises := .called _ _ (.called _ _ (.created _ _ _))
  have quiet : twoRecords.StampTells quietMoves :=
    Coherent.stamp_tells arises.coherent (by simp [quietMoves, Act.Orderly])
  have neighbour : lowerNeighbour.Coherent := .holding (by decide)
  have loud : (twoRecords.after quietMoves).StampTells loudMoves :=
    Coherent.stamp_tells quiet.coherent (by simpa [loudMoves, Act.Orderly] using neighbour)
  have granted : Latch.readWord { block := twoRecords.after quietMoves } twoRecords.word
      = .granted { block := twoRecords.after quietMoves, readers := 1 } := by decide +kernel
  obtain ⟨_, _, keys⟩ := quiet.granted (by decide +kernel) _ _ rfl (.inl granted)
  have changed : ((twoRecords.after quietMoves).after loudMoves).stamp
      ≠ (twoRecords.after quietMoves).stamp := by decide +kernel
  exact ⟨_, quiet, granted, by decide +kernel, keys, loud,
    Classical.not_not.mp (mt loud.eq_iff.mpr changed)⟩

end Block

end OrderedStore
