import OrderedStore.Proofs.Block.Writes

/-! # The rounds of a put in one block

A put looks its key up, and while its record needs more room than there is, it makes room for what
is missing and looks again. The compaction that makes room may take away the very record that was to
be replaced; then more is missing in the next round than in the one before. Here the rounds are told
one by one, and the growth of the block capacity by capacity. Two rounds that make room are enough,
and they end where one compaction and one growth end.
-/

namespace OrderedStore

theorem Run.removable_compact (run : Run) : Run.removable (Run.compact run) = [] := by
  cases run with
  | nil => rfl
  | cons first rest => simp [Run.removable, Run.compact]

namespace Block

/-- The block grows, capacity by capacity, until it holds `bytes` or cannot grow any more. The flag
tells whether it holds them in the end. -/
inductive Expands (bytes : Nat) : Block → Ledger → Bool → Block × Ledger → Prop where
  | enough {b : Block} {l : Ledger} : bytes ≤ b.capacity → Expands bytes b l true (b, l)
  | exhausted {b : Block} {l : Ledger} : b.capacity < bytes → b.expand? l = none →
      Expands bytes b l false (b, l)
  | grown {b b' : Block} {l l' : Ledger} {holds : Bool} {ended : Block × Ledger} :
      b.capacity < bytes → b.expand? l = some (b', l') → Expands bytes b' l' holds ended →
      Expands bytes b l holds ended

theorem grows_of_expand? {b b' : Block} {l l' : Ledger} (next : b.expand? l = some (b', l')) :
    b.Grows b' := by
  obtain ⟨size, above, moved⟩ := Option.map_eq_some_iff.mp next
  have larger : b.capacity ≤ size := Nat.le_of_lt (Ladder.lt_of_above? above)
  have grows := grows_moveTo b l larger (List.mem_of_find?_eq_some above)
  rwa [moved] at grows

namespace Expands

variable {least bytes : Nat} {b : Block} {l : Ledger} {holds holds' : Bool}
  {ended ended' : Block × Ledger}

theorem unique (h : Expands bytes b l holds ended) (h' : Expands bytes b l holds' ended') :
    holds = holds' ∧ ended = ended' := by
  induction h with
  | enough room =>
      cases h' with
      | enough => exact ⟨rfl, rfl⟩
      | exhausted short => exact absurd room (Nat.not_le.mpr short)
      | grown short => exact absurd room (Nat.not_le.mpr short)
  | exhausted short last =>
      cases h' with
      | enough room => exact absurd room (Nat.not_le.mpr short)
      | exhausted => exact ⟨rfl, rfl⟩
      | grown _ next => exact absurd (last.symm.trans next) (Option.some_ne_none _).symm
  | grown short next _ ih =>
      cases h' with
      | enough room => exact absurd room (Nat.not_le.mpr short)
      | exhausted _ last => exact absurd (last.symm.trans next) (Option.some_ne_none _).symm
      | grown _ next' further =>
          cases next.symm.trans next'
          exact ih further

/-- Growth to more bytes goes on from where growth to fewer ended. -/
theorem further (h : Expands least b l true ended) (more : least ≤ bytes)
    (h' : Expands bytes ended.1 ended.2 holds ended') : Expands bytes b l holds ended' := by
  generalize reached : true = flag at h
  induction h with
  | enough => exact h'
  | exhausted => contradiction
  | grown short next _ ih => exact .grown (Nat.lt_of_lt_of_le short more) next (ih h' reached)

theorem fails (h : Expands least b l false ended) (more : least ≤ bytes) :
    Expands bytes b l false ended := by
  generalize failed : false = flag at h
  induction h with
  | enough => contradiction
  | exhausted short last => exact .exhausted (Nat.lt_of_lt_of_le short more) last
  | grown short next _ ih => exact .grown (Nat.lt_of_lt_of_le short more) next (ih failed)

theorem grows (h : Expands bytes b l holds ended) : b.Grows ended.1 := by
  induction h with
  | enough => exact .refl _
  | exhausted => exact .refl _
  | grown _ next _ ih => exact (grows_of_expand? next).trans ih

end Expands

section

variable {b : Block} {l : Ledger} {new : Record}

theorem expands_growThrough (bytes : Nat) (passed : List Nat) {sizes : List Nat} (b : Block)
    (l : Ledger) (classes : b.ladder.classes = passed ++ sizes)
    (behind : ∀ size ∈ passed, size ≤ b.capacity) :
    Expands bytes b l (decide (bytes ≤ (growThrough bytes sizes b l).1.capacity))
      (growThrough bytes sizes b l) := by
  induction sizes generalizing passed b l with
  | nil =>
      rw [growThrough]
      by_cases room : bytes ≤ b.capacity
      · rw [decide_eq_true room]
        exact .enough room
      · rw [decide_eq_false room]
        refine .exhausted (Nat.not_le.mp room) ?_
        have last : b.ladder.above? b.capacity = none := by
          rw [Ladder.above?, classes, List.append_nil]
          exact List.find?_eq_none.mpr fun size member =>
            by simpa using behind size member
        rw [expand?, last]
        rfl
  | cons size larger ih =>
      have rest : b.ladder.classes = (passed ++ [size]) ++ larger := by
        rw [classes, List.append_assoc]
        rfl
      rw [growThrough]
      by_cases room : bytes ≤ b.capacity
      · rw [if_pos room, decide_eq_true room]
        exact .enough room
      · rw [if_neg room]
        by_cases small : size ≤ b.capacity
        · rw [if_pos small]
          refine ih (passed ++ [size]) b l rest fun c member => ?_
          cases List.mem_append.mp member with
          | inl earlier => exact behind c earlier
          | inr here => exact List.mem_singleton.mp here ▸ small
        · rw [if_neg small]
          have next : b.ladder.above? b.capacity = some size := by
            have none_before : passed.find? (b.capacity < ·) = none :=
              List.find?_eq_none.mpr fun c member => by simpa using behind c member
            rw [Ladder.above?, classes, List.find?_append, none_before,
              List.find?_cons_of_pos (by simpa using small)]
            rfl
          refine .grown (Nat.not_le.mp room) (by rw [expand?, next]; rfl) ?_
          refine ih (passed ++ [size]) (b.moveTo l size).1 (b.moveTo l size).2 rest fun c member => ?_
          rw [capacity_moveTo]
          cases List.mem_append.mp member with
          | inl earlier => exact Nat.le_trans (behind c earlier) (Nat.le_of_not_le small)
          | inr here => exact Nat.le_of_eq (List.mem_singleton.mp here)

theorem expands_reserve (b : Block) (l : Ledger) (bytes : Nat) :
    Expands bytes b l (decide (bytes ≤ (b.reserve l bytes).1.capacity)) (b.reserve l bytes) :=
  expands_growThrough bytes [] b l rfl (by simp)

/-- The rounds of a put that stores `new`, and how many of them make room. A round makes room for as
many bytes as the record adds to those in use when the round starts. -/
inductive Rounds (new : Record) : Block → Ledger → Nat → PutResult × Block × Ledger → Prop where
  | stored {b : Block} {l : Ledger} : b.hasRoom (b.need new) = true →
      Rounds new b l 0 (.done, b.stored l new)
  | full {b : Block} {l : Ledger} {p : Block × Ledger} : b.hasRoom (b.need new) = false →
      Expands ((b.compact l true).2.1.used + (b.need new - b.used))
        (b.compact l true).2.1 (b.compact l true).2.2 false p →
      Rounds new b l 0 (.needsSplit, p)
  | again {b : Block} {l : Ledger} {p : Block × Ledger} {n : Nat}
      {ended : PutResult × Block × Ledger} : b.hasRoom (b.need new) = false →
      Expands ((b.compact l true).2.1.used + (b.need new - b.used))
        (b.compact l true).2.1 (b.compact l true).2.2 true p →
      Rounds new p.1 p.2 n ended → Rounds new b l (n + 1) ended

theorem Rounds.unique {n n' : Nat} {ended ended' : PutResult × Block × Ledger}
    (h : Rounds new b l n ended) (h' : Rounds new b l n' ended') : n = n' ∧ ended = ended' := by
  induction h generalizing n' with
  | stored room =>
      cases h' with
      | stored => exact ⟨rfl, rfl⟩
      | full short => exact absurd room (Bool.eq_false_iff.mp short)
      | again short => exact absurd room (Bool.eq_false_iff.mp short)
  | full short stuck =>
      cases h' with
      | stored room => exact absurd room (Bool.eq_false_iff.mp short)
      | full _ stuck' => exact ⟨rfl, congrArg _ (stuck.unique stuck').2⟩
      | again _ grown => exact absurd (stuck.unique grown).1 Bool.false_ne_true
  | again short grown _ ih =>
      cases h' with
      | stored room => exact absurd room (Bool.eq_false_iff.mp short)
      | full _ stuck => exact absurd (stuck.unique grown).1 Bool.false_ne_true
      | again _ grown' rest =>
          obtain rfl := (grown.unique grown').2
          obtain ⟨rfl, same⟩ := ih rest
          exact ⟨rfl, same⟩

/-- The bytes of the record that a put under `key` replaces. -/
def replaced (b : Block) (key : Bytes) : Nat := ((b.at? key).map Record.size).getD 0

theorem WellFormed.at?_eq_some_iff (wf : b.WellFormed) {key : Bytes} {r : Record} :
    b.at? key = some r ↔ r ∈ b.run ∧ r.key = key := by
  obtain ⟨low, same, high, eq, below, equal, above, found⟩ := wf.exists_run_eq key
  rw [found, eq]
  constructor
  · rintro rfl
    exact ⟨by simp, equal r rfl⟩
  · rintro ⟨member, at_key⟩
    rcases List.mem_append.mp member with inside | inside
    · exact absurd at_key (Std.ne_of_lt (below r inside))
    · rcases List.mem_append.mp inside with inside | inside
      · exact Option.mem_toList.mp inside
      · exact absurd at_key (Std.ne_of_lt (above r inside)).symm

theorem WellFormed.need_add_replaced (wf : b.WellFormed) (new : Record) :
    b.need new + b.replaced new.key = b.used + new.size := by
  obtain ⟨low, same, high, eq, _, _, _, found⟩ := wf.exists_run_eq new.key
  have parts := wf.usedWith_eq eq new.size
  rw [need, replaced, found, parts, wf.used, eq, Run.size_append, Run.size_append]
  cases same with
  | none =>
      simp only [Option.map_none, Option.getD_none, Option.toList_none, Run.size, total_nil]
      omega
  | some r =>
      have single : Run.size [r] = r.size := Nat.add_zero _
      simp only [Option.map_some, Option.getD_some, Option.toList_some, single]
      omega

theorem WellFormed.replaced_compact_le (wf : b.WellFormed) (key : Bytes) :
    (b.compact l true).2.1.replaced key ≤ b.replaced key := by
  have compacted := wf.compact l true
  cases found : (b.compact l true).2.1.at? key with
  | none => simp [replaced, found]
  | some r =>
      obtain ⟨member, at_key⟩ := compacted.at?_eq_some_iff.mp found
      have still : b.at? key = some r :=
        wf.at?_eq_some_iff.mpr ⟨(prunes_compact l true).subset member, at_key⟩
      have same : (b.compact l true).2.1.replaced key = b.replaced key := by
        rw [replaced, replaced, found, still]
      exact Nat.le_of_eq same

theorem compact_of_removable_nil (clean : Run.removable b.run = []) :
    b.compact l true = (false, b, l) := by
  rw [Block.compact]
  split
  · rfl
  · simp [clean]

/-- In a compacted block one round makes room, if there is room to be made. -/
theorem WellFormed.exists_rounds_pruned (wf : b.WellFormed)
    (clean : Run.removable b.run = []) (new : Record) :
    ∃ n ≤ 1, Rounds new b l n
      ((b.reserve l (b.need new)).1.outcome (b.reserve l (b.need new)).2 new) := by
  have grown := expands_reserve b l (b.need new)
  have grows := grows_reserve b l (b.need new)
  by_cases room : b.need new ≤ b.capacity
  · refine ⟨0, Nat.zero_le 1, ?_⟩
    rw [reserve_of_le room, Block.outcome, if_pos room]
    exact .stored (wf.hasRoom_iff.mpr room)
  · have short : b.hasRoom (b.need new) = false := Bool.eq_false_iff.mpr (mt wf.hasRoom_iff.mp room)
    have missing : b.used + (b.need new - b.used) = b.need new := by
      have inside := wf.room
      omega
    have made : Expands ((b.compact l true).2.1.used + (b.need new - b.used))
        (b.compact l true).2.1 (b.compact l true).2.2
        (decide (b.need new ≤ (b.reserve l (b.need new)).1.capacity))
        (b.reserve l (b.need new)) := by
      rw [compact_of_removable_nil clean, missing]
      exact grown
    rw [Block.outcome, grows.need_eq]
    by_cases enough : b.need new ≤ (b.reserve l (b.need new)).1.capacity
    · rw [decide_eq_true enough] at made
      rw [if_pos enough]
      have stored : (b.reserve l (b.need new)).1.hasRoom ((b.reserve l (b.need new)).1.need new)
          = true := by
        rw [(grows.wellFormed wf).hasRoom_iff, grows.need_eq]
        exact enough
      exact ⟨1, Nat.le_refl 1, .again short made (.stored stored)⟩
    · rw [decide_eq_false enough] at made
      rw [if_neg enough]
      exact ⟨0, Nat.zero_le 1, .full short made⟩

/-- A put runs through its rounds, of which no more than two make room. -/
theorem WellFormed.exists_rounds (wf : b.WellFormed) {key value : Bytes}
    (check : Record.check key value b.ladder.max = .ok (Record.live key value).size) :
    ∃ ended n, b.put l key value = .ok ended ∧ n ≤ 2
      ∧ Rounds (Record.live key value) b l n ended := by
  have ended := wf.put_eq (l := l) check
  generalize Record.live key value = new at ended ⊢
  by_cases room : b.need new ≤ b.capacity
  · rw [if_pos room] at ended
    exact ⟨_, 0, ended, Nat.zero_le 2, .stored (wf.hasRoom_iff.mpr room)⟩
  · rw [if_neg room] at ended
    have short : b.hasRoom (b.need new) = false := Bool.eq_false_iff.mpr (mt wf.hasRoom_iff.mp room)
    let c := (b.compact l true).2
    let first := c.1.used + (b.need new - b.used)
    let p := c.1.reserve c.2 first
    have compacted : c.1.WellFormed := wf.compact l true
    have first_le : first ≤ c.1.need new := by
      have before := wf.need_add_replaced new
      have after := compacted.need_add_replaced new
      have fewer : c.1.replaced new.key ≤ b.replaced new.key := wf.replaced_compact_le new.key
      have inside := wf.room
      omega
    have made : Expands first c.1 c.2 (decide (first ≤ p.1.capacity)) p := expands_reserve _ _ _
    have whole : Expands (c.1.need new) c.1 c.2
        (decide (c.1.need new ≤ (b.prepared l new).1.capacity)) (b.prepared l new) :=
      expands_reserve _ _ _
    by_cases enough : first ≤ p.1.capacity
    · rw [decide_eq_true enough] at made
      have grows : c.1.Grows p.1 := grows_reserve _ _ _
      have clean : Run.removable p.1.run = [] := by
        rw [grows.run, wf.run_compact_force]
        exact Run.removable_compact b.run
      obtain ⟨n, few, rounds⟩ :=
        (grows.wellFormed compacted).exists_rounds_pruned (l := p.2) clean new
      have rest := expands_reserve p.1 p.2 (p.1.need new)
      rw [grows.need_eq] at rest
      have same : p.1.reserve p.2 (c.1.need new) = b.prepared l new :=
        ((made.further first_le rest).unique whole).2
      rw [grows.need_eq, same] at rounds
      exact ⟨_, n + 1, ended, Nat.succ_le_succ few, .again short made rounds⟩
    · rw [decide_eq_false enough] at made
      obtain ⟨failed, same⟩ := (made.fails first_le).unique whole
      rw [Block.outcome, (grows_prepared b l new).need_eq,
        if_neg (of_decide_eq_false failed.symm)] at ended
      exact ⟨_, 0, ended, Nat.zero_le 2, .full short (same ▸ made)⟩

end

end Block

end OrderedStore
