import OrderedStore.Change
import OrderedStore.Proofs.Run.Pruning

/-! # Storing and removing in ascending runs

What a change does to the live records of a store is said on the list of all of them: a put has its
record in its place, a deletion filters its key out. Both concern only the part of the list where
the key belongs, so that a change to one block is a change to the store.
-/

namespace OrderedStore

namespace Ascending

variable {α : Type} {key : α → Bytes} {new : α} {k : Bytes}

theorem filter_ne_eq {l : List α} (asc : Ascending key l) (k : Bytes) :
    l.filter (key · ≠ k) = l.filter (key · < k) ++ l.filter (k < key ·) := by
  obtain ⟨low, same, high, rfl, below, equal, above⟩ := asc.exists_eq_append k
  obtain ⟨low_lt, _, low_ne, low_gt⟩ := filter_of_below below
  obtain ⟨high_gt, high_ne, _, high_lt⟩ := filter_of_above above
  simp only [List.filter_append, low_lt, low_ne, low_gt, high_gt, high_ne, high_lt]
  cases same with
  | none => simp
  | some a => simp [equal a rfl]

/-- Storing in a part of a list stores in the list, where the other parts lie on either side. -/
theorem inserted_between {low middle high : List α} (below : ∀ a ∈ low, key a < key new)
    (above : ∀ a ∈ high, key new < key a) :
    inserted key new (low ++ (middle ++ high)) = low ++ (inserted key new middle ++ high) := by
  obtain ⟨low_lt, _, _, low_gt⟩ := filter_of_below below
  obtain ⟨high_gt, _, _, high_lt⟩ := filter_of_above above
  simp only [inserted, List.filter_append, low_lt, low_gt, high_gt, high_lt]
  simp

theorem inserted_of_below {l : List α} (below : ∀ a ∈ l, key a < key new) :
    inserted key new l = l ++ [new] := by
  obtain ⟨all_below, _, _, none_above⟩ := filter_of_below below
  rw [inserted, all_below, none_above]

theorem filter_ne_between {low middle high : List α} (below : ∀ a ∈ low, key a < k)
    (above : ∀ a ∈ high, k < key a) :
    (low ++ (middle ++ high)).filter (key · ≠ k) = low ++ (middle.filter (key · ≠ k) ++ high) := by
  obtain ⟨_, _, low_ne, _⟩ := filter_of_below below
  obtain ⟨_, high_ne, _, _⟩ := filter_of_above above
  rw [List.filter_append, List.filter_append, low_ne, high_ne]

theorem takeWhile_eq_filter {l : List α} (asc : Ascending key l) (test : Bytes → Bool)
    (lower : ∀ k k', k < k' → test k' = true → test k = true) :
    l.takeWhile (test <| key ·) = l.filter (test <| key ·) := by
  induction l with
  | nil => rfl
  | cons a l ih =>
      obtain ⟨above, asc⟩ := List.pairwise_cons.mp asc
      by_cases passes : test (key a) = true
      · rw [List.takeWhile_cons, List.filter_cons, if_pos passes, if_pos passes, ih asc]
      · have none_passes : ∀ b ∈ l, ¬test (key b) = true := fun b member passed =>
          passes (lower _ _ (above b member) passed)
        rw [List.takeWhile_cons, List.filter_cons, if_neg passes, if_neg passes,
          List.filter_eq_nil_iff.mpr none_passes]

theorem find?_filter_key (key : α → Bytes) (l : List α) (test : Bytes → Bool) (k : Bytes) :
    (l.filter (test <| key ·)).find? (key · = k)
      = if test k then l.find? (key · = k) else none := by
  rw [List.find?_filter]
  by_cases passes : test k = true
  · rw [if_pos passes]
    congr 1
    funext a
    by_cases same : key a = k <;> simp [same, passes]
  · rw [if_neg passes, List.find?_eq_none]
    intro a _ found
    obtain ⟨passed, same⟩ := of_decide_eq_true found
    exact passes (of_decide_eq_true same ▸ passed)

theorem find?_inserted (new : α) (l : List α) (k : Bytes) :
    (inserted key new l).find? (key · = k)
      = if key new = k then some new else l.find? (key · = k) := by
  have below := find?_filter_key key l (· < key new) k
  have above := find?_filter_key key l (key new < ·) k
  rw [inserted, List.find?_append, List.find?_cons, below, above]
  by_cases same : key new = k
  · subst same
    simp [List.lt_irrefl]
  · rw [decide_eq_false same, if_neg same]
    by_cases less : k < key new
    · simp [less, List.lt_asymm less]
    · have more : key new < k := Std.lt_of_le_of_ne (List.not_lt.mp less) same
      simp [less, more]

theorem mem_inserted {l : List α} {a : α} (member : a ∈ inserted key new l) :
    a = new ∨ a ∈ l := by
  rcases List.mem_append.mp member with member | member
  · exact .inr (List.mem_filter.mp member).1
  · rcases List.mem_cons.mp member with rfl | member
    · exact .inl rfl
    · exact .inr (List.mem_filter.mp member).1

theorem exists_mem_inserted (new : α) {l : List α} {a : α} (member : a ∈ l) :
    ∃ a' ∈ inserted key new l, key a' = key a := by
  by_cases less : key a < key new
  · exact ⟨a, List.mem_append_left _ (List.mem_filter.mpr ⟨member, decide_eq_true less⟩), rfl⟩
  · by_cases more : key new < key a
    · have kept : a ∈ l.filter (key new < key ·) := List.mem_filter.mpr ⟨member, decide_eq_true more⟩
      exact ⟨a, List.mem_append_right _ (List.mem_cons_of_mem _ kept), rfl⟩
    · have same : key new = key a := List.le_antisymm (List.not_lt.mp less) (List.not_lt.mp more)
      exact ⟨new, List.mem_append_right _ List.mem_cons_self, same⟩

theorem length_inserted (key : α → Bytes) (new : α) (l : List α) :
    (inserted key new l).length + (l.filter (key · = key new)).length = l.length + 1 := by
  induction l with
  | nil => rfl
  | cons a l ih =>
      rw [inserted, List.length_append, List.length_cons] at ih ⊢
      by_cases less : key a < key new
      · simp [less, List.lt_asymm less, Std.ne_of_lt less]
        omega
      · by_cases same : key a = key new
        · simp [same, List.lt_irrefl]
          omega
        · have more : key new < key a := Std.lt_of_le_of_ne (List.not_lt.mp less) (Ne.symm same)
          simp [less, same, more]
          omega

theorem head?_inserted {l : List α} {first : Bytes} (asc : Ascending key l)
    (head : l.head?.map key = some first) (least : first ≤ key new) :
    (inserted key new l).head?.map key = some first := by
  cases l with
  | nil => contradiction
  | cons a l =>
      obtain rfl : key a = first := Option.some.inj head
      by_cases less : key a < key new
      · simp [inserted, less]
      · have same : key a = key new := List.le_antisymm least (List.not_lt.mp less)
        have above : ∀ b ∈ l, ¬key b < key new := fun b member =>
          List.lt_asymm (same ▸ (List.pairwise_cons.mp asc).1 b member)
        have none_below : (a :: l).filter (key · < key new) = [] :=
          List.filter_eq_nil_iff.mpr fun b member => by
            rcases List.mem_cons.mp member with rfl | member
            · simpa using less
            · simpa using above b member
        rw [inserted, none_below]
        simp [same]

end Ascending

namespace Run

theorem live_inserted {new : Record} {run : Run} (alive : new.deleted = false) :
    live (Ascending.inserted Record.key new run)
      = Ascending.inserted Record.key new (live run) := by
  rw [Ascending.inserted, live_append, live_cons, alive]
  simp only [live, Ascending.inserted, List.filter_filter, Bool.and_comm]
  rfl

theorem live_inserted_tombstone {new : Record} {run : Run} (asc : Ascending Record.key run)
    (deleted : new.deleted = true) :
    live (Ascending.inserted Record.key new run) = (live run).filter (·.key ≠ new.key) := by
  have live_asc : Ascending Record.key (live run) := asc.filter _
  rw [Ascending.inserted, live_append, live_cons, deleted]
  refine Eq.trans ?_ (live_asc.filter_ne_eq new.key).symm
  simp only [live, List.filter_filter, Bool.and_comm]
  rfl

/-- The live records after a change. -/
def change (run : Run) : Change → Run
  | .put key value => Ascending.inserted Record.key (Record.live key value) run
  | .delete key => run.filter (·.key ≠ key)

theorem at?_change_of_ne {run : Run} {c : Change} {key : Bytes} (other : c.key ≠ key) :
    at? (change run c) key = at? run key := by
  cases c with
  | put k value =>
      have different : (Record.live k value).key ≠ key := other
      rw [change, at?, Ascending.find?_inserted, if_neg different]
      rfl
  | delete k =>
      have different : key ≠ k := Ne.symm other
      have kept := Ascending.find?_filter_key Record.key run (· ≠ k) key
      rw [if_pos (decide_eq_true different)] at kept
      exact kept

theorem at?_foldl_change {changes : List Change} {key : Bytes}
    (other : ∀ c ∈ changes, c.key ≠ key) (run : Run) :
    at? (changes.foldl change run) key = at? run key := by
  induction changes generalizing run with
  | nil => rfl
  | cons c changes ih =>
      obtain ⟨here, later⟩ := List.forall_mem_cons.mp other
      rw [List.foldl_cons, ih later, at?_change_of_ne here]

theorem length_change_le (run : Run) (c : Change) : (change run c).length ≤ run.length + 1 := by
  cases c with
  | put key value =>
      exact Nat.le_of_add_right_le
        (Nat.le_of_eq (Ascending.length_inserted Record.key (Record.live key value) run))
  | delete key => exact Nat.le_succ_of_le (List.length_filter_le _ run)

theorem length_change_le_of_mem {run : Run} {c : Change} {r : Record} (member : r ∈ run)
    (same : r.key = c.key) : (change run c).length ≤ run.length := by
  cases c with
  | put key value =>
      have length := Ascending.length_inserted Record.key (Record.live key value) run
      have replaced : r ∈ run.filter (·.key = (Record.live key value).key) :=
        List.mem_filter.mpr ⟨member, decide_eq_true same⟩
      have pos := List.length_pos_of_mem replaced
      rw [change]
      omega
  | delete key => exact List.length_filter_le _ run

section

variable {run : Run} {c : Change} {changes : List Change} (test : Bytes → Bool)

theorem ascending_change (asc : Ascending Record.key run) (c : Change) :
    Ascending Record.key (change run c) := by
  cases c with
  | put key value => exact asc.ascending_inserted _
  | delete key => exact asc.filter _

/-- A change to a key that passes a test is a change to the records that pass. -/
theorem filter_change_of_pass (passes : test c.key = true) (run : Run) :
    (change run c).filter (test ·.key) = change (run.filter (test ·.key)) c := by
  cases c with
  | put key value =>
      have passes : test (Record.live key value).key = true := passes
      simp only [change, Ascending.inserted, List.filter_append, List.filter_cons, passes, if_true,
        List.filter_filter, Bool.and_comm]
  | delete key => simp only [change, List.filter_filter, Bool.and_comm]

/-- A change to a key that fails a test leaves the records that pass alone. -/
theorem filter_change_of_fail (asc : Ascending Record.key run) (fails : test c.key = false) :
    (change run c).filter (test ·.key) = run.filter (test ·.key) := by
  have others : (run.filter (·.key ≠ c.key)).filter (test ·.key) = run.filter (test ·.key) := by
    rw [List.filter_filter]
    apply List.filter_congr
    intro r _
    by_cases same : r.key = c.key
    · simp [same, fails]
    · simp [same]
  cases c with
  | put key value =>
      have fails : test (Record.live key value).key = false := fails
      rw [asc.filter_ne_eq] at others
      rw [← others, change, Ascending.inserted, List.filter_append, List.filter_append,
        List.filter_cons_of_neg (by simp [fails])]
      rfl
  | delete key => exact others

theorem filter_foldl_change_of_pass (passes : ∀ c ∈ changes, test c.key = true) (run : Run) :
    (changes.foldl change run).filter (test ·.key)
      = changes.foldl change (run.filter (test ·.key)) := by
  induction changes generalizing run with
  | nil => rfl
  | cons c changes ih =>
      obtain ⟨here, later⟩ := List.forall_mem_cons.mp passes
      rw [List.foldl_cons, List.foldl_cons, ih later, filter_change_of_pass test here]

theorem filter_foldl_change_of_fail (asc : Ascending Record.key run)
    (fails : ∀ c ∈ changes, test c.key = false) :
    (changes.foldl change run).filter (test ·.key) = run.filter (test ·.key) := by
  induction changes generalizing run with
  | nil => rfl
  | cons c changes ih =>
      obtain ⟨here, later⟩ := List.forall_mem_cons.mp fails
      rw [List.foldl_cons, ih (ascending_change asc c) later, filter_change_of_fail test asc here]

end

end Run

end OrderedStore
