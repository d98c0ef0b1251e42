import OrderedStore.Bytes

/-! # Members in the order of their keys

The records of a block and the entries of a directory lie in strictly ascending order of their keys.
This module says what that order is for a list, and how an array in that order is searched, by
halving it. The lemmas say what is found in terms of the members in their order.
-/

namespace OrderedStore

/-- The first of the `n` indices from `start` on that fails a test, or the one behind them, if those
that pass come before those that fail. Each round tests the index in the middle. -/
def halveWithin (test : Nat → Bool) : Nat → Nat → Nat → Nat
  | 0, start, _ => start
  | _, start, 0 => start
  | rounds + 1, start, n + 1 =>
    if test (start + n / 2) then halveWithin test rounds (start + n / 2 + 1) (n - n / 2)
    else halveWithin test rounds start (n / 2)

theorem halveWithin_eq {test : Nat → Bool} {m rounds start n : Nat}
    (passes : ∀ i, start ≤ i → i < start + n → (test i = true ↔ i < m))
    (low : start ≤ m) (high : m ≤ start + n) (enough : n ≤ rounds) :
    halveWithin test rounds start n = m := by
  induction rounds generalizing start n with
  | zero =>
    simp only [halveWithin]
    omega
  | succ rounds ih =>
    cases n with
    | zero =>
      simp only [halveWithin]
      omega
    | succ n =>
      have middle := passes (start + n / 2) (by omega) (by omega)
      rw [halveWithin]
      split
      · exact ih (fun i _ _ => passes i (by omega) (by omega)) (by grind) (by omega) (by omega)
      · exact ih (fun i _ _ => passes i (by omega) (by omega)) (by omega) (by grind) (by omega)

section

variable {α : Type}

/-- How many members of an array pass a test, if those that pass come first. -/
def leading (test : α → Bool) (a : Array α) : Nat :=
  halveWithin (fun i => a[i]?.any test) a.size 0 a.size

theorem getElem_passes_iff {test : α → Bool} {l : List α}
    (first : l.Pairwise fun a b => test b → test a) (i : Nat) (inside : i < l.length) :
    test l[i] = true ↔ i < (l.takeWhile test).length := by
  induction l generalizing i with
  | nil => simp at inside
  | cons a l ih =>
    obtain ⟨head, tail⟩ := List.pairwise_cons.1 first
    cases pass : test a with
    | false =>
      cases i with
      | zero => simp [pass]
      | succ i => simp [pass] at head ⊢; exact head _ (List.getElem_mem _)
    | true =>
      cases i with
      | zero => simp [pass]
      | succ i => simpa [pass] using ih tail i (by simpa using inside)

theorem leading_eq {test : α → Bool} {a : Array α}
    (first : a.toList.Pairwise fun a b => test b → test a) :
    leading test a = (a.toList.takeWhile test).length := by
  have bound := (List.takeWhile_prefix test (l := a.toList)).length_le
  refine halveWithin_eq (fun i _ inside => ?_) (Nat.zero_le _) (by simpa using bound) (by simp)
  have inside : i < a.toList.length := by simpa using inside
  simpa [Array.getElem?_eq_getElem (by simpa using inside)] using getElem_passes_iff first i inside

theorem insertIdx_length (l m : List α) (a : α) : (l ++ m).insertIdx l.length a = l ++ a :: m := by
  induction l <;> simp_all

end

/-- The keys of the members strictly ascend. -/
def Ascending {α κ : Type} [LT κ] (key : α → κ) (l : List α) : Prop := l.Pairwise (key · < key ·)

namespace Ascending

section

variable {α κ : Type} [LE κ] [LT κ] [Std.IsLinearOrder κ] [Std.LawfulOrderLT κ] [DecidableLT κ]
  {key : α → κ} {l : List α}

/-- A list with `new` in its place, instead of the members with the same key. -/
def inserted (key : α → κ) (new : α) (l : List α) : List α :=
  l.filter (key · < key new) ++ new :: l.filter (key new < key ·)

theorem ascending_inserted (h : Ascending key l) (new : α) :
    Ascending key (inserted key new l) := by
  refine List.pairwise_append.2 ⟨h.filter _, List.pairwise_cons.2 ⟨by simp, h.filter _⟩, ?_⟩
  intro a ha b hb
  simp only [List.mem_cons, List.mem_filter, decide_eq_true_eq] at ha hb
  grind

theorem exists_eq_append (h : Ascending key l) (k : κ) :
    ∃ (low : List α) (same : Option α) (high : List α), l = low ++ (same.toList ++ high)
      ∧ (∀ a ∈ low, key a < k) ∧ (∀ a ∈ same, key a = k) ∧ (∀ a ∈ high, k < key a) := by
  induction l with
  | nil => exact ⟨[], none, [], by simp⟩
  | cons a l ih =>
    obtain ⟨least, tail⟩ := List.pairwise_cons.1 h
    by_cases less : key a < k
    · obtain ⟨low, same, high, rfl, below, equal, above⟩ := ih tail
      exact ⟨a :: low, same, high, by simp, by simpa [less] using below, equal, above⟩
    · by_cases equal : key a = k
      · exact ⟨[], some a, l, by simp, by simp, by simp [equal], by grind⟩
      · exact ⟨[], none, a :: l, by simp, by simp, by simp, by grind⟩

theorem filter_of_below [DecidableLE κ] [DecidableEq κ] {k : κ} (below : ∀ a ∈ l, key a < k) :
    l.filter (key · < k) = l ∧ l.filter (key · ≤ k) = l ∧ l.filter (key · ≠ k) = l
      ∧ l.filter (k < key ·) = [] := by
  refine ⟨?_, ?_, ?_, ?_⟩
  · simpa using below
  · simpa using fun a member => Std.le_of_lt (below a member)
  · simpa using fun a member => Std.ne_of_lt (below a member)
  · simpa [Std.not_lt] using fun a member => Std.le_of_lt (below a member)

theorem filter_of_above [DecidableLE κ] [DecidableEq κ] {k : κ} (above : ∀ a ∈ l, k < key a) :
    l.filter (k < key ·) = l ∧ l.filter (key · ≠ k) = l ∧ l.filter (key · ≤ k) = []
      ∧ l.filter (key · < k) = [] := by
  refine ⟨?_, ?_, ?_, ?_⟩
  · simpa using above
  · simpa using fun a member => (Std.ne_of_lt (above a member)).symm
  · simpa [Std.not_le] using above
  · simpa [Std.not_lt] using fun a member => Std.le_of_lt (above a member)

theorem filter_le_append_filter_lt [DecidableLE κ] [DecidableEq κ] (h : Ascending key l) (k : κ) :
    l.filter (key · ≤ k) ++ l.filter (k < key ·) = l := by
  induction l with
  | nil => rfl
  | cons a l ih =>
    obtain ⟨least, tail⟩ := List.pairwise_cons.1 h
    by_cases reached : key a ≤ k
    · have not_above : ¬k < key a := Std.not_lt.2 reached
      simpa [reached, not_above] using ih tail
    · have above : ∀ b ∈ a :: l, k < key b := by
        have first := Std.not_le.1 reached
        simp
        grind
      obtain ⟨kept, _, gone, _⟩ := filter_of_above above
      rw [kept, gone, List.nil_append]

theorem inserted_of_lt {new a : α} {low high : List α} (less : key new < key a)
    (least : ∀ b ∈ high, key a < key b) :
    inserted key new (low ++ a :: high) = inserted key new low ++ a :: high := by
  have none_below : (a :: high).filter (key · < key new) = [] := by simp; grind
  have all_above : (a :: high).filter (key new < key ·) = a :: high := by simp; grind
  rw [inserted, inserted, List.filter_append, List.filter_append, none_below, all_above]
  simp

theorem inserted_of_eq {new a : α} {low high : List α} (equal : key new = key a)
    (below : ∀ b ∈ low, key b < key a) (least : ∀ b ∈ high, key a < key b) :
    inserted key new (low ++ a :: high) = low ++ new :: high := by
  have all_below : low.filter (key · < key new) = low := by simp; grind
  have none_above : low.filter (key new < key ·) = [] := by simp; grind
  have none_below : (a :: high).filter (key · < key new) = [] := by simp; grind
  have all_above : high.filter (key new < key ·) = high := by simp; grind
  rw [inserted, List.filter_append, List.filter_append, all_below, none_above, none_below,
    List.filter_cons_of_neg (by simp; grind), all_above]
  simp

theorem inserted_of_gt {new a : α} {low high : List α} (less : key a < key new)
    (below : ∀ b ∈ low, key b < key a) :
    inserted key new (low ++ a :: high) = low ++ a :: inserted key new high := by
  have all_below : low.filter (key · < key new) = low := by simp; grind
  have none_above : low.filter (key new < key ·) = [] := by simp; grind
  rw [inserted, inserted, List.filter_append, List.filter_append, all_below, none_above,
    List.filter_cons_of_pos (by simpa using less), List.filter_cons_of_neg (by simp; grind)]
  simp

theorem inserted_append {new : α} {low high : List α} {same : Option α}
    (below : ∀ a ∈ low, key a < key new) (equal : ∀ a ∈ same, key a = key new)
    (above : ∀ a ∈ high, key new < key a) :
    inserted key new (low ++ (same.toList ++ high)) = low ++ new :: high := by
  have low_below : low.filter (key · < key new) = low := by simpa using below
  have rest_below : (same.toList ++ high).filter (key · < key new) = [] := by simp; grind
  have rest_above : (low ++ same.toList).filter (key new < key ·) = [] := by simp; grind
  have high_above : high.filter (key new < key ·) = high := by simpa using above
  rw [inserted, List.filter_append, low_below, rest_below, ← List.append_assoc low,
    List.filter_append, rest_above, high_above]
  simp

end

section

variable {α : Type} (key : α → Bytes)

/-- How many members of an ascending array lie below `k`. -/
def rank (k : Bytes) (a : Array α) : Nat := leading (key · < k) a

/-- How many members of an ascending array lie at or below `k`. -/
def reach (k : Bytes) (a : Array α) : Nat := leading (key · ≤ k) a

/-- The member of an ascending array whose key is `k`. -/
def find? (k : Bytes) (a : Array α) : Option α := a[rank key k a]?.filter (key · = k)

/-- An ascending array with `new` in its place, instead of a member with the same key. -/
def put (new : α) (a : Array α) : Array α :=
  let i := rank key (key new) a
  if a[i]?.any (key · = key new) then a.setIfInBounds i new else a.insertIdxIfInBounds i new

variable {key : α → Bytes} {k : Bytes} {a : Array α}

theorem rank_eq (h : Ascending key a.toList) :
    rank key k a = (a.toList.takeWhile (key · < k)).length :=
  leading_eq <| h.imp fun {a b} less => by grind

theorem reach_eq (h : Ascending key a.toList) :
    reach key k a = (a.toList.takeWhile (key · ≤ k)).length :=
  leading_eq <| h.imp fun {a b} less => by grind

theorem exists_eq (h : Ascending key a.toList) (k : Bytes) :
    ∃ (low : List α) (same : Option α) (high : List α), a.toList = low ++ (same.toList ++ high)
      ∧ (∀ a ∈ low, key a < k) ∧ (∀ a ∈ same, key a = k) ∧ (∀ a ∈ high, k < key a)
      ∧ rank key k a = low.length ∧ reach key k a = low.length + same.toList.length
      ∧ find? key k a = same := by
  obtain ⟨low, same, high, eq, below, equal, above⟩ := h.exists_eq_append k
  have ranked : rank key k a = low.length := by
    have rest : ∀ a ∈ same.toList ++ high, ¬key a < k := by grind
    rw [rank_eq h, eq, List.takeWhile_append_of_pos (by simpa using below)]
    cases split : same.toList ++ high <;> simp_all
  have reached : reach key k a = low.length + same.toList.length := by
    rw [reach_eq h, eq, List.takeWhile_append_of_pos (by simp; grind),
      List.takeWhile_append_of_pos (by simp; grind)]
    cases high <;> simp_all
  refine ⟨low, same, high, eq, below, equal, above, ranked, reached, ?_⟩
  rw [find?, ranked, ← Array.getElem?_toList, eq]
  cases same with
  | some a => simp_all
  | none =>
    cases high with
    | nil => simp
    | cons b high =>
      have other : key b ≠ k := by grind
      simp [other]

theorem find?_eq (h : Ascending key a.toList) : find? key k a = a.toList.find? (key · = k) := by
  obtain ⟨low, same, high, eq, below, equal, above, _, _, found⟩ := h.exists_eq k
  have low_other : low.find? (key · = k) = none := by simp; grind
  have high_other : high.find? (key · = k) = none := by simp; grind
  rw [found, eq, List.find?_append, List.find?_append, low_other, high_other]
  cases same <;> simp_all

theorem toList_put (h : Ascending key a.toList) (new : α) :
    (put key new a).toList = inserted key new a.toList := by
  obtain ⟨low, same, high, eq, below, equal, above, ranked, _, found⟩ := h.exists_eq (key new)
  have hit : a[low.length]?.any (key · = key new) = same.isSome := by
    rw [← found, find?, ranked]
    cases a[low.length]? <;> simp [Option.filter_some, apply_ite]
  rw [put, ranked, hit, eq, inserted_append below equal above]
  cases same with
  | none =>
    have inside : low.length ≤ a.size := by simp [← Array.length_toList, eq]
    simp [Array.insertIdxIfInBounds, inside, eq, insertIdx_length]
  | some b => simp [eq]

theorem ascending_put (h : Ascending key a.toList) (new : α) :
    Ascending key (put key new a).toList := by
  rw [toList_put h]
  exact h.ascending_inserted new

end

end Ascending

end OrderedStore
