import Mathlib.Data.Nat.Dist
import OrderedStore.Proofs.Packed.Elements

/-! # Balanced splits

A value splits at the boundary where the walk along its elements stops coming nearer to the middle.
Behind the middle the two sides only move apart, so that no later boundary is as good, and of all
places to split this is the most even. The two halves differ by no more than the size of one element
there. Since a value grows by one element at a time, both halves of one that has just outgrown a
bound are back below it.
-/

namespace OrderedStore.Packed

/-- The difference in size between `left` of `all` bytes and the rest. -/
def imbalance (all left : Nat) : Nat := (left - (all - left)) + ((all - left) - left)

/-- The walk stops at a boundary with an imbalance of at most one size, if it starts at such a
boundary or before the middle. -/
theorem imbalance_balance {all left last most : Nat} {sizes : List Nat} (boundary : Nat)
    (whole : all = left + total id sizes + last) (small : ∀ n ∈ sizes, n ≤ most)
    (small_last : last ≤ most) (start : imbalance all left ≤ most ∨ 2 * left < all) :
    imbalance all (left + total id (sizes.take
      (balance all left (imbalance all left) boundary sizes - boundary))) ≤ most := by
  induction sizes generalizing left boundary with
  | nil =>
      rw [List.take_nil, total_nil, Nat.add_zero]
      rw [total_nil] at whole
      simp only [imbalance] at start ⊢
      omega
  | cons size sizes ih =>
      obtain ⟨small_size, small⟩ := List.forall_mem_cons.mp small
      rw [total_cons, id] at whole
      rw [balance]
      change imbalance all (left + total id ((size :: sizes).take
        ((if imbalance all (left + size) ≤ imbalance all left
          then balance all (left + size) (imbalance all (left + size)) (boundary + 1) sizes
          else boundary) - boundary))) ≤ most
      -- two neighbouring boundaries on either side of the middle differ by twice the size between
      split
      · next nearer =>
        obtain ⟨onward, _⟩ :=
          balance_bounds all (left + size) (imbalance all (left + size)) (boundary + 1) sizes
        have start' : imbalance all (left + size) ≤ most ∨ 2 * (left + size) < all := by
          simp only [imbalance] at start nearer ⊢
          omega
        have rest := ih (boundary + 1) (by omega) small start'
        have steps : balance all (left + size) (imbalance all (left + size)) (boundary + 1) sizes
            - boundary = balance all (left + size) (imbalance all (left + size)) (boundary + 1)
              sizes - (boundary + 1) + 1 := by omega
        rw [steps, List.take_succ_cons, total_cons, id, ← Nat.add_assoc]
        exact rest
      · next farther =>
        rw [Nat.sub_self, List.take_zero, total_nil, Nat.add_zero]
        simp only [imbalance] at start farther ⊢
        omega

theorem total_take_add_drop (es : List Element) (i : Nat) :
    total Element.size (es.take i) + total Element.size (es.drop i) = total Element.size es := by
  rw [← total_append, List.take_append_drop]

theorem splitPoint_concat (first last : Element) (init : List Element) :
    splitPoint (first :: (init ++ [last]))
      = some (balance (total Element.size (first :: (init ++ [last]))) first.size
        (imbalance (total Element.size (first :: (init ++ [last]))) first.size) 1
        (init.map Element.size)) := by
  have inner : ((init ++ [last]).map Element.size).dropLast = init.map Element.size := by
    rw [List.map_append]
    exact List.dropLast_concat
  rw [← inner]
  cases init with
  | nil => rfl
  | cons second init => rfl

/-- Where elements split, the imbalance is at most the largest size of an element. -/
theorem imbalance_splitPoint {es : List Element} {i most : Nat} (split : splitPoint es = some i)
    (small : ∀ e ∈ es, e.size ≤ most) :
    imbalance (total Element.size es) (total Element.size (es.take i)) ≤ most := by
  cases es with
  | nil => contradiction
  | cons first es =>
      rcases List.eq_nil_or_concat es with rfl | ⟨init, last, rfl⟩
      · contradiction
      · rw [List.concat_eq_append] at split small ⊢
        obtain ⟨small_first, small⟩ := List.forall_mem_cons.mp small
        obtain ⟨small_init, small_last⟩ := List.forall_mem_append.mp small
        have sizes : ∀ n ∈ init.map Element.size, n ≤ most := by
          simpa using small_init
        have whole : total Element.size (first :: (init ++ [last]))
            = first.size + total id (init.map Element.size) + last.size := by
          rw [total_cons, total_append, total_map, total_cons, total_nil]
          exact (Nat.add_assoc _ _ _).symm
        have start : imbalance (total Element.size (first :: (init ++ [last]))) first.size ≤ most
            ∨ 2 * first.size < total Element.size (first :: (init ++ [last])) := by
          rw [imbalance]
          omega
        have near := imbalance_balance 1 whole sizes (small_last last (by simp)) start
        rw [splitPoint_concat] at split
        obtain ⟨low, high⟩ := balance_bounds (total Element.size (first :: (init ++ [last])))
          first.size (imbalance (total Element.size (first :: (init ++ [last]))) first.size) 1
          (init.map Element.size)
        rw [Option.some.inj split] at near low high
        rw [List.length_map] at high
        obtain ⟨k, rfl⟩ : ∃ k, i = k + 1 := ⟨i - 1, by omega⟩
        rw [Nat.add_sub_cancel, ← List.map_take, total_map] at near
        rw [List.take_succ_cons, total_cons, List.take_append_of_le_length (by omega)]
        exact near

theorem splitPoint_halves {es : List Element} {i most : Nat} (split : splitPoint es = some i)
    (small : ∀ e ∈ es, e.size ≤ most) :
    2 * total Element.size (es.take i) ≤ total Element.size es + most
      ∧ 2 * total Element.size (es.drop i) ≤ total Element.size es + most := by
  have near := imbalance_splitPoint split small
  have whole := total_take_add_drop es i
  rw [imbalance] at near
  omega

/-- Behind `steps` of the sizes the imbalance is least, and it is greater behind more of them. -/
structure LeastBehind (all left : Nat) (sizes : List Nat) (steps : Nat) : Prop where
  inside : steps ≤ sizes.length
  least : ∀ j, imbalance all (left + total id (sizes.take steps))
    ≤ imbalance all (left + total id (sizes.take j))
  last : ∀ j, steps < j → j ≤ sizes.length →
    imbalance all (left + total id (sizes.take steps))
      < imbalance all (left + total id (sizes.take j))

theorem total_take_succ (size j : Nat) (sizes : List Nat) :
    total id ((size :: sizes).take (j + 1)) = size + total id (sizes.take j) := by
  rw [List.take_succ_cons, total_cons, id]

theorem LeastBehind.cons {all left size steps : Nat} {sizes : List Nat}
    (rest : LeastBehind all (left + size) sizes steps)
    (nearer : imbalance all (left + size) ≤ imbalance all left) :
    LeastBehind all left (size :: sizes) (steps + 1) := by
  obtain ⟨inside, least, last⟩ := rest
  have here : left + total id ((size :: sizes).take (steps + 1))
      = left + size + total id (sizes.take steps) := by
    rw [total_take_succ, Nat.add_assoc]
  refine ⟨Nat.succ_le_succ inside, ?_, ?_⟩
  · intro j
    rw [here]
    cases j with
    | zero => exact Nat.le_trans (least 0) nearer
    | succ j =>
        rw [total_take_succ, ← Nat.add_assoc]
        exact least j
  · intro j more within
    rw [here]
    cases j with
    | zero => contradiction
    | succ j =>
        rw [total_take_succ, ← Nat.add_assoc]
        exact last j (Nat.lt_of_succ_lt_succ more) (Nat.le_of_succ_le_succ within)

theorem le_of_imbalance_lt {all left right : Nat} (onward : left ≤ right)
    (farther : imbalance all left < imbalance all right) : all ≤ 2 * right := by
  unfold imbalance at farther
  omega

theorem imbalance_mono {all left right : Nat} (past : all ≤ 2 * left) (onward : left ≤ right) :
    imbalance all left ≤ imbalance all right := by
  unfold imbalance
  omega

/-- A walk that the next size leads away from the middle has passed it, and stops. -/
theorem LeastBehind.stop {all left size : Nat} {sizes : List Nat}
    (farther : imbalance all left < imbalance all (left + size)) :
    LeastBehind all left (size :: sizes) 0 := by
  have past := le_of_imbalance_lt (Nat.le_add_right left size) farther
  have behind (j : Nat) : imbalance all left
      < imbalance all (left + total id ((size :: sizes).take (j + 1))) := by
    rw [total_take_succ, ← Nat.add_assoc]
    exact Nat.lt_of_lt_of_le farther (imbalance_mono past (Nat.le_add_right _ _))
  refine ⟨Nat.zero_le _, ?_, ?_⟩
  · intro j
    cases j with
    | zero => exact Nat.le_refl _
    | succ j => exact Nat.le_of_lt (behind j)
  · intro j more _
    cases j with
    | zero => contradiction
    | succ j => exact behind j

/-- By induction on the sizes that the walk has before it. -/
theorem exists_balance_eq (all left : Nat) (sizes : List Nat) (boundary : Nat) :
    ∃ steps, balance all left (imbalance all left) boundary sizes = boundary + steps
      ∧ LeastBehind all left sizes steps := by
  induction sizes generalizing left boundary with
  | nil =>
      refine ⟨0, rfl, Nat.le_refl _, ?_, ?_⟩
      · intro j
        rw [List.take_nil, List.take_nil]
      · intro j more within
        exact absurd more (Nat.not_lt.mpr within)
  | cons size sizes ih =>
      rw [balance]
      change ∃ steps, (if imbalance all (left + size) ≤ imbalance all left
          then balance all (left + size) (imbalance all (left + size)) (boundary + 1) sizes
          else boundary) = boundary + steps ∧ LeastBehind all left (size :: sizes) steps
      by_cases nearer : imbalance all (left + size) ≤ imbalance all left
      · obtain ⟨steps, stopped, least⟩ := ih (left + size) (boundary + 1)
        rw [if_pos nearer]
        exact ⟨steps + 1, by omega, least.cons nearer⟩
      · rw [if_neg nearer]
        exact ⟨0, rfl, .stop (Nat.not_le.mp nearer)⟩

/-- How far the sizes of the first `i` elements and of the others lie apart. -/
def unevenness (es : List Element) (i : Nat) : Nat :=
  Nat.dist (total Element.size (es.take i)) (total Element.size (es.drop i))

/-- No other place to split elements in two is more even, and no later one as even. -/
structure SplitsEvenly (es : List Element) (i : Nat) : Prop where
  some_left : 0 < i
  some_right : i < es.length
  least : ∀ j, 0 < j → j < es.length → unevenness es i ≤ unevenness es j
  last : ∀ j, i < j → j < es.length → unevenness es i < unevenness es j

theorem unevenness_eq (es : List Element) (i : Nat) :
    unevenness es i = imbalance (total Element.size es) (total Element.size (es.take i)) := by
  have whole := total_take_add_drop es i
  simp only [unevenness, Nat.dist, imbalance]
  omega

theorem SplitsEvenly.unique {es : List Element} {i j : Nat} (at_i : SplitsEvenly es i)
    (at_j : SplitsEvenly es j) : i = j := by
  rcases Nat.lt_trichotomy i j with before | same | behind
  · have more := at_i.last j before at_j.some_right
    exact absurd (at_j.least i at_i.some_left at_i.some_right) (Nat.not_le.mpr more)
  · exact same
  · have more := at_j.last i behind at_i.some_right
    exact absurd (at_i.least j at_j.some_left at_j.some_right) (Nat.not_le.mpr more)

theorem splitsEvenly_of_splitPoint {es : List Element} {i : Nat} (split : splitPoint es = some i) :
    SplitsEvenly es i := by
  obtain ⟨some_left, some_right⟩ := splitPoint_bounds split
  cases es with
  | nil => contradiction
  | cons first es =>
      rcases List.eq_nil_or_concat es with rfl | ⟨init, last, rfl⟩
      · contradiction
      · rw [List.concat_eq_append] at split some_right ⊢
        rw [splitPoint_concat, Option.some.injEq] at split
        obtain ⟨steps, stopped, inside, least, latest⟩ := exists_balance_eq
          (total Element.size (first :: (init ++ [last]))) first.size (init.map Element.size) 1
        -- a boundary before the last element lies behind the first one and some of those between
        have between (j : Nat) (within : j ≤ init.length) :
            unevenness (first :: (init ++ [last])) (j + 1)
              = imbalance (total Element.size (first :: (init ++ [last])))
                (first.size + total id ((init.map Element.size).take j)) := by
          rw [unevenness_eq, List.take_succ_cons, total_cons, List.take_append_of_le_length within,
            ← List.map_take, total_map]
          rfl
        obtain rfl : i = steps + 1 := by omega
        rw [List.length_map] at inside latest
        refine ⟨some_left, some_right, ?_, ?_⟩
        · intro j some_left some_right
          simp only [List.length_cons, List.length_append, List.length_nil] at some_right
          obtain ⟨j, rfl⟩ : ∃ k, j = k + 1 := ⟨j - 1, by omega⟩
          rw [between steps inside, between j (by omega)]
          exact least j
        · intro j later some_right
          simp only [List.length_cons, List.length_append, List.length_nil] at some_right
          obtain ⟨j, rfl⟩ : ∃ k, j = k + 1 := ⟨j - 1, by omega⟩
          rw [between steps inside, between j (by omega)]
          exact latest j (by omega) (by omega)

theorem splitPoint_eq_some_iff {es : List Element} {i : Nat} :
    splitPoint es = some i ↔ SplitsEvenly es i := by
  constructor
  · exact splitsEvenly_of_splitPoint
  · intro evenly
    cases split : splitPoint es with
    | none =>
        have few := splitPoint_eq_none_iff.mp split
        have some_left := evenly.some_left
        have some_right := evenly.some_right
        omega
    | some j => rw [(splitsEvenly_of_splitPoint split).unique evenly]

/-- Elements split if there are two of them at least, where the two sides differ least in size, the
last such place. The sides differ by the largest element at most. -/
theorem splitPoint_evenly (es : List Element) :
    (splitPoint es = none ↔ es.length < 2)
      ∧ (∀ i, splitPoint es = some i ↔ SplitsEvenly es i)
      ∧ ∀ i, SplitsEvenly es i → ∀ most ∈ (es.map Element.size).max?, unevenness es i ≤ most := by
  refine ⟨splitPoint_eq_none_iff, fun i => splitPoint_eq_some_iff, ?_⟩
  intro i evenly most largest
  have small : ∀ e ∈ es, e.size ≤ most := fun e member =>
    (List.max?_eq_some_iff.mp largest).2 e.size (List.mem_map_of_mem member)
  rw [unevenness_eq]
  exact imbalance_splitPoint (splitPoint_eq_some_iff.mpr evenly) small

/-- Three elements of five bytes, as uneven behind the first as behind the second. -/
def threeAlike : List Element := [⟨[1], [0, 0]⟩, ⟨[2], [0, 0]⟩, ⟨[3], [0, 0]⟩]

theorem splitPoint_evenly_alike : unevenness threeAlike 1 = unevenness threeAlike 2
    ∧ splitPoint threeAlike = some 2 ∧ SplitsEvenly threeAlike 2 ∧ unevenness threeAlike 2 ≤ 5 := by
  obtain ⟨_, places, bound⟩ := splitPoint_evenly threeAlike
  have evenly : SplitsEvenly threeAlike 2 := (places 2).mp (by decide)
  exact ⟨by decide, by decide, evenly, bound 2 evenly 5 (by decide)⟩

end OrderedStore.Packed
