import Mathlib.Data.Nat.Dist
import OrderedStore.Proofs.Block.Reshapes

/-! # Where a split cuts

A split looks at two boundaries only: the first one at or past the middle, and the one before it. The
middle is rounded down to whole bytes, and of two boundaries equally far from it the upper is taken.
Measured from the exact middle, the one taken is still the nearest; two that are equally near are told
apart by whether the used bytes are even.
-/

namespace OrderedStore.Block

/-- Where the first `count` records end. -/
def boundary (b : Block) (count : Nat) : Nat := Run.size (b.run.take count)

/-- The cut behind `count` records is at least as good as the cut behind `other` records. -/
structure CutsBetter (b : Block) (count other : Nat) : Prop where
  /-- It is no farther from the middle rounded down, and above the other at the same distance. -/
  rounded : Nat.dist (b.boundary count) (b.used / 2) ≤ Nat.dist (b.boundary other) (b.used / 2)
  rounded_tie : Nat.dist (b.boundary count) (b.used / 2) = Nat.dist (b.boundary other) (b.used / 2) →
    other < count
  /-- It is no farther from the exact middle. -/
  nearest : Nat.dist (2 * b.boundary count) b.used ≤ Nat.dist (2 * b.boundary other) b.used
  tie_even : Nat.dist (2 * b.boundary count) b.used = Nat.dist (2 * b.boundary other) b.used →
    b.used % 2 = 0 → other < count
  tie_odd : Nat.dist (2 * b.boundary count) b.used = Nat.dist (2 * b.boundary other) b.used →
    b.used % 2 = 1 → count < other

/-- What a split behind `count` records gives: the two parts, or a fault that leaves the block alone if
no capacity holds the lower part. -/
inductive CutsAt (b : Block) (l : Ledger) (count : Nat) : SplitResult → Prop where
  | parts {lower upper : Block} {l' : Ledger} : lower.run = b.run.take count →
      lower.used = b.boundary count → upper.run = b.run.drop count →
      upper.used = b.used - b.boundary count → CutsAt b l count ⟨.ok (some lower), upper, l'⟩
  | tooLarge : b.ladder.max < b.boundary count →
      CutsAt b l count ⟨.error (.corruption .lowerHalfTooLarge), b, l⟩

theorem getD_ends (offset : Nat) {run : Run} {i : Nat} (inside : i < run.length) :
    (ends offset run).getD i 0 = offset + Run.size (run.take (i + 1)) := by
  induction run generalizing offset i with
  | nil => contradiction
  | cons r run ih =>
      rw [List.take_succ_cons, Run.size_cons]
      cases i with
      | zero => rfl
      | succ i =>
          have rest := ih (offset + r.size) (Nat.lt_of_succ_lt_succ inside)
          rw [ends, List.getD_cons_succ, rest, Nat.add_assoc]

section

variable {b : Block}

theorem boundary_mono {i j : Nat} (upto : i ≤ j) : b.boundary i ≤ b.boundary j :=
  total_le_of_sublist Record.size (List.take_sublist_take_left upto)

theorem boundary_lt {i j : Nat} (less : i < j) (inside : j ≤ b.run.length) :
    b.boundary i < b.boundary j := by
  have here : i < b.run.length := Nat.lt_of_lt_of_le less inside
  have filled := (b.run[i]).size_pos
  have next : b.boundary (i + 1) = b.boundary i + (b.run[i]).size := by
    have single : Run.size [b.run[i]] = (b.run[i]).size := Nat.add_zero _
    rw [boundary, boundary, List.take_succ_eq_append_getElem here, Run.size_append, single]
  have upto : b.boundary (i + 1) ≤ b.boundary j := boundary_mono less
  omega

theorem WellFormed.boundary_length (wf : b.WellFormed) : b.boundary b.run.length = b.used := by
  rw [boundary, List.take_length, wf.used]

theorem WellFormed.exists_first (wf : b.WellFormed) (many : 2 ≤ b.run.length) :
    ∃ first, (ends 0 b.run).findIdx? (b.used / 2 ≤ ·) = some first ∧ first < b.run.length
      ∧ b.used / 2 ≤ b.boundary (first + 1)
      ∧ ∀ count, 0 < count → count ≤ first → b.boundary count < b.used / 2 := by
  have stop {i : Nat} (inside : i < (ends 0 b.run).length) :
      (ends 0 b.run)[i] = b.boundary (i + 1) := by
    have at_i := getD_ends 0 (length_ends 0 b.run ▸ inside)
    rw [List.getD_eq_getElem?_getD, List.getElem?_eq_getElem inside, Nat.zero_add] at at_i
    exact at_i
  have length := length_ends 0 b.run
  cases found : (ends 0 b.run).findIdx? (b.used / 2 ≤ ·) with
  | none =>
      have last : b.run.length - 1 < (ends 0 b.run).length := by omega
      have passed := List.findIdx?_eq_none_iff.mp found _ (List.getElem_mem last)
      have whole : b.run.length - 1 + 1 = b.run.length := by omega
      rw [stop, whole, wf.boundary_length, decide_eq_false_iff_not] at passed
      exact absurd (Nat.div_le_self b.used 2) passed
  | some first =>
      obtain ⟨inside, reached, before⟩ := List.findIdx?_eq_some_iff_getElem.mp found
      rw [stop, decide_eq_true_iff] at reached
      refine ⟨first, rfl, length ▸ inside, reached, fun count some_lower upto => ?_⟩
      have passed := before (count - 1) (by omega)
      have whole : count - 1 + 1 = count := by omega
      rw [stop, whole, decide_eq_true_iff] at passed
      exact Nat.not_le.mp passed

/-- A split cuts at the last boundary before the middle or at the next one, the lower if it is nearer
or if nothing would be left above the other. -/
theorem WellFormed.exists_splitCount_eq (wf : b.WellFormed) (many : 2 ≤ b.run.length) :
    ∃ first, first < b.run.length ∧ b.used / 2 ≤ b.boundary (first + 1)
      ∧ (∀ count, 0 < count → count ≤ first → b.boundary count < b.used / 2)
      ∧ (splitCount b.run b.used = first ∧ (first + 1 = b.run.length
            ∨ b.used / 2 - b.boundary first < b.boundary (first + 1) - b.used / 2)
          ∨ splitCount b.run b.used = first + 1 ∧ (first = 0
            ∨ b.boundary (first + 1) - b.used / 2 ≤ b.used / 2 - b.boundary first)) := by
  obtain ⟨first, found, inside, reached, before⟩ := wf.exists_first many
  refine ⟨first, inside, reached, before, ?_⟩
  have after : (ends 0 b.run).getD first 0 = b.boundary (first + 1) := by
    rw [getD_ends 0 inside, Nat.zero_add]
    rfl
  rw [splitCount, found, length_ends, Option.getD_some, after]
  cases first with
  | zero =>
      have chosen : min 0 (b.run.length - 2) + 1 = 1 := by omega
      exact .inr ⟨chosen, .inl rfl⟩
  | succ first =>
      have previous : (ends 0 b.run).getD (first + 1 - 1) 0 = b.boundary (first + 1) := by
        rw [Nat.add_sub_cancel, getD_ends 0 (Nat.lt_of_succ_lt inside), Nat.zero_add]
        rfl
      rw [previous]
      split <;> omega

theorem WellFormed.cutsAt (wf : b.WellFormed) (many : 2 ≤ b.run.length) (l : Ledger) :
    b.CutsAt l (splitCount b.run b.used) (b.split l false) := by
  cases held : b.ladder.holding? (b.boundary (splitCount b.run b.used)) with
  | none =>
      rw [wf.split_of_not_held many l held]
      refine .tooLarge (Nat.lt_of_not_le fun small => ?_)
      obtain ⟨size, found, _⟩ := Ladder.exists_holding? small
      rw [held] at found
      cases found
  | some size =>
      rw [wf.split_of_held many l held]
      exact .parts rfl rfl (run_upperPart b _) rfl

theorem CutsBetter.of_lt {count other : Nat} (less : count < other)
    (apart : b.boundary count < b.boundary other)
    (nearer : b.used / 2 - b.boundary count < b.boundary other - b.used / 2) :
    b.CutsBetter count other := by
  constructor <;> simp only [Nat.dist] <;> omega

theorem CutsBetter.of_gt {count other : Nat} (greater : other < count)
    (apart : b.boundary other < b.boundary count)
    (nearer : b.boundary count - b.used / 2 ≤ b.used / 2 - b.boundary other) :
    b.CutsBetter count other := by
  constructor <;> simp only [Nat.dist] <;> omega

/-- The cut of a split is better than any other. -/
theorem WellFormed.cutsBetter (wf : b.WellFormed) (many : 2 ≤ b.run.length) {other : Nat}
    (some_lower : 0 < other) (some_upper : other < b.run.length)
    (differs : other ≠ splitCount b.run b.used) :
    b.CutsBetter (splitCount b.run b.used) other := by
  obtain ⟨first, inside, reached, before, chosen⟩ := wf.exists_splitCount_eq many
  have some_count := (splitCount_bounds many b.used).1
  have still := (splitCount_bounds many b.used).2
  generalize splitCount b.run b.used = count at *
  rcases Nat.lt_or_gt_of_ne differs with lower | upper
  · refine .of_gt lower (boundary_lt lower (Nat.le_of_lt still)) ?_
    rcases chosen with ⟨rfl, _⟩ | ⟨rfl, nearer⟩
    · have below := before count some_count (Nat.le_refl _)
      omega
    · have upto : b.boundary other ≤ b.boundary first := boundary_mono (Nat.le_of_lt_succ lower)
      omega
  · refine .of_lt upper (boundary_lt upper (Nat.le_of_lt some_upper)) ?_
    rcases chosen with ⟨rfl, nearer⟩ | ⟨rfl, _⟩
    · have upto : b.boundary (count + 1) ≤ b.boundary other := boundary_mono upper
      omega
    · have apart := boundary_lt upper (Nat.le_of_lt some_upper)
      omega

/-- Among the cuts that leave a record on either side, a split takes the one that is nearest to the
middle. Of two that are equally near it takes the upper if the used bytes are even, and the lower if
they are odd. -/
theorem WellFormed.split_nearest (wf : b.WellFormed) (many : 2 ≤ b.run.length) (l : Ledger) :
    ∃ count, 0 < count ∧ count < b.run.length ∧ b.CutsAt l count (b.split l false)
      ∧ ∀ other, 0 < other → other < b.run.length → other ≠ count → b.CutsBetter count other := by
  obtain ⟨some_lower, some_upper⟩ := splitCount_bounds many b.used
  refine ⟨_, some_lower, some_upper, wf.cutsAt many l, ?_⟩
  exact fun other first last differs => wf.cutsBetter many first last differs

end

/-- A block with an even number of used bytes, the middle in the middle of its second record. -/
def evenly : Block :=
  { scratch 40 ⟨⟨64⟩, 0.25, 0.5⟩ with
    records := #[⟨[1], List.replicate 7 0, false⟩, ⟨[2], List.replicate 11 0, false⟩,
      ⟨[3], List.replicate 7 0, false⟩]
    used := 40
    recordCount := 3 }

theorem split_nearest_evenly : ∃ count, evenly.CutsAt (.create false) count
    (evenly.split (.create false) false) ∧ count = 2 := by
  obtain ⟨count, some_lower, some_upper, cuts, better⟩ :=
    WellFormed.split_nearest (b := evenly) (by decide) (by decide) (.create false)
  refine ⟨count, cuts, Decidable.byContradiction fun differs => ?_⟩
  have tie := (better 2 (by decide) (by decide) (Ne.symm differs)).tie_even
  have first : count = 1 := by
    have length : evenly.run.length = 3 := rfl
    omega
  subst first
  exact absurd (tie (by decide) (by decide)) (by decide)

/-- The same with an odd number of used bytes. -/
def oddly : Block :=
  { scratch 40 ⟨⟨64⟩, 0.25, 0.5⟩ with
    records := #[⟨[1], List.replicate 5 0, false⟩, ⟨[2], List.replicate 10 0, false⟩,
      ⟨[3], List.replicate 5 0, false⟩]
    used := 35
    recordCount := 3 }

/-- The ends of the first two records are equally near the middle, and the split takes the lower. -/
theorem split_oddly : oddly.WellFormed ∧ 2 < oddly.run.length
    ∧ Nat.dist (2 * oddly.boundary 1) oddly.used = Nat.dist (2 * oddly.boundary 2) oddly.used
    ∧ oddly.boundary 1 < oddly.boundary 2
    ∧ (oddly.split (.create false) false).block.run = oddly.run.drop 1
    ∧ ∃ lower, (oddly.split (.create false) false).lower = .ok (some lower)
      ∧ lower.run = oddly.run.take 1 ∧ lower.used = oddly.boundary 1 :=
  ⟨by decide, by decide, by decide, by decide, rfl, _, rfl, rfl, rfl⟩

end OrderedStore.Block
