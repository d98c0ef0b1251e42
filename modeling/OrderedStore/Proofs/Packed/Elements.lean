import OrderedStore.Packed.Element
import OrderedStore.Proofs.Run.Updates

/-! # Elements in the order of their fields

What the walks over sorted elements find, store and remove is what a search through all of them,
the list with a new member in its place and a filter give.
-/

namespace OrderedStore.Packed

variable {e : Element} {es : List Element}

theorem lookup_eq (asc : Ascending Element.field es) (field : Bytes) :
    lookup field es = (es.find? (·.field = field)).map (·.value) := by
  induction es with
  | nil => rfl
  | cons e es ih =>
      obtain ⟨least, asc⟩ := List.pairwise_cons.mp asc
      rw [lookup, List.find?_cons]
      by_cases same : e.field = field
      · simp [same]
      · rw [if_neg same, decide_eq_false same]
        by_cases less : field < e.field
        · have none_there : es.find? (·.field = field) = none := by
            apply List.find?_eq_none.mpr
            intro other member
            have more : field < other.field := List.lt_trans less (least other member)
            simpa using (Std.ne_of_lt more).symm
          rw [if_pos less, none_there]
          rfl
        · rw [if_neg less]
          exact ih asc

theorem insert_eq (asc : Ascending Element.field es) (new : Element) :
    insert new es = Ascending.inserted Element.field new es := by
  induction es with
  | nil => rfl
  | cons e es ih =>
      obtain ⟨least, asc⟩ := List.pairwise_cons.mp asc
      have alone : ∀ b ∈ ([] : List Element), b.field < e.field := by simp
      rw [insert]
      by_cases less : e.field < new.field
      · rw [if_pos less, ih asc]
        exact (Ascending.inserted_of_gt less alone).symm
      · rw [if_neg less]
        by_cases same : e.field = new.field
        · rw [if_pos same]
          exact (Ascending.inserted_of_eq same.symm alone least).symm
        · rw [if_neg same]
          have more : new.field < e.field := Std.lt_of_le_of_ne (List.not_lt.mp less) (Ne.symm same)
          have first : Ascending.inserted Element.field new ([] ++ e :: es)
              = Ascending.inserted Element.field new [] ++ e :: es :=
            Ascending.inserted_of_lt more least
          exact first.symm

theorem erase_eq (asc : Ascending Element.field es) (field : Bytes) :
    erase field es = es.filter (·.field ≠ field) := by
  induction es with
  | nil => rfl
  | cons e es ih =>
      obtain ⟨least, asc⟩ := List.pairwise_cons.mp asc
      rw [erase]
      by_cases same : e.field = field
      · have others : es.filter (·.field ≠ field) = es := by
          apply List.filter_eq_self.mpr
          intro other member
          simpa [← same] using (Std.ne_of_lt (least other member)).symm
        rw [if_pos same, List.filter_cons_of_neg (by simpa using same), others]
      · rw [if_neg same, List.filter_cons_of_pos (by simpa using same), ih asc]

theorem balance_bounds (all left best boundary : Nat) (sizes : List Nat) :
    boundary ≤ balance all left best boundary sizes
      ∧ balance all left best boundary sizes ≤ boundary + sizes.length := by
  induction sizes generalizing left best boundary with
  | nil => exact ⟨Nat.le_refl _, Nat.le_refl _⟩
  | cons size sizes ih =>
      rw [balance, List.length_cons]
      split
      · obtain ⟨low, high⟩ := ih (left + size)
          ((left + size - (all - (left + size))) + (all - (left + size) - (left + size)))
          (boundary + 1)
        omega
      · omega

theorem splitPoint_eq_none_iff : splitPoint es = none ↔ es.length < 2 := by
  cases es with
  | nil => simp [splitPoint]
  | cons first es =>
      cases es with
      | nil => simp [splitPoint]
      | cons second es => simp [splitPoint]

theorem splitPoint_bounds {i : Nat} (split : splitPoint es = some i) :
    0 < i ∧ i < es.length := by
  cases es with
  | nil => contradiction
  | cons first es =>
      cases es with
      | nil => contradiction
      | cons second es =>
          obtain rfl := Option.some.inj split
          obtain ⟨low, high⟩ := balance_bounds
            (total Element.size (first :: second :: es)) first.size
            ((first.size - (total Element.size (first :: second :: es) - first.size))
              + (total Element.size (first :: second :: es) - first.size - first.size)) 1
            ((second.size :: es.map Element.size).dropLast)
          rw [List.length_dropLast, List.length_cons, List.length_map] at high
          simp only [List.length_cons]
          exact ⟨low, by omega⟩

theorem erase_sublist (field : Bytes) (es : List Element) : (erase field es).Sublist es := by
  induction es with
  | nil => exact .slnil
  | cons e es ih =>
      rw [erase]
      split
      · exact List.sublist_cons_self e es
      · exact ih.cons_cons e

end OrderedStore.Packed
