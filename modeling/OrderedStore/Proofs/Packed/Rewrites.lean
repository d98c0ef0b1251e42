import OrderedStore.Proofs.Packed.Chunks

/-! # Rewriting the chunk of a field

All that is done to one field is done to the chunk that is found for it: what that chunk holds under
the field is what all chunks together hold, and a field that is stored in it or taken out of it is
stored among all fields or taken out of them.
-/

namespace OrderedStore.Packed

variable {common field : Bytes} {cs low high : List Chunk} {old : Option Chunk}

theorem elementsOf_toList (common : Bytes) (old : Option Chunk) :
    elementsOf old.toList = (opened common old).elements := by
  cases old with
  | none => rfl
  | some c => simp [opened]

theorem elementsOf_remaining {c : Chunk} (asc : Ascending Element.field c.elements)
    (field : Bytes) : elementsOf (remaining field c) = c.elements.filter (·.field ≠ field) := by
  rw [remaining, ← erase_eq asc]
  by_cases nothing : (erase field c.elements).isEmpty = true
  · rw [if_pos nothing, List.isEmpty_iff.mp nothing]
    rfl
  · rw [if_neg nothing, elementsOf_cons]
    exact List.append_nil _

namespace Chunk.Sound

variable {c : Chunk} {e : Element}

theorem first (named : e.field ≠ []) (short : (common ++ e.field).length ≤ Record.maxKey) :
    (⟨common ++ firstMarker, [e]⟩ : Chunk).Sound common := by
  have bounded : (common ++ firstMarker).length ≤ Record.maxKey := by
    have pos := List.length_pos_iff.mpr named
    have marked : (common ++ firstMarker).length = common.length + 1 := List.length_append
    rw [List.length_append] at short
    exact Nat.le_trans (Nat.le_of_eq marked) (Nat.le_trans (Nat.add_le_add_left pos _) short)
  exact
    { isChunk := isChunkOf_append common (by decide)
      bounded := bounded
      filled := List.cons_ne_nil _ _
      ascending := List.pairwise_singleton _ _
      named := by simpa using named
      short := by simpa using short
      least := by simpa using Bytes.append_le_append_iff.mpr (firstMarker_le named) }

theorem including (sound : c.Sound common) (named : e.field ≠ [])
    (short : (common ++ e.field).length ≤ Record.maxKey) (reached : c.key ≤ common ++ e.field) :
    (c.including e).Sound common := by
  have elements_eq : (c.including e).elements = Ascending.inserted Element.field e c.elements :=
    insert_eq sound.ascending e
  have ascending : Ascending Element.field (c.including e).elements := by
    rw [elements_eq]
    exact sound.ascending.ascending_inserted e
  have held : ∀ x ∈ (c.including e).elements, x = e ∨ x ∈ c.elements := fun x member =>
    Ascending.mem_inserted (elements_eq ▸ member)
  refine
    { isChunk := sound.isChunk
      bounded := sound.bounded
      filled := ?_
      ascending := ascending
      named := ?_
      short := ?_
      least := ?_ }
  · rw [elements_eq, Ascending.inserted]
    simp
  · intro x member
    rcases held x member with rfl | before
    · exact named
    · exact sound.named x before
  · intro x member
    rcases held x member with rfl | before
    · exact short
    · exact sound.short x before
  · intro x member
    rcases held x member with rfl | before
    · exact reached
    · exact sound.least x before

theorem without (sound : c.Sound common) (some_left : erase field c.elements ≠ []) :
    (c.without field).Sound common := by
  have elements_eq : (c.without field).elements = c.elements.filter (·.field ≠ field) :=
    erase_eq sound.ascending field
  have ascending : Ascending Element.field (c.without field).elements := by
    rw [elements_eq]
    exact sound.ascending.filter _
  have kept : ∀ x ∈ (c.without field).elements, x ∈ c.elements := by
    intro x member
    rw [elements_eq] at member
    exact (List.mem_filter.mp member).1
  exact
    { isChunk := sound.isChunk
      bounded := sound.bounded
      filled := some_left
      ascending := ascending
      named := fun x member => sound.named x (kept x member)
      short := fun x member => sound.short x (kept x member)
      least := fun x member => sound.least x (kept x member) }

theorem remaining (sound : c.Sound common) (field : Bytes) :
    Laid common (remaining field c) ∧ ∀ c' ∈ Packed.remaining field c, c.key ≤ c'.key := by
  unfold Packed.remaining
  by_cases nothing : (erase field c.elements).isEmpty = true
  · rw [if_pos nothing]
    exact ⟨.nil common, List.forall_mem_nil _⟩
  · rw [if_neg nothing]
    refine ⟨.singleton (sound.without fun empty => nothing (List.isEmpty_iff.mpr empty)), ?_⟩
    intro c' member
    rw [List.mem_singleton.mp member]
    exact List.le_refl _

end Chunk.Sound

namespace Laid

theorem ascending_opened (laid : Laid common cs) (around : Around common field cs low old high) :
    Ascending Element.field (opened common old).elements := by
  cases old with
  | none => exact .nil
  | some c => exact (laid.sound c (around.mem c rfl)).ascending

theorem lookup_opened (laid : Laid common cs) (around : Around common field cs low old high) :
    lookup field (opened common old).elements
      = ((elementsOf cs).find? (·.field = field)).map (·.value) := by
  obtain ⟨below, above⟩ := around.sides laid
  have not_low : (elementsOf low).find? (·.field = field) = none := by
    apply List.find?_eq_none.mpr
    intro e member
    simpa using Std.ne_of_lt (below e member)
  have not_high : (elementsOf high).find? (·.field = field) = none := by
    apply List.find?_eq_none.mpr
    intro e member
    simpa using (Std.ne_of_lt (above e member)).symm
  rw [lookup_eq (laid.ascending_opened around), around.eq, elementsOf_append, elementsOf_append,
    List.find?_append, List.find?_append, not_low, not_high, Option.none_or, Option.or_none,
    elementsOf_toList common]

theorem sound_including (laid : Laid common cs) {e : Element}
    (around : Around common e.field cs low old high) (named : e.field ≠ [])
    (short : (common ++ e.field).length ≤ Record.maxKey) :
    ((opened common old).including e).Sound common := by
  cases old with
  | none => exact .first named short
  | some c => exact (laid.sound c (around.mem c rfl)).including named short (around.reached c rfl)

/-- Setting a field in its chunk, divided or not, sets it among all fields. -/
theorem set (laid : Laid common cs) {e : Element} (around : Around common e.field cs low old high)
    (named : e.field ≠ []) (short : (common ++ e.field).length ≤ Record.maxKey) (threshold : Nat) :
    Laid common (low ++ (divided common threshold ((opened common old).including e) ++ high))
      ∧ elementsOf (low ++ (divided common threshold ((opened common old).including e) ++ high))
        = Ascending.inserted Element.field e (elementsOf cs) := by
  obtain ⟨laid_new, elements, starts⟩ :=
    (laid.sound_including around named short).divided threshold
  have inserted : ((opened common old).including e).elements
      = Ascending.inserted Element.field e (opened common old).elements :=
    insert_eq (laid.ascending_opened around) e
  obtain ⟨below, above⟩ := around.sides laid
  constructor
  · apply around.replaced laid laid_new
    · intro o found c member
      rw [Option.mem_def.mp found] at starts member
      exact starts c member
    · intro x member
      rw [elements, inserted] at member
      rcases Ascending.mem_inserted member with rfl | held
      · exact .inl rfl
      · right
        cases old with
        | none => contradiction
        | some o => exact ⟨o, rfl, held⟩
  · rw [around.eq, elementsOf_append, elementsOf_append, elements, inserted, elementsOf_append,
      elementsOf_append, elementsOf_toList common, Ascending.inserted_between below above]

/-- Taking a field out of its chunk takes it out of all fields. -/
theorem delete (laid : Laid common cs) {c : Chunk}
    (around : Around common field cs low (some c) high) :
    Laid common (low ++ (remaining field c ++ high))
      ∧ elementsOf (low ++ (remaining field c ++ high))
        = (elementsOf cs).filter (·.field ≠ field) := by
  have sound := laid.sound c (around.mem c rfl)
  have elements := elementsOf_remaining sound.ascending field
  obtain ⟨laid_left, starts⟩ := sound.remaining field
  obtain ⟨below, above⟩ := around.sides laid
  constructor
  · apply around.replaced laid laid_left
    · intro o found
      obtain rfl := Option.some.inj found
      exact starts
    · intro e member
      rw [elements] at member
      exact .inr ⟨c, rfl, (List.mem_filter.mp member).1⟩
  · have whole : elementsOf cs = elementsOf low ++ (c.elements ++ elementsOf high) := by
      rw [around.eq]
      simp
    rw [whole, elementsOf_append, elementsOf_append, elements,
      Ascending.filter_ne_between below above]

theorem flatMap_remaining_of_absent (laid : Laid common cs)
    (absent : ∀ e ∈ elementsOf cs, e.field ≠ field) : cs.flatMap (remaining field) = cs := by
  have kept : ∀ c ∈ cs, remaining field c = [c] := by
    intro c member
    have sound := laid.sound c member
    have same : erase field c.elements = c.elements := by
      rw [erase_eq sound.ascending]
      apply List.filter_eq_self.mpr
      intro e held
      exact decide_eq_true (absent e (mem_elementsOf.mpr ⟨c, member, held⟩))
    rw [remaining, Chunk.without, same, if_neg (by simpa using sound.filled)]
  rw [List.flatMap_def, List.map_congr_left kept, ← List.flatMap_def, List.flatMap_singleton']

/-- Of all chunks only the one found for a field can lose it. -/
theorem flatMap_remaining (laid : Laid common cs) {c : Chunk}
    (around : Around common field cs low (some c) high) :
    cs.flatMap (remaining field) = low ++ (remaining field c ++ high) := by
  obtain ⟨below, above⟩ := around.sides laid
  rw [around.eq] at laid ⊢
  obtain ⟨laid_low, rest, _⟩ := Laid.append_iff.mp laid
  obtain ⟨_, laid_high, _⟩ := Laid.append_iff.mp rest
  have low_kept := laid_low.flatMap_remaining_of_absent fun e held => Std.ne_of_lt (below e held)
  have high_kept := laid_high.flatMap_remaining_of_absent fun e held =>
    (Std.ne_of_lt (above e held)).symm
  rw [List.flatMap_append, List.flatMap_append, low_kept, high_kept]
  simp

end Laid

end OrderedStore.Packed
