import OrderedStore.Directory

/-! # Directories around one entry

Every step on a store looks at one entry of its directory and changes a few entries around it. The
lemmas take the list of the entries apart at that entry, say what each look-up gives there, and what
the list is after something is published or retired.
-/

namespace OrderedStore.Directory

variable {α : Type} {d : Directory α} {low high : List (Entry α)} {e : Entry α}

theorem anchors_around (eq : d.toList = low ++ e :: high) :
    (∀ x ∈ low, x.anchor < e.anchor) ∧ (∀ x ∈ high, e.anchor < x.anchor) := by
  have asc := d.ascending
  rw [show d.tree.toList = low ++ e :: high from eq] at asc
  obtain ⟨_, tail, across⟩ := List.pairwise_append.mp asc
  obtain ⟨above, _⟩ := List.pairwise_cons.mp tail
  exact ⟨fun x member => across x member e List.mem_cons_self, above⟩

theorem below_all (eq : d.toList = low ++ e :: high) {key : Bytes}
    (below : ∀ next ∈ high.head?, key < next.anchor) : ∀ x ∈ high, key < x.anchor := by
  cases high with
  | nil => simp
  | cons next high =>
      have split : d.toList = (low ++ [e]) ++ next :: high := by simp [eq]
      have less := below next rfl
      refine List.forall_mem_cons.mpr ⟨less, fun x member => ?_⟩
      exact List.lt_trans less ((anchors_around split).2 x member)

theorem published?_eq_some (eq : d.toList = low ++ e :: high) :
    d.published? e.anchor = some e.value := by
  have below := (anchors_around eq).1
  have other : low.find? (·.anchor = e.anchor) = none := by
    simp only [List.find?_eq_none, decide_eq_true_eq]
    intro x member same
    exact absurd (below x member) (same ▸ List.lt_irrefl _)
  rw [published?_eq, eq, List.find?_append, other]
  simp

theorem exists_of_published? {anchor : Bytes} {value : α}
    (found : d.published? anchor = some value) :
    ∃ low high, d.toList = low ++ ⟨anchor, value⟩ :: high := by
  rw [published?_eq, Option.map_eq_some_iff] at found
  obtain ⟨e, found, rfl⟩ := found
  obtain rfl : e.anchor = anchor := by simpa using List.find?_some found
  exact List.append_of_mem (List.mem_of_find?_eq_some found)

/-- The entries around the one that owns a key: the last with an anchor at or below it. -/
structure Owns (d : Directory α) (key : Bytes) (low : List (Entry α)) (e : Entry α)
    (high : List (Entry α)) : Prop where
  eq : d.toList = low ++ e :: high
  least : e.anchor ≤ key
  below : ∀ next ∈ high.head?, key < next.anchor

theorem owns_anchor (eq : d.toList = low ++ e :: high) : d.Owns e.anchor low e high where
  eq := eq
  least := List.le_refl _
  below next member := (anchors_around eq).2 next (List.mem_of_mem_head? member)

namespace Owns

variable {key : Bytes}

theorem filter_le_eq (owns : d.Owns key low e high) :
    d.toList.filter (·.anchor ≤ key) = low ++ [e] := by
  obtain ⟨before, _⟩ := anchors_around owns.eq
  have low_below : ∀ x ∈ low, x.anchor ≤ key := fun x member =>
    List.le_trans (List.le_of_lt (before x member)) owns.least
  have low_all : low.filter (·.anchor ≤ key) = low := by simpa using low_below
  obtain ⟨_, _, high_none, _⟩ := Ascending.filter_of_above (below_all owns.eq owns.below)
  rw [owns.eq, List.filter_append, low_all, List.filter_cons_of_pos (by simpa using owns.least),
    high_none]

theorem filter_gt_eq (owns : d.Owns key low e high) : d.toList.filter (key < ·.anchor) = high := by
  obtain ⟨before, _⟩ := anchors_around owns.eq
  have low_below : ∀ x ∈ low, x.anchor ≤ key := fun x member =>
    List.le_trans (List.le_of_lt (before x member)) owns.least
  have low_none : low.filter (key < ·.anchor) = [] := by simpa using low_below
  obtain ⟨high_all, _⟩ := Ascending.filter_of_above (below_all owns.eq owns.below)
  rw [owns.eq, List.filter_append, low_none, List.filter_cons_of_neg (by simpa using owns.least),
    high_all, List.nil_append]

theorem around_eq (owns : d.Owns key low e high) : d.around key = (some e, high.head?) := by
  rw [SearchTree.around_eq, owns.filter_le_eq, owns.filter_gt_eq, List.getLast?_concat]

theorem floor?_eq (owns : d.Owns key low e high) : d.floor? key = some e := by
  rw [floor?, owns.around_eq]

theorem inside (owns : d.Owns key low e high) :
    ∀ bound ∈ high.head?.map (·.anchor), key < bound := by
  intro bound member
  obtain ⟨next, head, rfl⟩ := Option.map_eq_some_iff.mp member
  exact owns.below next head

end Owns

theorem lower?_eq_getLast? (eq : d.toList = low ++ e :: high) :
    d.lower? e.anchor = low.getLast? := by
  obtain ⟨before, after⟩ := anchors_around eq
  obtain ⟨low_all, _⟩ := Ascending.filter_of_below before
  obtain ⟨_, _, _, high_none⟩ := Ascending.filter_of_above after
  rw [lower?_eq, eq, List.filter_append, low_all, List.filter_cons_of_neg (by simp), high_none,
    List.append_nil]

theorem toList_publish_same (eq : d.toList = low ++ e :: high) (value : α) :
    (d.publish e.anchor value).toList = low ++ ⟨e.anchor, value⟩ :: high := by
  obtain ⟨before, after⟩ := anchors_around eq
  rw [toList_publish, eq]
  exact Ascending.inserted_of_eq rfl before after

theorem toList_publish_after (eq : d.toList = low ++ e :: high) {anchor : Bytes} (value : α)
    (above : e.anchor < anchor) (below : ∀ next ∈ high.head?, anchor < next.anchor) :
    (d.publish anchor value).toList = low ++ e :: ⟨anchor, value⟩ :: high := by
  obtain ⟨before, _⟩ := anchors_around eq
  have after := below_all eq below
  have low_before : ∀ x ∈ low ++ [e], x.anchor < anchor := by
    intro x member
    rcases List.mem_append.mp member with member | member
    · exact List.lt_trans (before x member) above
    · exact List.mem_singleton.mp member ▸ above
  have split : low ++ e :: high = (low ++ [e]) ++ ((none : Option (Entry α)).toList ++ high) := by
    simp
  rw [toList_publish, eq, split, Ascending.inserted_append low_before (by simp) after]
  simp

theorem size_publish_le (d : Directory α) (anchor : Bytes) (value : α) :
    (d.publish anchor value).size ≤ d.size + 1 := by
  obtain ⟨low, same, high, eq, below, equal, above⟩ := d.ascending.exists_eq_append anchor
  have after : (d.publish anchor value).toList = low ++ ⟨anchor, value⟩ :: high := by
    rw [toList_publish, SearchTree.toList, eq]
    exact Ascending.inserted_append below equal above
  have before : d.toList = low ++ (same.toList ++ high) := eq
  rw [← SearchTree.length_toList, ← SearchTree.length_toList, after, before]
  simp only [List.length_append, List.length_cons]
  omega

theorem size_publish_same {anchor : Bytes} (used : (d.published? anchor).isSome) (value : α) :
    (d.publish anchor value).size = d.size := by
  obtain ⟨old, found⟩ := Option.isSome_iff_exists.mp used
  obtain ⟨low, high, eq⟩ := exists_of_published? found
  have after := toList_publish_same eq value
  rw [← SearchTree.length_toList, ← SearchTree.length_toList, after, eq]
  simp only [List.length_append, List.length_cons]

theorem isSome_published?_publish {anchor : Bytes} (used : (d.published? anchor).isSome)
    (other : Bytes) (value : α) : ((d.publish other value).published? anchor).isSome := by
  obtain ⟨old, found⟩ := Option.isSome_iff_exists.mp used
  obtain ⟨low, high, eq⟩ := exists_of_published? found
  have present : ∃ e ∈ (d.publish other value).toList, e.anchor = anchor := by
    have member : (⟨anchor, old⟩ : Entry α) ∈ d.toList := by simp [eq]
    rw [toList_publish, Ascending.inserted]
    by_cases same : anchor = other
    · exact ⟨⟨other, value⟩, by simp, same.symm⟩
    · refine ⟨⟨anchor, old⟩, ?_, rfl⟩
      by_cases less : anchor < other
      · simp [member, less]
      · have more : other < anchor := Std.lt_of_le_of_ne (List.not_lt.mp less) (Ne.symm same)
        simp [member, more]
  rw [published?_eq, Option.isSome_map, List.find?_isSome]
  simpa using present

theorem retire_eq (eq : d.toList = low ++ e :: high) {wanted : α → Bool} (right : wanted e.value) :
    (d.retire e.anchor wanted).2.toList = low ++ high := by
  obtain ⟨before, after⟩ := anchors_around eq
  obtain ⟨_, _, low_other, _⟩ := Ascending.filter_of_below before
  obtain ⟨_, high_other, _⟩ := Ascending.filter_of_above after
  rw [retire, published?_eq_some eq, Option.any_some, if_pos right, SearchTree.toList_erase, eq,
    List.filter_append, List.filter_cons_of_neg (by simp), low_other, high_other]

end OrderedStore.Directory
