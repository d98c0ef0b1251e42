import OrderedStore.Proofs.Store.Tiling
import OrderedStore.Store.Writer

/-! # Spans of a writer

A span names a block by its anchor and its number, and repeats the anchor after it. A writer finds
its blocks as long as its spans agree with the outline of the directory, whatever the blocks hold in
the meantime. The steps of a writer keep that agreement, and the keys that the spans cover.
-/

namespace OrderedStore

/-- The anchors and the numbers of the blocks, in their order. -/
def Store.outline (s : Store) : List (Bytes × Nat) :=
  s.directory.toList.map fun e => (e.anchor, e.value.id)

namespace Span

/-- The span of an entry, given those above it. -/
def ofEntry (e : Entry Published) (high : List (Entry Published)) : Span :=
  ⟨e.anchor, high.head?.map (·.anchor), e.value.id⟩

/-- The span stands in the outline. -/
def Marks (s : Span) (outline : List (Bytes × Nat)) : Prop :=
  ∃ low high, outline = low ++ (s.anchor, s.owner) :: high ∧ s.upper = high.head?.map (·.1)

theorem covers_iff {s : Span} {key : Bytes} :
    s.covers key = true ↔ s.anchor ≤ key ∧ ∀ upper ∈ s.upper, key < upper := by
  cases upper : s.upper <;> simp [covers, upper]

theorem covers_ofEntry {e : Entry Published} {high : List (Entry Published)} {key : Bytes} :
    (ofEntry e high).covers key = true
      ↔ e.anchor ≤ key ∧ ∀ next ∈ high.head?, key < next.anchor := by
  rw [covers_iff]
  cases above : high.head? <;> simp [ofEntry, above]

theorem mem_insert {new s : Span} {spans : List Span} :
    s ∈ insert new spans ↔ s = new ∨ s ∈ spans := by
  induction spans with
  | nil => simp [insert]
  | cons first rest ih =>
      rw [insert]
      split
      · rw [List.mem_cons, ih, List.mem_cons]
        exact or_left_comm
      · rw [List.mem_cons]

theorem marks_ofEntry {s : Store} {low high : List (Entry Published)} {e : Entry Published}
    (eq : s.directory.toList = low ++ e :: high) : (ofEntry e high).Marks s.outline := by
  refine ⟨low.map _, high.map _, by rw [Store.outline, eq, List.map_append]; rfl, ?_⟩
  cases high <;> rfl

theorem Marks.exists_entry {s : Store} {span : Span} (marks : span.Marks s.outline) :
    ∃ low e high, s.directory.toList = low ++ e :: high ∧ span = ofEntry e high := by
  obtain ⟨low, high, eq, upper⟩ := marks
  obtain ⟨lower, rest, split, _, upper_eq⟩ := List.map_eq_append_iff.mp eq
  obtain ⟨e, higher, rfl, same, rfl⟩ := List.map_eq_cons_iff.mp upper_eq
  obtain ⟨anchor_eq, owner_eq⟩ := Prod.mk.inj same
  refine ⟨lower, e, higher, split, ?_⟩
  cases span
  simp only at anchor_eq owner_eq upper
  subst anchor_eq owner_eq upper
  cases higher <;> rfl

theorem Marks.eq_ofEntry {s : Store} {span : Span} {low high : List (Entry Published)}
    {e : Entry Published} (marks : span.Marks s.outline)
    (eq : s.directory.toList = low ++ e :: high) (anchor : span.anchor = e.anchor) :
    span = ofEntry e high := by
  obtain ⟨low', e', high', eq', rfl⟩ := marks.exists_entry
  have around := (Directory.owns_anchor eq').around_eq
  rw [show e'.anchor = e.anchor from anchor, (Directory.owns_anchor eq).around_eq] at around
  obtain ⟨same, next⟩ := Prod.mk.inj around
  obtain rfl := Option.some.inj same
  rw [ofEntry, ofEntry, next]

theorem Marks.exists_owns {s : Store} {span : Span} {key : Bytes} (marks : span.Marks s.outline)
    (covers : span.covers key = true) :
    ∃ low e high, s.directory.Owns key low e high ∧ span = ofEntry e high := by
  obtain ⟨low, e, high, eq, rfl⟩ := marks.exists_entry
  obtain ⟨least, below⟩ := covers_ofEntry.mp covers
  exact ⟨low, e, high, ⟨eq, least, below⟩, rfl⟩

theorem Marks.eq_of_covers {s : Store} {span : Span} {low high : List (Entry Published)}
    {e : Entry Published} {key : Bytes} (marks : span.Marks s.outline)
    (covers : span.covers key = true) (owns : s.directory.Owns key low e high) :
    span = ofEntry e high := by
  obtain ⟨low', e', high', owns', rfl⟩ := marks.exists_owns covers
  obtain ⟨same, _⟩ := Prod.mk.inj (owns'.around_eq.symm.trans owns.around_eq)
  exact marks.eq_ofEntry owns.eq (congrArg Entry.anchor (Option.some.inj same))

/-- Where one place of the outline becomes two, the spans of the others stand as before. -/
theorem Marks.divide {span other : Span} {low high : List (Bytes × Nat)} {left right : Bytes × Nat}
    (marks : other.Marks (low ++ (span.anchor, span.owner) :: high))
    (upper : span.upper = high.head?.map (·.1)) (different : other ≠ span)
    (anchor : left.1 = span.anchor) : other.Marks (low ++ left :: right :: high) := by
  obtain ⟨below, above, eq, above_eq⟩ := marks
  have not_same : ¬((span.anchor, span.owner) = (other.anchor, other.owner) ∧ high = above) := by
    rintro ⟨pair, rfl⟩
    obtain ⟨anchor_eq, owner_eq⟩ := Prod.mk.inj pair
    apply different
    cases other
    cases span
    simp only at anchor_eq owner_eq upper above_eq
    subst anchor_eq owner_eq upper above_eq
    rfl
  rcases List.append_eq_append_iff.mp eq with ⟨gap, rfl, rest⟩ | ⟨gap, rfl, rest⟩
  · cases gap with
    | nil => exact absurd (List.cons.inj rest) not_same
    | cons first gap =>
        obtain ⟨_, rfl⟩ := List.cons.inj rest
        exact ⟨low ++ left :: right :: gap, above, by simp, above_eq⟩
  · cases gap with
    | nil =>
        obtain ⟨pair, tail⟩ := List.cons.inj rest
        exact absurd ⟨pair.symm, tail.symm⟩ not_same
    | cons first gap =>
        obtain ⟨rfl, rfl⟩ := List.cons.inj rest
        refine ⟨below, gap ++ left :: right :: high, by simp, ?_⟩
        rw [above_eq]
        cases gap with
        | nil => exact congrArg some anchor.symm
        | cons next gap => rfl

end Span

namespace Writer

/-- Every span stands in the outline of the store. -/
def Marked (w : Writer) : Prop := ∀ s ∈ w.spans, s.Marks w.store.outline

section

variable {w : Writer} {low high : List (Entry Published)} {e : Entry Published} {key middle : Bytes}

theorem target_eq (marked : w.Marked) (covered : w.covers key = true)
    (owns : w.store.directory.Owns key low e high) :
    w.target key = .ok (.ofEntry e high, e.value.block) ∧ Span.ofEntry e high ∈ w.spans := by
  obtain ⟨some_span, inside, covers⟩ := List.any_eq_true.mp covered
  cases found : w.spans.find? (·.covers key) with
  | none => exact absurd covers (List.find?_eq_none.mp found some_span inside)
  | some span =>
      have member := List.mem_of_find?_eq_some found
      have here : span.covers key = true := by simpa using List.find?_some found
      obtain rfl := (marked span member).eq_of_covers here owns
      refine ⟨?_, member⟩
      have published : w.store.directory.published? (Span.ofEntry e high).anchor = some e.value :=
        Directory.published?_eq_some owns.eq
      have number : (some e.value).filter (·.id = (Span.ofEntry e high).owner) = some e.value :=
        if_pos (decide_eq_true rfl)
      simp only [target, found, published, number]

theorem toList_replace (eq : w.store.directory.toList = low ++ e :: high) (b : Block) (l : Ledger) :
    (w.replace (.ofEntry e high) b l).store.directory.toList
      = low ++ e.withBlock b :: high := Directory.toList_publish_same eq _

theorem marked_replace (marked : w.Marked) (eq : w.store.directory.toList = low ++ e :: high)
    (b : Block) (l : Ledger) : (w.replace (.ofEntry e high) b l).Marked := by
  have outline : (w.replace (.ofEntry e high) b l).store.outline = w.store.outline := by
    rw [Store.outline, Store.outline, toList_replace eq, eq, List.map_append, List.map_append]
    rfl
  intro s member
  rw [outline]
  exact marked s member

theorem marked_insert (marked : w.Marked) (eq : w.store.directory.toList = low ++ e :: high) :
    ({ w with spans := Span.insert (.ofEntry e high) w.spans } : Writer).Marked := by
  intro s member
  rcases Span.mem_insert.mp member with rfl | member
  · exact Span.marks_ofEntry eq
  · exact marked s member

theorem covers_insert (w : Writer) (new : Span) (key : Bytes) :
    ({ w with spans := Span.insert new w.spans } : Writer).covers key
      = (w.covers key || new.covers key) := by
  rw [Bool.eq_iff_iff, Bool.or_eq_true, covers, covers, List.any_eq_true, List.any_eq_true]
  constructor
  · rintro ⟨s, member, covers⟩
    rcases Span.mem_insert.mp member with rfl | member
    · exact .inr covers
    · exact .inl ⟨s, member, covers⟩
  · rintro (⟨s, member, covers⟩ | covers)
    · exact ⟨s, Span.mem_insert.mpr (.inr member), covers⟩
    · exact ⟨new, Span.mem_insert.mpr (.inl rfl), covers⟩

/-- Two spans in the place of one that stands in the outline. -/
theorem marks_divided {w' : Writer} {left right : Span} (marked : w.Marked)
    (eq : w.store.directory.toList = low ++ e :: high)
    (spans : w'.spans = w.divided (.ofEntry e high) left right)
    (outline : w'.store.outline = low.map (fun e => (e.anchor, e.value.id))
      ++ (left.anchor, left.owner) :: (right.anchor, right.owner)
        :: high.map fun e => (e.anchor, e.value.id))
    (anchor : left.anchor = e.anchor) (middle : left.upper = some right.anchor)
    (upper : right.upper = high.head?.map (·.anchor)) : w'.Marked := by
  have old : w.store.outline = low.map (fun e => (e.anchor, e.value.id))
      ++ ((Span.ofEntry e high).anchor, (Span.ofEntry e high).owner)
        :: high.map fun e => (e.anchor, e.value.id) := by
    rw [Store.outline, eq, List.map_append]
    rfl
  have head : high.head?.map (·.anchor)
      = (high.map fun e => (e.anchor, e.value.id)).head?.map (·.1) := by cases high <;> rfl
  intro s member
  rw [spans, divided, List.mem_flatMap] at member
  obtain ⟨before, inside, member⟩ := member
  rw [outline]
  split at member
  · rcases List.mem_cons.mp member with rfl | member
    · exact ⟨_, _, rfl, middle⟩
    · obtain rfl := List.mem_singleton.mp member
      exact ⟨low.map (fun e => (e.anchor, e.value.id)) ++ [(left.anchor, left.owner)], _,
        by simp, upper.trans head⟩
  · next different =>
    obtain rfl := List.mem_singleton.mp member
    exact (old ▸ marked s inside).divide head different anchor

theorem covers_divided {span left right : Span}
    (parts : span.covers key = true → left.covers key = true ∨ right.covers key = true)
    (covered : w.covers key = true) :
    (w.divided span left right).any (·.covers key) = true := by
  obtain ⟨s, inside, covers⟩ := List.any_eq_true.mp covered
  rw [List.any_eq_true]
  by_cases same : s = span
  · subst same
    rcases parts covers with here | here
    · exact ⟨left, List.mem_flatMap.mpr ⟨s, inside, by simp⟩, here⟩
    · exact ⟨right, List.mem_flatMap.mpr ⟨s, inside, by simp⟩, here⟩
  · exact ⟨s, List.mem_flatMap.mpr ⟨s, inside, by simp [same]⟩, covers⟩

theorem covers_cut {span : Span} {owner owner' : Nat} (middle : Bytes)
    (covers : span.covers key = true) :
    (⟨span.anchor, some middle, owner⟩ : Span).covers key = true
      ∨ (⟨middle, span.upper, owner'⟩ : Span).covers key = true := by
  obtain ⟨least, upper⟩ := Span.covers_iff.mp covers
  rw [Span.covers_iff, Span.covers_iff]
  by_cases less : key < middle
  · left
    refine ⟨least, ?_⟩
    rintro _ ⟨⟩
    exact less
  · exact .inr ⟨List.not_lt.mp less, upper⟩

theorem toList_addBelow (eq : w.store.directory.toList = low ++ e :: high)
    (above : e.anchor < middle) (below : ∀ next ∈ high.head?, middle < next.anchor)
    (own new : Block) :
    (w.addBelow (.ofEntry e high) middle own new).store.directory.toList
      = low ++ ⟨e.anchor, ⟨w.store.nextId, new⟩⟩ :: ⟨middle, ⟨e.value.id, own⟩⟩ :: high :=
  Directory.toList_publish_same (Directory.toList_publish_after eq _ above below) _

theorem marked_addBelow (marked : w.Marked) (eq : w.store.directory.toList = low ++ e :: high)
    (above : e.anchor < middle) (below : ∀ next ∈ high.head?, middle < next.anchor)
    (own new : Block) : (w.addBelow (.ofEntry e high) middle own new).Marked := by
  refine marks_divided marked eq rfl ?_ rfl rfl rfl
  rw [Store.outline, toList_addBelow eq above below, List.map_append]
  rfl

theorem covers_addBelow {span : Span} (own new : Block) (covered : w.covers key = true) :
    (w.addBelow span middle own new).covers key = true :=
  covers_divided (covers_cut middle) covered

theorem toList_addAbove (eq : w.store.directory.toList = low ++ e :: high)
    (above : e.anchor < middle) (below : ∀ next ∈ high.head?, middle < next.anchor) (new : Block) :
    (w.addAbove (.ofEntry e high) middle new).store.directory.toList
      = low ++ e :: ⟨middle, ⟨w.store.nextId, new⟩⟩ :: high :=
  Directory.toList_publish_after eq _ above below

theorem marked_addAbove (marked : w.Marked) (eq : w.store.directory.toList = low ++ e :: high)
    (above : e.anchor < middle) (below : ∀ next ∈ high.head?, middle < next.anchor)
    (new : Block) : (w.addAbove (.ofEntry e high) middle new).Marked := by
  refine marks_divided marked eq rfl ?_ rfl rfl rfl
  rw [Store.outline, toList_addAbove eq above below, List.map_append]
  rfl

theorem covers_addAbove {span : Span} (new : Block) (covered : w.covers key = true) :
    (w.addAbove span middle new).covers key = true :=
  covers_divided (covers_cut middle) covered

end

section

variable {s : Store} {w : Writer}

theorem spanAt_eq {low high : List (Entry Published)} {e : Entry Published} {key : Bytes}
    (owns : s.directory.Owns key low e high) : spanAt s key = .ok (.ofEntry e high) := by
  rw [spanAt, owns.around_eq]
  rfl

theorem exists_hold (wf : s.WellFormed) (key : Bytes) :
    ∃ span, hold s key = .ok ⟨s, [span]⟩ ∧ (⟨s, [span]⟩ : Writer).Marked
      ∧ (⟨s, [span]⟩ : Writer).covers key = true := by
  obtain ⟨low, e, high, owns⟩ := wf.exists_owner key
  refine ⟨.ofEntry e high, by rw [hold, spanAt_eq owns]; rfl, ?_, ?_⟩
  · intro span member
    exact List.mem_singleton.mp member ▸ Span.marks_ofEntry owns.eq
  · simpa [covers] using Span.covers_ofEntry.mpr ⟨owns.least, owns.below⟩

/-- The owners of further keys can be held too. -/
theorem exists_extend (wf : w.store.WellFormed) (marked : w.Marked) (keys : List Bytes) :
    ∃ w', w.extend keys = .ok w' ∧ w'.store = w.store ∧ w'.Marked
      ∧ (∀ key, w.covers key = true → w'.covers key = true)
      ∧ ∀ key ∈ keys, w'.covers key = true := by
  induction keys generalizing w with
  | nil => exact ⟨w, rfl, rfl, marked, fun _ covered => covered, by simp⟩
  | cons key keys ih =>
      by_cases covered : w.covers key = true
      · obtain ⟨w', extended, store, marked', keeps, all⟩ := ih wf marked
        refine ⟨w', by rw [extend, if_pos covered, extended], store, marked', keeps, ?_⟩
        exact List.forall_mem_cons.mpr ⟨keeps key covered, all⟩
      · obtain ⟨low, e, high, owns⟩ := wf.exists_owner key
        let more : Writer := { w with spans := Span.insert (.ofEntry e high) w.spans }
        have more_marked : more.Marked := marked_insert marked owns.eq
        have here : more.covers key = true := by
          rw [covers_insert, Span.covers_ofEntry.mpr ⟨owns.least, owns.below⟩, Bool.or_true]
        have more_covers : ∀ k, w.covers k = true → more.covers k = true := by
          intro k covers
          rw [covers_insert, covers, Bool.true_or]
        obtain ⟨w', extended, store, marked', keeps, all⟩ := ih (w := more) wf more_marked
        refine ⟨w', ?_, store, marked', fun k covers => keeps k (more_covers k covers), ?_⟩
        · rw [extend, if_neg covered, spanAt_eq owns]
          exact extended
        · exact List.forall_mem_cons.mpr ⟨keeps key here, all⟩

end

end Writer

end OrderedStore
