import Mathlib.Data.List.Nodup
import OrderedStore.Proofs.Writer.Puts

/-! # Held spans beside the directory

A span repeats what the directory says about one block: its anchor, its number and the next anchor.
These copies are changed by hand where a block is cut, so that here they are compared with what
the directory answers. The comparison needs the outline alone, and no step on a block touches that.
-/

namespace OrderedStore

namespace Span

theorem Marks.covers_anchor {s : Store} {span : Span} (marks : span.Marks s.outline) :
    span.covers span.anchor = true := by
  obtain ⟨_, _, _, eq, rfl⟩ := marks.exists_entry
  exact covers_ofEntry.mpr ⟨List.le_refl _, (Directory.owns_anchor eq).below⟩

theorem ascending_insert {new : Span} {spans : List Span}
    (sorted : Ascending anchor spans)
    (apart : ∀ s ∈ spans, s.anchor ≠ new.anchor) :
    Ascending anchor (insert new spans) := by
  induction spans with
  | nil => exact List.pairwise_singleton _ _
  | cons first rest ih =>
      obtain ⟨below, sorted_rest⟩ := List.pairwise_cons.mp sorted
      obtain ⟨first_apart, rest_apart⟩ := List.forall_mem_cons.mp apart
      rw [insert]
      split
      · next less =>
        refine List.pairwise_cons.mpr ⟨fun s member => ?_, ih sorted_rest rest_apart⟩
        rcases mem_insert.mp member with rfl | member
        · exact less
        · exact below s member
      · next not_less =>
        have less : new.anchor < first.anchor :=
          Std.lt_of_le_of_ne (List.not_lt.mp not_less) first_apart.symm
        refine List.pairwise_cons.mpr ⟨List.forall_mem_cons.mpr ⟨less, ?_⟩, sorted⟩
        exact fun s member => List.lt_trans less (below s member)

/-- A span cut at `middle` covers exactly what it covered, whoever owns the parts. -/
theorem covers_cut_iff {span : Span} {middle key : Bytes} {owner owner' : Nat}
    (above : span.anchor ≤ middle) (below : ∀ upper ∈ span.upper, middle ≤ upper) :
    span.covers key = true ↔ (⟨span.anchor, some middle, owner⟩ : Span).covers key = true
      ∨ (⟨middle, span.upper, owner'⟩ : Span).covers key = true := by
  refine ⟨Writer.covers_cut middle, ?_⟩
  rw [covers_iff, covers_iff, covers_iff]
  rintro (⟨least, most⟩ | ⟨least, most⟩)
  · exact ⟨least, fun upper member => Std.lt_of_lt_of_le (most middle rfl) (below upper member)⟩
  · exact ⟨List.le_trans above least, most⟩

end Span

namespace Writer

/-- The spans agree with the directory, as far as look-ups can tell. -/
structure Aligned (w : Writer) : Prop where
  sorted : Ascending Span.anchor w.spans
  published : ∀ s ∈ w.spans, ∃ b, w.store.directory.published? s.anchor = some ⟨s.owner, b⟩
  /-- No block of a span is published anywhere else. -/
  unique : ∀ s ∈ w.spans, ∀ e ∈ w.store.directory.toList, e.value.id = s.owner →
    e.anchor = s.anchor
  upper : ∀ s ∈ w.spans, s.upper = (w.store.directory.higher? s.anchor).map (·.anchor)
  disjoint : w.spans.Pairwise fun s t =>
    ∀ key, ¬(s.covers key = true ∧ t.covers key = true)

/-- The last of the spans that start at or below `key`, if it reaches so far. -/
def position? (w : Writer) (key : Bytes) : Option Span :=
  (w.spans.filter (·.anchor ≤ key)).getLast?.filter (·.covers key)

/-- The search for `key` ends with a span and its block, from whichever side it is made. -/
structure Finds (w : Writer) (key : Bytes) (span : Span) (b : Block) : Prop where
  target : w.target key = .ok (span, b)
  position : w.position? key = some span
  /-- No other span covers the key. -/
  only : ∀ s ∈ w.spans, s.covers key = true ↔ s = span
  owner : w.store.directory.floor? key = some ⟨span.anchor, ⟨span.owner, b⟩⟩

/-- The owner of `key` is added to the spans. It was none of the blocks held before, and its range
is all that is covered besides. -/
structure Extends (w w' : Writer) (key : Bytes) (span : Span) : Prop where
  owner : (w.store.directory.floor? key).map (fun e => (e.anchor, e.value.id))
    = some (span.anchor, span.owner)
  other : ∀ held ∈ w.spans, held.owner ≠ span.owner
  spans : w'.spans = Span.insert span w.spans
  covers : ∀ k, w'.covers k = (w.covers k || span.covers k)

/-- The spans stand in the outline in its order, where every block has a number of its own. -/
structure Charted (w : Writer) : Prop where
  marked : w.Marked
  sorted : Ascending Span.anchor w.spans
  distinct : (w.store.directory.toList.map (·.value.id)).Nodup
  numbered : ∀ e ∈ w.store.directory.toList, e.value.id < w.store.nextId

namespace Charted

variable {w : Writer} {low high : List (Entry Published)} {e : Entry Published} {key : Bytes}

theorem eq_of_id (charted : w.Charted) {e e' : Entry Published}
    (inside : e ∈ w.store.directory.toList) (inside' : e' ∈ w.store.directory.toList)
    (same : e.value.id = e'.value.id) : e = e' :=
  List.inj_on_of_nodup_map charted.distinct inside inside' same

theorem eq_of_covers (charted : w.Charted) {s t : Span} (left : s ∈ w.spans) (right : t ∈ w.spans)
    (covers : s.covers key = true) (covers' : t.covers key = true) : s = t := by
  obtain ⟨_, _, _, owns, rfl⟩ := (charted.marked s left).exists_owns covers
  exact ((charted.marked t right).eq_of_covers covers' owns).symm

theorem aligned (charted : w.Charted) : w.Aligned where
  sorted := charted.sorted
  published s inside := by
    obtain ⟨_, e, _, eq, rfl⟩ := (charted.marked s inside).exists_entry
    exact ⟨e.value.block, Directory.published?_eq_some eq⟩
  unique s inside e member same := by
    obtain ⟨low, e', high, eq, rfl⟩ := (charted.marked s inside).exists_entry
    have known : e' ∈ w.store.directory.toList := eq ▸ List.mem_append_cons_self
    exact congrArg Entry.anchor (charted.eq_of_id member known same)
  upper s inside := by
    obtain ⟨_, e, high, eq, rfl⟩ := (charted.marked s inside).exists_entry
    have around := (Directory.owns_anchor eq).around_eq
    rw [Directory.higher?, show (Span.ofEntry e high).anchor = e.anchor from rfl, around]
    rfl
  disjoint := by
    refine charted.sorted.imp_of_mem ?_
    rintro s t left right less key ⟨covers, covers'⟩
    rw [charted.eq_of_covers left right covers covers'] at less
    exact List.lt_irrefl _ less

theorem position?_eq (charted : w.Charted) (key : Bytes) :
    w.position? key = w.spans.find? (·.covers key) := by
  cases found : w.spans.find? (·.covers key) with
  | none =>
      rw [position?, Option.filter_eq_none_iff]
      intro s last
      have inside := (List.mem_filter.mp (List.mem_of_getLast? last)).1
      exact List.find?_eq_none.mp found s inside
  | some s =>
      have covers : s.covers key = true := by simpa using List.find?_some found
      obtain ⟨before, after, eq⟩ := List.append_of_mem (List.mem_of_find?_eq_some found)
      have sorted := charted.sorted
      have inside : s ∈ w.spans := List.mem_of_find?_eq_some found
      rw [eq] at sorted
      obtain ⟨above, _⟩ := List.pairwise_cons.mp (List.pairwise_append.mp sorted).2.1
      have least := (Span.covers_iff.mp covers).1
      -- a later span that starts at or below the key would have its anchor covered twice
      have later : ∀ t ∈ after, ¬t.anchor ≤ key := by
        intro t member reached
        have right : t ∈ w.spans := by simp [eq, member]
        have upper := (Span.covers_iff.mp covers).2
        have covers' : s.covers t.anchor = true := Span.covers_iff.mpr
          ⟨List.le_of_lt (above t member),
            fun bound known => Std.lt_of_le_of_lt reached (upper bound known)⟩
        have same := charted.eq_of_covers inside right covers'
          (charted.marked t right).covers_anchor
        exact List.lt_irrefl _ (same ▸ above t member)
      have none_later : after.filter (·.anchor ≤ key) = [] := by simpa using later
      rw [position?, eq, List.filter_append, List.filter_cons_of_pos (by simpa using least),
        none_later, List.getLast?_concat, Option.filter_some, if_pos covers]

theorem exists_finds (charted : w.Charted) (covered : w.covers key = true) :
    ∃ span b, w.Finds key span b := by
  obtain ⟨span, searched⟩ :=
    Option.isSome_iff_exists.mp (List.find?_isSome.mpr (List.any_eq_true.mp covered))
  have inside := List.mem_of_find?_eq_some searched
  have covers : span.covers key = true := by simpa using List.find?_some searched
  obtain ⟨low, e, high, owns, rfl⟩ := (charted.marked span inside).exists_owns covers
  refine ⟨.ofEntry e high, e.value.block,
    { target := (target_eq charted.marked covered owns).1
      position := by rw [charted.position?_eq, searched]
      only := fun s member => ?_
      owner := owns.floor?_eq }⟩
  refine ⟨fun covers' => charted.eq_of_covers member inside covers' covers, ?_⟩
  rintro rfl
  exact covers

theorem exists_entry_of_target (charted : w.Charted) {span : Span} {b : Block}
    (found : w.target key = .ok (span, b)) :
    ∃ low e high, w.store.directory.Owns key low e high ∧ span = .ofEntry e high
      ∧ b = e.value.block := by
  cases searched : w.spans.find? (·.covers key) with
  | none => simp only [target, searched, reduceCtorEq] at found
  | some s =>
      have inside := List.mem_of_find?_eq_some searched
      have covers : s.covers key = true := by simpa using List.find?_some searched
      obtain ⟨low, e, high, owns, rfl⟩ := (charted.marked s inside).exists_owns covers
      have covered : w.covers key = true := List.any_eq_true.mpr ⟨_, inside, covers⟩
      have target := (target_eq charted.marked covered owns).1
      obtain ⟨rfl, rfl⟩ := Prod.mk.inj (Except.ok.inj (found.symm.trans target))
      exact ⟨low, e, high, owns, rfl, rfl⟩

theorem replace (charted : w.Charted) (eq : w.store.directory.toList = low ++ e :: high)
    (b : Block) (l : Ledger) : (w.replace (.ofEntry e high) b l).Charted := by
  have after := toList_replace eq b l
  refine
    { marked := marked_replace charted.marked eq b l
      sorted := charted.sorted
      distinct := ?_
      numbered := ?_ }
  · have distinct := charted.distinct
    rw [eq, List.map_append] at distinct
    rw [after, List.map_append]
    exact distinct
  · have numbered := charted.numbered
    rw [eq, List.forall_mem_append, List.forall_mem_cons] at numbered
    rw [after, List.forall_mem_append, List.forall_mem_cons]
    exact numbered

theorem owner_ne (charted : w.Charted) (owns : w.store.directory.Owns key low e high)
    (uncovered : w.covers key = false) : ∀ s ∈ w.spans, s.owner ≠ e.value.id := by
  intro s inside same
  obtain ⟨low', e', high', eq', rfl⟩ := (charted.marked s inside).exists_entry
  have known : e ∈ w.store.directory.toList := owns.eq ▸ List.mem_append_cons_self
  have known' : e' ∈ w.store.directory.toList := eq' ▸ List.mem_append_cons_self
  obtain rfl := charted.eq_of_id known' known same
  have span_eq := (charted.marked _ inside).eq_ofEntry owns.eq rfl
  have covers := Span.covers_ofEntry.mpr ⟨owns.least, owns.below⟩
  rw [← span_eq] at covers
  exact Bool.false_ne_true (uncovered.symm.trans (List.any_eq_true.mpr ⟨_, inside, covers⟩))

/-- The owner of a key that is not covered takes its place among the spans. -/
theorem insert (charted : w.Charted) (owns : w.store.directory.Owns key low e high)
    (uncovered : w.covers key = false) :
    ({ w with spans := Span.insert (.ofEntry e high) w.spans } : Writer).Charted where
  marked := marked_insert charted.marked owns.eq
  sorted := by
    refine Span.ascending_insert charted.sorted fun s inside same => ?_
    have span_eq := (charted.marked s inside).eq_ofEntry owns.eq same
    exact charted.owner_ne owns uncovered s inside (congrArg Span.owner span_eq)
  distinct := charted.distinct
  numbered := charted.numbered

theorem extends_insert (charted : w.Charted) (owns : w.store.directory.Owns key low e high)
    (uncovered : w.covers key = false) :
    w.Extends { w with spans := Span.insert (.ofEntry e high) w.spans } key (.ofEntry e high) where
  owner := by
    rw [owns.floor?_eq]
    rfl
  other := charted.owner_ne owns uncovered
  spans := rfl
  covers := covers_insert w _

end Charted

theorem ascending_divided {w : Writer} {span left right : Span}
    (sorted : Ascending Span.anchor w.spans)
    (anchor : left.anchor = span.anchor) (less : left.anchor < right.anchor)
    (later : ∀ t ∈ w.spans, span.anchor < t.anchor → right.anchor < t.anchor) :
    Ascending Span.anchor (w.divided span left right) := by
  refine List.pairwise_flatMap.mpr ⟨?_, ?_⟩
  · intro s _
    by_cases same : s = span
    · rw [if_pos same]
      exact List.pairwise_pair.mpr less
    · rw [if_neg same]
      exact List.pairwise_singleton _ _
  · refine sorted.imp_of_mem fun {s t} _ inside ordered x mem_x y mem_y => ?_
    by_cases first : s = span
    · have other : t ≠ span := by
        rintro rfl
        exact List.lt_irrefl _ (first ▸ ordered)
      subst first
      rw [if_pos rfl, List.mem_pair] at mem_x
      rw [if_neg other, List.mem_singleton] at mem_y
      subst mem_y
      rcases mem_x with rfl | rfl
      · rw [anchor]
        exact ordered
      · exact later y inside ordered
    · rw [if_neg first, List.mem_singleton] at mem_x
      subst mem_x
      by_cases second : t = span
      · subst second
        have below : x.anchor < left.anchor := anchor ▸ ordered
        rw [if_pos rfl, List.mem_pair] at mem_y
        rcases mem_y with rfl | rfl
        · exact below
        · exact List.lt_trans below less
      · rw [if_neg second, List.mem_singleton] at mem_y
        exact mem_y ▸ ordered

/-- One entry and its span are cut in two. One part keeps the number, the other has a new one, and
the lower part keeps the anchor. -/
structure Cuts (w w' : Writer) (low : List (Entry Published)) (e lower upper : Entry Published)
    (high : List (Entry Published)) : Prop where
  before : w.store.directory.toList = low ++ e :: high
  after : w'.store.directory.toList = low ++ lower :: upper :: high
  spans : w'.spans = w.divided (.ofEntry e high) (.ofEntry lower (upper :: high))
    (.ofEntry upper high)
  grows : w'.store.nextId = w.store.nextId + 1
  anchor : lower.anchor = e.anchor
  numbers : lower.value.id = e.value.id ∧ upper.value.id = w.store.nextId
    ∨ lower.value.id = w.store.nextId ∧ upper.value.id = e.value.id

section

variable {w w' : Writer} {low high : List (Entry Published)} {e lower upper : Entry Published}
  {key middle : Bytes}

theorem cuts_addBelow (eq : w.store.directory.toList = low ++ e :: high) (above : e.anchor < middle)
    (below : ∀ next ∈ high.head?, middle < next.anchor) (b own new : Block) (l : Ledger) :
    w.Cuts ((w.replace (.ofEntry e high) b l).addBelow (.ofEntry e high) middle own new)
      low e ⟨e.anchor, ⟨w.store.nextId, new⟩⟩ ⟨middle, ⟨e.value.id, own⟩⟩ high where
  before := eq
  after := toList_addBelow (toList_replace eq b l) above below own new
  spans := rfl
  grows := rfl
  anchor := rfl
  numbers := .inr ⟨rfl, rfl⟩

theorem cuts_addAbove (eq : w.store.directory.toList = low ++ e :: high) (above : e.anchor < middle)
    (below : ∀ next ∈ high.head?, middle < next.anchor) (b new : Block) (l : Ledger) :
    w.Cuts ((w.replace (.ofEntry e high) b l).addAbove (.ofEntry e high) middle new)
      low e (e.withBlock b) ⟨middle, ⟨w.store.nextId, new⟩⟩ high where
  before := eq
  after := toList_addAbove (toList_replace eq b l) above below new
  spans := rfl
  grows := rfl
  anchor := rfl
  numbers := .inl ⟨rfl, rfl⟩

namespace Cuts

variable (cuts : w.Cuts w' low e lower upper high)

include cuts

theorem middle_between :
    e.anchor < upper.anchor ∧ ∀ x ∈ high, upper.anchor < x.anchor := by
  have before := (Directory.anchors_around cuts.after).2 upper List.mem_cons_self
  have after : w'.store.directory.toList = (low ++ [lower]) ++ upper :: high := by
    rw [cuts.after, List.append_assoc]
    rfl
  exact ⟨cuts.anchor ▸ before, (Directory.anchors_around after).2⟩

theorem covers_eq (key : Bytes) : w'.covers key = w.covers key := by
  obtain ⟨above, below⟩ := cuts.middle_between
  have parts : (Span.ofEntry e high).covers key
      = ((Span.ofEntry lower (upper :: high)).covers key
        || (Span.ofEntry upper high).covers key) := by
    rw [Bool.eq_iff_iff, Bool.or_eq_true]
    have left : Span.ofEntry lower (upper :: high)
        = ⟨(Span.ofEntry e high).anchor, some upper.anchor, lower.value.id⟩ := by
      rw [Span.ofEntry, cuts.anchor]
      rfl
    rw [left]
    refine Span.covers_cut_iff (List.le_of_lt above) fun bound member => ?_
    obtain ⟨next, head, rfl⟩ := Option.map_eq_some_iff.mp member
    exact List.le_of_lt (below next (List.mem_of_mem_head? head))
  rw [covers, cuts.spans, divided, List.any_flatMap, covers]
  congr 1
  funext s
  by_cases same : s = Span.ofEntry e high
  · rw [if_pos same, same, parts]
    simp
  · rw [if_neg same]
    simp

theorem upper_below (marked : w.Marked) {t : Span} (inside : t ∈ w.spans)
    (less : e.anchor < t.anchor) : upper.anchor < t.anchor := by
  obtain ⟨_, below⟩ := cuts.middle_between
  obtain ⟨low', e', high', eq', rfl⟩ := (marked t inside).exists_entry
  have known : e' ∈ low ++ e :: high :=
    cuts.before ▸ eq' ▸ List.mem_append_cons_self
  rcases List.mem_append.mp known with left | right
  · have smaller := (Directory.anchors_around cuts.before).1 e' left
    exact absurd less (List.lt_asymm smaller)
  · rcases List.mem_cons.mp right with rfl | right
    · exact absurd less (List.lt_irrefl _)
    · exact below e' right

theorem numbers_perm : (w'.store.directory.toList.map (·.value.id)).Perm
    (w.store.nextId :: w.store.directory.toList.map (·.value.id)) := by
  rw [cuts.before, cuts.after]
  simp only [List.map_append, List.map_cons]
  rcases cuts.numbers with ⟨left, right⟩ | ⟨left, right⟩
  · rw [left, right]
    exact ((List.Perm.swap _ _ _).append_left _).trans List.perm_middle
  · rw [left, right]
    exact List.perm_middle

theorem charted (charted : w.Charted) : w'.Charted := by
  have known : ∀ id ∈ w.store.directory.toList.map (·.value.id), id < w.store.nextId := by
    intro id member
    obtain ⟨e, inside, rfl⟩ := List.mem_map.mp member
    exact charted.numbered e inside
  refine
    { marked := ?_
      sorted := ?_
      distinct := ?_
      numbered := ?_ }
  · refine marks_divided charted.marked cuts.before cuts.spans ?_ cuts.anchor rfl rfl
    rw [Store.outline, cuts.after, List.map_append]
    rfl
  · have less : lower.anchor < upper.anchor := cuts.anchor ▸ cuts.middle_between.1
    rw [cuts.spans]
    exact ascending_divided charted.sorted cuts.anchor less fun t inside =>
      cuts.upper_below charted.marked inside
  · refine cuts.numbers_perm.nodup_iff.mpr (List.nodup_cons.mpr ⟨?_, charted.distinct⟩)
    exact fun member => Nat.lt_irrefl _ (known _ member)
  · intro x member
    rw [cuts.grows]
    have listed := cuts.numbers_perm.mem_iff.mp (List.mem_map_of_mem member)
    rcases List.mem_cons.mp listed with new | old
    · exact Nat.lt_succ_of_le (Nat.le_of_eq new)
    · exact Nat.lt_succ_of_lt (known _ old)

end Cuts

/-- The ways in which a full block makes room for `key`. In each of them the block stays in use, and
one more is published beside it. -/
inductive Parts (key : Bytes) (full : Block) (new : Nat) (e lower upper : Entry Published) :
    Prop where
  /-- The lower half of the records goes to a new block under the old anchor. -/
  | halves : lower.value.id = new → upper.value.id = e.value.id →
      full.run = lower.value.block.run ++ upper.value.block.run → lower.value.block.run ≠ [] →
      upper.value.block.run.head?.map (·.key) = some upper.anchor →
      Parts key full new e lower upper
  /-- The key lies above the only record and is the anchor of a new block. -/
  | above : lower.value = ⟨e.value.id, full⟩ → upper.value.id = new →
      upper.value.block.run = [] → upper.anchor = key → (∀ r ∈ full.run, r.key < key) →
      Parts key full new e lower upper
  /-- The key lies below the only record, whose key becomes its anchor. -/
  | below : lower.value.id = new → lower.value.block.run = [] →
      upper.value = ⟨e.value.id, full⟩ → full.run.head?.map (·.key) = some upper.anchor →
      (∀ r ∈ full.run, key < r.key) → Parts key full new e lower upper

/-- A split of the block that owns a key cuts its entry, in one of three ways. -/
theorem Ready.split_cuts (ready : w.Ready) (owns : w.store.directory.Owns key low e high)
    {p : Block} {l : Ledger} (enrolled : p.Enrolled w.store.options.tuning)
    (prunes : Run.Prunes e.value.block.run p.run)
    (balanced : l.Balanced w.store.directory.size (p :: blocksOf (low ++ high)))
    (filled : p.run ≠ []) (other : ∀ r, p.run = [r] → r.key ≠ key)
    (parted : w.split (.ofEntry e high) p l key = (.ok (), w')) :
    ∃ lower upper, w.Cuts w' low e lower upper high
      ∧ Parts key p w.store.nextId e lower upper := by
  obtain ⟨_, fits, _⟩ := ready.wellFormed.fits owns.eq
  have below : ∀ r ∈ p.run, ∀ next ∈ high.head?, r.key < next.anchor := fun r member next head =>
    fits.below r (prunes.subset member) next.anchor (Option.mem_map_of_mem _ head)
  rcases Block.split_cases enrolled balanced with
    ⟨few, same⟩ | ⟨left, right, l', parts, _, _, _, some_left, some_right, run_eq⟩
  · have some_record := List.length_pos_iff.mpr filled
    obtain ⟨r, single⟩ := List.length_eq_one_iff.mp (show p.run.length = 1 by omega)
    have inside : r ∈ p.run := single ▸ List.mem_singleton_self r
    have least : e.anchor ≤ r.key := fits.above r (prunes.subset inside)
    have first_eq : p.firstKey? = some r.key := by rw [Block.firstKey?_eq, single]; rfl
    by_cases lies_above : r.key < key
    · simp only [split, same, first_eq, if_pos lies_above] at parted
      obtain rfl := (Prod.mk.inj parted).2
      refine ⟨_, _, cuts_addAbove owns.eq (Std.lt_of_le_of_lt least lies_above) owns.below p _ _,
        .above rfl rfl rfl rfl ?_⟩
      simpa [single] using lies_above
    · have less : key < r.key :=
        Std.lt_of_le_of_ne (List.not_lt.mp lies_above) (other r single).symm
      simp only [split, same, first_eq, if_neg lies_above] at parted
      obtain rfl := (Prod.mk.inj parted).2
      refine ⟨_, _, cuts_addBelow owns.eq (Std.lt_of_le_of_lt owns.least less) (below r inside)
        p p _ _, .below rfl rfl rfl (by rw [single]; rfl) ?_⟩
      simpa [single] using less
  · cases right_eq : right.run with
    | nil => exact absurd right_eq some_right
    | cons r rest =>
        have first_eq : right.firstKey? = some r.key := by
          rw [Block.firstKey?_eq, right_eq]
          rfl
        have inside : r ∈ p.run := by simp [run_eq, right_eq]
        have pruned : Run.Prunes e.value.block.run (left.run ++ r :: rest) :=
          right_eq ▸ run_eq ▸ prunes
        simp only [split, parts, first_eq] at parted
        obtain rfl := (Prod.mk.inj parted).2
        refine ⟨_, _, cuts_addBelow owns.eq (fits.anchor_lt some_left pruned) (below r inside)
          right right left l', .halves rfl rfl run_eq some_left ?_⟩
        rw [right_eq]
        rfl

end

end Writer

end OrderedStore
