import OrderedStore.Proofs.Packed.Records

/-! # What the operations on a field ask for

Shown the chunk found for its field, an operation reads or rewrites that chunk. The chunk's value
always parses and what is to be written always has a written form, so that no run fails.
-/

namespace OrderedStore.Packed

variable {common field value : Bytes} {old : Option Chunk} {found : Option Found}

/-- An operation is shown a chunk, or none of the user key. -/
def Shown (common : Bytes) (old : Option Chunk) (found : Option Found) : Prop :=
  chunkOf? common found = old.map fun c => ⟨c.key, written c.elements⟩

theorem Packable.length_lt {es : List Element} (packable : Packable es) : es.length < maxCount := by
  have count := length_le_total_size es
  have short := packable.short
  rw [encodedSize, countSize, Record.maxValue] at short
  rw [maxCount]
  omega

theorem length_insert_le (e : Element) (es : List Element) : (insert e es).length ≤ es.length + 1 := by
  induction es with
  | nil => exact Nat.le_refl 1
  | cons x es ih =>
      rw [insert]
      split
      · exact Nat.succ_le_succ ih
      · split
        · exact Nat.le_succ _
        · exact Nat.le_refl _

theorem mem_insert {e x : Element} {es : List Element} (member : x ∈ insert e es) :
    x = e ∨ x ∈ es := by
  induction es with
  | nil => exact .inl (List.mem_singleton.mp member)
  | cons y es ih =>
      rw [insert] at member
      split at member
      · rcases List.mem_cons.mp member with rfl | later
        · exact .inr List.mem_cons_self
        · rcases ih later with rfl | held
          · exact .inl rfl
          · exact .inr (List.mem_cons_of_mem _ held)
      · split at member
        · rcases List.mem_cons.mp member with rfl | later
          · exact .inl rfl
          · exact .inr (List.mem_cons_of_mem _ later)
        · rcases List.mem_cons.mp member with rfl | later
          · exact .inl rfl
          · exact .inr later

theorem exists_pushChunk (changes : Changes) (c : Chunk) (writable : Writable c.elements)
    (room : changes.toList.length < maxChanges) :
    ∃ changes', pushChunk changes c.key c.elements = (.ok (), changes')
      ∧ changes'.toList = changes.toList ++ [c.put] := by
  have form := encode_eq writable
  refine ⟨⟨changes.toList ++ [c.put], ?_⟩, ?_, rfl⟩
  · rw [List.length_append, List.length_singleton]
    exact room
  · simp only [pushChunk, form, Except.toOption, Option.getD_some, Changes.push, dif_pos room,
      Except.map]
    rfl

/-- A lookup finds a chunk whose value parses, or none of the user key. -/
inductive Opens (common : Bytes) (found : Option Found) : Option Chunk → Prop where
  | missing : chunkOf? common found = none → Opens common found none
  | chunk {record : Found} {es : List Element} : chunkOf? common found = some record →
      parse record.value = .ok es → Opens common found (some ⟨record.key, es⟩)

/-- How many elements two chunks have that were one. -/
def countsOf : List Chunk → Option (Nat × Nat)
  | [left, right] => some (left.elements.length, right.elements.length)
  | _ => none

namespace Opens

theorem openChunk_eq (opens : Opens common found old) :
    openChunk common found = .ok ((opened common old).key, (opened common old).elements) := by
  cases opens with
  | missing nothing =>
      rw [openChunk, nothing]
      rfl
  | chunk shown parsed =>
      rw [openChunk, shown]
      dsimp only
      rw [parsed]
      rfl

/-- Setting a field asks for its chunk with the field in its place, as one or as two. -/
theorem exists_runSet (opens : Opens common found old) {threshold : Nat}
    (writable : ∀ d ∈ divided common threshold ((opened common old).including ⟨field, value⟩),
      Writable d.elements) (report : SetReport) :
    ∃ changes, runSet common field value threshold report found .empty
        = ⟨.ok true, changes, ⟨(lookup field (opened common old).elements).isNone, countsOf
          (divided common threshold ((opened common old).including ⟨field, value⟩))⟩⟩
      ∧ changes.toList = (divided common threshold
        ((opened common old).including ⟨field, value⟩)).map Chunk.put := by
  unfold divided Chunk.including at writable
  unfold runSet divided Chunk.including
  rw [opens.openChunk_eq]
  dsimp only at writable ⊢
  generalize insert ⟨field, value⟩ (opened common old).elements = es at writable ⊢
  cases split : splitAbove? threshold es with
  | none =>
      rw [split] at writable
      obtain ⟨changes, pushed, asked⟩ := exists_pushChunk .empty ⟨(opened common old).key, es⟩
        (writable _ List.mem_cons_self) (by decide)
      exact ⟨changes, by simp only at pushed; simp only [pushed, countsOf], asked⟩
  | some i =>
      rw [split] at writable
      obtain ⟨left, right⟩ := List.forall_mem_cons.mp writable
      obtain ⟨changes, pushed, asked⟩ := exists_pushChunk .empty
        ⟨(opened common old).key, es.take i⟩ left (by decide)
      have one : changes.toList.length < maxChanges := by
        rw [asked]
        exact Nat.lt_succ_self 1
      obtain ⟨changes', pushed', asked'⟩ := exists_pushChunk changes
        ⟨common ++ ((es.drop i).head?.map (·.field)).getD [], es.drop i⟩
        (right _ List.mem_cons_self) one
      refine ⟨changes', ?_, ?_⟩
      · simp only at pushed pushed'
        simp only [pushed, pushed', countsOf]
      · rw [asked', asked]
        rfl

theorem runSet_of_crowded (opens : Opens common found old) {threshold : Nat}
    (whole : splitAbove? threshold ((opened common old).including ⟨field, value⟩).elements = none)
    (crowded : maxCount < ((opened common old).including ⟨field, value⟩).elements.length)
    (report : SetReport) :
    (runSet common field value threshold report found .empty).verdict
      = .error (.misuse .packedTooManyFields) := by
  unfold Chunk.including at whole crowded
  have refused : encode (insert ⟨field, value⟩ (opened common old).elements)
      = .error .packedTooManyFields := by
    rw [encode, if_pos crowded]
    rfl
  rw [runSet, opens.openChunk_eq]
  dsimp only
  rw [whole]
  simp only [pushChunk, refused, Changes.push, Except.map]
  rfl

theorem runDelete_of_none (opens : Opens common found old)
    (absent : lookup field (opened common old).elements = none) (changes : Changes) :
    runDelete common field found changes = ⟨.ok false, changes, false⟩ := by
  cases opens with
  | missing nothing =>
      rw [runDelete, nothing]
  | @chunk record es shown parsed =>
      have absent : lookup field es = none := absent
      rw [runDelete, shown]
      simp only [parsed, absent, Option.isNone_none, if_true]

theorem exists_runDelete {c : Chunk} (opens : Opens common found (some c))
    (writable : Writable c.elements) (present : (lookup field c.elements).isSome) :
    ∃ changes, runDelete common field found .empty
        = ⟨.ok true, changes, (erase field c.elements).isEmpty⟩
      ∧ changes.toList = removal field c := by
  have there : (lookup field c.elements).isNone = false := by
    rw [Option.isNone_eq_false_iff]
    exact present
  cases opens with
  | @chunk record es shown parsed =>
      unfold runDelete removal
      rw [shown]
      dsimp only at there writable ⊢
      simp only [parsed, there, Bool.false_eq_true, if_false]
      cases nothing : (erase field es).isEmpty with
      | true => exact ⟨⟨[.delete record.key], Nat.le_succ 1⟩, rfl, rfl⟩
      | false =>
          obtain ⟨changes, pushed, asked⟩ := exists_pushChunk .empty
            (Chunk.without ⟨record.key, es⟩ field)
            (writable.sublist (erase_sublist field es)) (by decide)
          simp only [Chunk.without] at pushed
          exact ⟨changes, by simp only [pushed, Bool.false_eq_true, if_false], asked⟩

end Opens

theorem Shown.opens (shown : Shown common old found) (packable : ∀ c ∈ old, Packable c.elements) :
    Opens common found old := by
  cases old with
  | none => exact .missing shown
  | some c => exact .chunk shown (packable c rfl).parse_written

theorem writable_including (packable : ∀ c ∈ old, Packable c.elements) {e : Element}
    (fits : e.Fits) : Writable ((opened common old).including e).elements := by
  have known : (opened common old).elements.length < maxCount
      ∧ ∀ x ∈ (opened common old).elements, x.Fits := by
    cases old with
    | none =>
        have some_room : 0 < maxCount := by decide
        exact ⟨some_room, List.forall_mem_nil _⟩
    | some c => exact ⟨(packable c rfl).length_lt, (packable c rfl).fits⟩
  constructor
  · exact Nat.le_trans (length_insert_le e _) known.1
  · intro x member
    rcases mem_insert member with rfl | held
    · exact fits
    · exact known.2 x held

theorem sublist_of_mem_divided {threshold : Nat} {c d : Chunk}
    (member : d ∈ divided common threshold c) : d.elements.Sublist c.elements := by
  rcases divided_cases common threshold c with whole | ⟨left, first, right, _, parts, halved⟩
  · rw [whole] at member
    obtain rfl := List.mem_singleton.mp member
    exact List.Sublist.refl _
  · rw [halved] at member
    rw [parts]
    rcases List.mem_cons.mp member with rfl | second
    · exact List.sublist_append_left left _
    · rw [List.mem_singleton.mp second]
      exact List.sublist_append_right left _

theorem exists_runSet (shown : Shown common old found) (packable : ∀ c ∈ old, Packable c.elements)
    (fits : (⟨field, value⟩ : Element).Fits) (threshold : Nat) (report : SetReport) :
    ∃ changes split, runSet common field value threshold report found .empty
        = ⟨.ok true, changes, ⟨(lookup field (opened common old).elements).isNone, split⟩⟩
      ∧ changes.toList = (divided common threshold
        ((opened common old).including ⟨field, value⟩)).map Chunk.put := by
  have writable : Writable ((opened common old).including ⟨field, value⟩).elements :=
    writable_including packable fits
  obtain ⟨changes, ran, asked⟩ := (shown.opens packable).exists_runSet
    (fun d member => writable.sublist (sublist_of_mem_divided member)) report
  exact ⟨changes, _, ran, asked⟩

theorem runGet_eq (shown : Shown common old found) (packable : ∀ c ∈ old, Packable c.elements)
    (report : Option Bytes) (changes : Changes) :
    runGet common field report found changes
      = ⟨.ok (lookup field (opened common old).elements).isSome, changes,
        lookup field (opened common old).elements⟩ := by
  rw [runGet, shown]
  cases old with
  | none => rfl
  | some c =>
      simp only [Option.map_some, (packable c rfl).parse_written]
      rfl

theorem runDelete_of_none (shown : Shown common old found)
    (packable : ∀ c ∈ old, Packable c.elements)
    (absent : lookup field (opened common old).elements = none) (changes : Changes) :
    runDelete common field found changes = ⟨.ok false, changes, false⟩ :=
  (shown.opens packable).runDelete_of_none absent changes

theorem exists_runDelete {c : Chunk} (shown : Shown common (some c) found)
    (packable : Packable c.elements) (present : (lookup field c.elements).isSome) :
    ∃ changes gone, runDelete common field found .empty = ⟨.ok true, changes, gone⟩
      ∧ changes.toList = removal field c := by
  have opens := shown.opens fun d found => Option.some.inj found ▸ packable
  obtain ⟨changes, ran, asked⟩ := opens.exists_runDelete packable.writable present
  exact ⟨changes, _, ran, asked⟩

end OrderedStore.Packed
