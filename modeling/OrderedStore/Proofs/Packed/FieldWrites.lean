import Mathlib.Data.List.Forall2
import OrderedStore.Proofs.Packed.Written

/-! # What the operations on a field write

A field is set in the chunk that a lookup supplies, or taken out of it, whatever bytes that chunk's
value is made of. The chunk then has exactly the elements that it had, with the field in its place
or without it. They are written under the chunk's key, or under two keys with all of the first part
below the second.
-/

namespace OrderedStore.Packed

/-- What a lookup at or below a field's address can supply: no record, one that is no chunk, or a
chunk with the marker that its key has behind the common part. -/
inductive Supplied (common field : Bytes) : Option Found → Option Chunk → Prop where
  | missing : Supplied common field none none
  | foreign {record : Found} : isChunkOf record.key common = false →
      Supplied common field (some record) none
  | chunk {marker value : Bytes} {es : List Element} : marker ≠ [] →
      common ++ marker ≤ common ++ field → parse value = .ok es → (∀ e ∈ es, marker ≤ e.field) →
      Supplied common field (some ⟨common ++ marker, value⟩) (some ⟨common ++ marker, es⟩)

/-- The write puts a value under the chunk's key that is read as the chunk's elements. -/
def Puts (change : Change) (c : Chunk) : Prop :=
  ∃ raw, change = .put c.key raw ∧ parse raw = .ok c.elements

/-- A run that stores an element in a chunk, and asks for these chunks to be written for it. -/
structure SetsIn (common : Bytes) (e : Element) (threshold : Nat) (old : Option Chunk)
    (outcome : Outcome SetReport) (cs : List Chunk) : Prop where
  verdict : outcome.verdict = .ok true
  puts : List.Forall₂ Puts outcome.changes.toList cs
  elements : elementsOf cs = Ascending.inserted Element.field e (elementsOf old.toList)
  first : cs.head?.map (·.key) = some ((old.map (·.key)).getD (common ++ firstMarker))
  divided : cs.length = 2 ↔ threshold < encodedSize (elementsOf cs) ∧ 2 ≤ (elementsOf cs).length
  second : ∀ left right, cs = [left, right] →
    right.elements.head?.map (common ++ ·.field) = some right.key ∧ left.key < right.key
  inserted : outcome.report.inserted = true ↔ ∀ x ∈ elementsOf old.toList, x.field ≠ e.field
  split : outcome.report.split = countsOf cs

/-- A run that fails, since it would leave more elements in one chunk than a count can tell. -/
structure Overfills (e : Element) (threshold : Nat) (old : Option Chunk)
    (outcome : Outcome SetReport) : Prop where
  verdict : outcome.verdict = .error (.misuse .packedTooManyFields)
  crowded : maxCount < (Ascending.inserted Element.field e (elementsOf old.toList)).length
  whole : encodedSize (Ascending.inserted Element.field e (elementsOf old.toList)) ≤ threshold

/-- How a run ends that takes a field out of a chunk. -/
inductive DeletesIn (field : Bytes) : Option Chunk → Outcome Bool → Prop where
  /-- The field is not there, and nothing is asked for. -/
  | absent {old : Option Chunk} : (∀ x ∈ elementsOf old.toList, x.field ≠ field) →
      DeletesIn field old ⟨.ok false, .empty, false⟩
  /-- Nothing else is there, and the chunk goes. -/
  | emptied {c : Chunk} {changes : Changes} : (∃ x ∈ c.elements, x.field = field) →
      c.elements.filter (·.field ≠ field) = [] → changes.toList = [.delete c.key] →
      DeletesIn field (some c) ⟨.ok true, changes, true⟩
  /-- The other elements stay. -/
  | kept {c : Chunk} {changes : Changes} : (∃ x ∈ c.elements, x.field = field) →
      c.elements.filter (·.field ≠ field) ≠ [] →
      List.Forall₂ Puts changes.toList [⟨c.key, c.elements.filter (·.field ≠ field)⟩] →
      DeletesIn field (some c) ⟨.ok true, changes, false⟩

theorem puts_put {c : Chunk} (valid : Valid c.elements) : Puts c.put c :=
  ⟨written c.elements, rfl, parse_written valid⟩

theorem forall₂_puts {cs : List Chunk} (valid : ∀ c ∈ cs, Valid c.elements) :
    List.Forall₂ Puts (cs.map Chunk.put) cs := by
  induction cs with
  | nil => exact .nil
  | cons c cs ih =>
      obtain ⟨here, later⟩ := List.forall_mem_cons.mp valid
      exact .cons (puts_put here) (ih later)

theorem isNone_lookup_iff {field : Bytes} {es : List Element} (asc : Ascending Element.field es) :
    (lookup field es).isNone = true ↔ ∀ x ∈ es, x.field ≠ field := by
  rw [lookup_eq asc, Option.isNone_map, Option.isNone_iff_eq_none, List.find?_eq_none]
  simp only [decide_eq_true_eq]

namespace Supplied

variable {common field value : Bytes} {found : Option Found} {old : Option Chunk}

theorem opens (supplied : Supplied common field found old) : Opens common found old := by
  cases supplied with
  | missing => exact .missing rfl
  | @foreign record foreign =>
      refine .missing ?_
      rw [chunkOf?, Option.filter_some, foreign, if_neg Bool.false_ne_true]
  | @chunk marker raw es filled reached parsed least =>
      have shown : chunkOf? common (some ⟨common ++ marker, raw⟩)
          = some ⟨common ++ marker, raw⟩ := by
        rw [chunkOf?, Option.filter_some, isChunkOf_append common filled, if_pos rfl]
      exact .chunk shown parsed

theorem valid (supplied : Supplied common field found old) :
    Valid (opened common old).elements := by
  cases supplied with
  | missing => exact .nil
  | foreign => exact .nil
  | chunk _ _ parsed _ => exact valid_of_parse parsed

theorem reached (supplied : Supplied common field found old) (named : field ≠ []) :
    (opened common old).key ≤ common ++ field := by
  cases supplied with
  | missing => exact Bytes.append_le_append_iff.mpr (firstMarker_le named)
  | foreign => exact Bytes.append_le_append_iff.mpr (firstMarker_le named)
  | chunk _ reached _ _ => exact reached

theorem least (supplied : Supplied common field found old) :
    ∀ e ∈ (opened common old).elements, (opened common old).key ≤ common ++ e.field := by
  cases supplied with
  | missing => exact List.forall_mem_nil _
  | foreign => exact List.forall_mem_nil _
  | chunk _ _ _ least =>
      intro e member
      exact Bytes.append_le_append_iff.mpr (least e member)

theorem elements_including (supplied : Supplied common field found old) (value : Bytes) :
    ((opened common old).including ⟨field, value⟩).elements
      = Ascending.inserted Element.field ⟨field, value⟩ (elementsOf old.toList) := by
  rw [elementsOf_toList common]
  exact insert_eq supplied.valid.ascending _

theorem ascending_including (supplied : Supplied common field found old) (value : Bytes) :
    Ascending Element.field ((opened common old).including ⟨field, value⟩).elements := by
  rw [supplied.elements_including value, elementsOf_toList common]
  exact supplied.valid.ascending.ascending_inserted _

/-- What a chunk is written as is valid, unless a whole chunk has more elements than a count can
tell. -/
theorem valid_divided (supplied : Supplied common field found old) (named : field ≠ [])
    (fits : (⟨field, value⟩ : Element).Fits) {threshold : Nat}
    (room : ((opened common old).including ⟨field, value⟩).elements.length ≤ maxCount
      ∨ (divided common threshold ((opened common old).including ⟨field, value⟩)).length = 2) :
    ∀ d ∈ divided common threshold ((opened common old).including ⟨field, value⟩),
      Valid d.elements := by
  have valid := supplied.valid
  have asc := supplied.ascending_including value
  have grown : ((opened common old).including ⟨field, value⟩).elements.length ≤ maxCount + 1 :=
    Nat.le_trans (length_insert_le _ _) (Nat.succ_le_succ valid.few)
  have kept : ∀ x ∈ ((opened common old).including ⟨field, value⟩).elements,
      x.Fits ∧ x.field ≠ [] := by
    intro x member
    rcases mem_insert member with rfl | held
    · exact ⟨fits, named⟩
    · exact ⟨valid.fits x held, valid.named x held⟩
  intro d member
  have part := sublist_of_mem_divided member
  refine ⟨⟨?_, fun x held => (kept x (part.subset held)).1⟩,
    fun x held => (kept x (part.subset held)).2, asc.sublist part⟩
  rcases divided_cases common threshold ((opened common old).including ⟨field, value⟩) with
    whole | ⟨left, first, right, filled, parts, halved⟩
  · rw [whole] at member room
    rw [List.mem_singleton.mp member]
    exact room.resolve_right (by simp)
  · -- neither half has all the elements
    have some_left := List.length_pos_iff.mpr filled
    rw [parts, List.length_append, List.length_cons] at grown
    rw [halved] at member
    rcases List.mem_cons.mp member with rfl | second
    · dsimp only
      omega
    · rw [List.mem_singleton.mp second, List.length_cons]
      omega

theorem key_second (supplied : Supplied common field found old) (named : field ≠ [])
    {threshold : Nat} {left right : Chunk}
    (two : divided common threshold ((opened common old).including ⟨field, value⟩)
      = [left, right]) :
    right.elements.head?.map (common ++ ·.field) = some right.key ∧ left.key < right.key := by
  rcases divided_cases common threshold ((opened common old).including ⟨field, value⟩) with
    whole | ⟨lower, first, upper, filled, parts, halved⟩
  · rw [whole] at two
    exact absurd (congrArg List.length two) (by simp)
  · rw [halved] at two
    obtain ⟨rfl, rest⟩ := List.cons.inj two
    obtain ⟨rfl, _⟩ := List.cons.inj rest
    refine ⟨rfl, ?_⟩
    obtain ⟨e, member⟩ := List.exists_mem_of_ne_nil lower filled
    have asc := supplied.ascending_including value
    rw [parts] at asc
    obtain ⟨_, _, below⟩ := List.pairwise_append.mp asc
    have held : e ∈ ((opened common old).including ⟨field, value⟩).elements := by
      rw [parts]
      exact List.mem_append_left _ member
    have least : (opened common old).key ≤ common ++ e.field := by
      rcases mem_insert held with rfl | before
      · exact supplied.reached named
      · exact supplied.least e before
    have less : common ++ e.field < common ++ first.field :=
      Bytes.append_lt_append_iff.mpr (below e member first List.mem_cons_self)
    exact Std.lt_of_le_of_lt least less

end Supplied

variable {user field : Bytes} {found : Option Found} {old : Option Chunk}

/-- A set in the chunk that was supplied for its field stores the field there, and tells so, unless
that chunk is left whole with more elements than its count can tell. -/
theorem Supplied.exists_setsIn (supplied : Supplied (stem user) field found old) {value : Bytes}
    {threshold : Nat} {op : Operation SetReport}
    (named : setField user field value threshold = .ok op) (report : SetReport) :
    (∃ cs, SetsIn (stem user) ⟨field, value⟩ threshold old (op.run report found .empty) cs)
      ∨ Overfills ⟨field, value⟩ threshold old (op.run report found .empty) := by
  obtain ⟨fits, filled, rfl⟩ := setField_eq_ok named
  have elements := supplied.elements_including value
  by_cases room : ((opened (stem user) old).including ⟨field, value⟩).elements.length ≤ maxCount
      ∨ (divided (stem user) threshold
        ((opened (stem user) old).including ⟨field, value⟩)).length = 2
  · left
    have written := supplied.valid_divided filled fits room
    obtain ⟨changes, ran, asked⟩ :=
      supplied.opens.exists_runSet (fun d member => (written d member).toWritable) report
    refine ⟨divided (stem user) threshold ((opened (stem user) old).including ⟨field, value⟩), ?_⟩
    have outcome : Operation.run ⟨stem user ++ field, true, false, ⟨false, none⟩,
      runSet (stem user) field value threshold⟩ report found .empty = _ := ran
    rw [outcome]
    exact
      { verdict := rfl
        puts := asked ▸ forall₂_puts written
        elements := (elementsOf_divided _ _ _).trans elements
        first := by
          obtain ⟨es, rest, chunks⟩ := exists_divided (stem user) threshold
            ((opened (stem user) old).including ⟨field, value⟩)
          rw [chunks]
          cases old <;> rfl
        divided := by
          rw [elementsOf_divided]
          exact length_divided_iff
        second := fun left right => supplied.key_second filled
        inserted := by
          rw [elementsOf_toList (stem user)]
          exact isNone_lookup_iff supplied.valid.ascending
        split := rfl }
  · right
    obtain ⟨crowded, whole⟩ := not_or.mp room
    have crowded := Nat.not_le.mp crowded
    have below : ¬threshold
        < encodedSize ((opened (stem user) old).including ⟨field, value⟩).elements := by
      intro above
      rw [maxCount] at crowded
      exact whole (length_divided_iff.mpr ⟨above, by omega⟩)
    refine ⟨?_, by rwa [← elements], by rw [← elements]; exact Nat.not_lt.mp below⟩
    exact supplied.opens.runSet_of_crowded (if_neg below) crowded report

theorem removal_eq {c : Chunk} (asc : Ascending Element.field c.elements) (field : Bytes) :
    removal field c = if (c.elements.filter (·.field ≠ field)).isEmpty then [.delete c.key]
      else [Chunk.put ⟨c.key, c.elements.filter (·.field ≠ field)⟩] := by
  rw [removal, Chunk.without, erase_eq asc]

/-- A deletion takes the field out of the chunk that was supplied for it, and the chunk with it if
that was its last one; where the field is not, nothing is asked for. -/
theorem Supplied.deletesIn (supplied : Supplied (stem user) field found old) {op : Operation Bool}
    (named : deleteField user field = .ok op) (report : Bool) :
    DeletesIn field old (op.run report found .empty) := by
  obtain ⟨_, rfl⟩ := deleteField_eq_ok named
  dsimp only
  cases old with
  | none =>
      rw [supplied.opens.runDelete_of_none rfl]
      exact .absent (List.forall_mem_nil _)
  | some c =>
      have valid : Valid c.elements := supplied.valid
      by_cases present : ∃ x ∈ c.elements, x.field = field
      · have found : (lookup field c.elements).isSome := by
          obtain ⟨x, member, here⟩ := present
          rw [← Option.isNone_eq_false_iff, ← Bool.not_eq_true, isNone_lookup_iff valid.ascending]
          exact fun absent => absent x member here
        obtain ⟨changes, ran, asked⟩ := supplied.opens.exists_runDelete valid.toWritable found
        rw [removal_eq valid.ascending] at asked
        rw [ran, erase_eq valid.ascending]
        cases nothing : (c.elements.filter (·.field ≠ field)).isEmpty with
        | true =>
            rw [nothing] at asked
            exact .emptied present (List.isEmpty_iff.mp nothing) asked
        | false =>
            rw [nothing] at asked
            refine .kept present (List.isEmpty_eq_false_iff.mp nothing) ?_
            rw [asked]
            exact .cons (puts_put (valid.sublist List.filter_sublist)) .nil
      · have absent : ∀ x ∈ c.elements, x.field ≠ field :=
          fun x member here => present ⟨x, member, here⟩
        have nothing := (isNone_lookup_iff valid.ascending).mpr absent
        rw [supplied.opens.runDelete_of_none (Option.isNone_iff_eq_none.mp nothing)]
        exact .absent (by rwa [elementsOf_toList (stem user)])

/-- Setting a field and deleting it rewrite exactly the chunk that a lookup supplied for it. -/
theorem field_writes_exact (supplied : Supplied (stem user) field found old) :
    (∀ value threshold op report, setField user field value threshold = .ok op →
      (∃ cs, SetsIn (stem user) ⟨field, value⟩ threshold old (op.run report found .empty) cs)
        ∨ Overfills ⟨field, value⟩ threshold old (op.run report found .empty))
    ∧ ∀ op report, deleteField user field = .ok op →
      DeletesIn field old (op.run report found .empty) := by
  constructor
  · intro value threshold op report named
    exact supplied.exists_setsIn named report
  · intro op report named
    exact supplied.deletesIn named report

/-- One field of a user key, in its first chunk. -/
def lone : List Element := [⟨[97], [120]⟩]

theorem field_writes_exact_lone :
    ∃ set delete, setField [107] [98] [121] 8 = .ok set ∧ deleteField [107] [98] = .ok delete
      ∧ Supplied (stem [107]) [98] (some ⟨stem [107] ++ [0], written lone⟩)
        (some ⟨stem [107] ++ [0], lone⟩)
      ∧ (∃ cs, SetsIn (stem [107]) ⟨[98], [121]⟩ 8 (some ⟨stem [107] ++ [0], lone⟩)
        (set.run ⟨false, none⟩ (some ⟨stem [107] ++ [0], written lone⟩) .empty) cs ∧ cs.length = 2)
      ∧ DeletesIn [98] (some ⟨stem [107] ++ [0], lone⟩)
        (delete.run false (some ⟨stem [107] ++ [0], written lone⟩) .empty) := by
  have valid : Valid lone :=
    { few := by decide
      fits := by simpa [lone] using ⟨by decide, by decide⟩
      named := by simp [lone]
      ascending := List.pairwise_singleton _ _ }
  have supplied : Supplied (stem [107]) [98] (some ⟨stem [107] ++ [0], written lone⟩)
      (some ⟨stem [107] ++ [0], lone⟩) :=
    .chunk (by decide) (by decide) (parse_written valid) (by decide)
  obtain ⟨sets, deletes⟩ := field_writes_exact supplied
  refine ⟨_, _, rfl, rfl, supplied, ?_, deletes _ false rfl⟩
  rcases sets [121] 8 _ ⟨false, none⟩ rfl with ⟨cs, chunks⟩ | ⟨_, crowded, _⟩
  · refine ⟨cs, chunks, chunks.divided.mpr ?_⟩
    rw [chunks.elements]
    decide
  · exact absurd crowded (by decide)

end OrderedStore.Packed
