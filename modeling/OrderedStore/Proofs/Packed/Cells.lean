import OrderedStore.Ascending
import OrderedStore.Packed.Value
import OrderedStore.Proofs.Bytes.Varints

/-! # Elements as they lie in bytes

The bytes of a packed value are a count and as many cells, each an element behind varints of its
lengths, which may be longer than they have to be. Parsing takes such bytes and no others, and what
it gives are the elements of the cells, of which the bytes have but one reading.
-/

namespace OrderedStore

theorem Bytes.split?_append (taken rest : Bytes) :
    split? taken.length (taken ++ rest) = some (taken, rest) := by
  simp [split?_eq]

theorem Bytes.eq_append_of_split? {n : Nat} {buf taken rest : Bytes}
    (parts : split? n buf = some (taken, rest)) : taken.length = n ∧ buf = taken ++ rest := by
  rw [split?_eq] at parts
  split at parts
  · next enough =>
    obtain ⟨rfl, rfl⟩ := Prod.mk.inj (Option.some.inj parts)
    exact ⟨List.length_take_of_le enough, (List.take_append_drop n buf).symm⟩
  · contradiction

namespace Packed

/-- An element as it lies in the bytes of a value, behind the varints of its lengths. -/
structure Cell where
  fieldLength : Bytes
  valueLength : Bytes
  element : Element

namespace Cell

def bytes (c : Cell) : Bytes :=
  c.fieldLength ++ (c.valueLength ++ (c.element.field ++ c.element.value))

/-- The varints are those of the lengths. -/
structure Spelled (c : Cell) : Prop where
  field : Varint.Spells c.fieldLength c.element.field.length
  value : Varint.Spells c.valueLength c.element.value.length

/-- The varints are as short as those of the lengths can be. -/
structure Minimal (c : Cell) : Prop where
  field : Varint.Minimal c.fieldLength c.element.field.length
  value : Varint.Minimal c.valueLength c.element.value.length

theorem bytes_append (c : Cell) (rest : Bytes) : c.bytes ++ rest
    = c.fieldLength ++ (c.valueLength ++ (c.element.field ++ (c.element.value ++ rest))) := by
  simp only [bytes, List.append_assoc]

namespace Spelled

variable {c c' : Cell}

theorem readElement (spelled : c.Spelled) (rest : Bytes) :
    readElement (c.bytes ++ rest) = .ok (c.element, rest) := by
  rw [bytes_append]
  simp only [Packed.readElement, spelled.field.decode, spelled.value.decode, Bytes.split?_append]

theorem bytes_ne_nil (spelled : c.Spelled) : c.bytes ≠ [] := by
  have pos := spelled.field.groups.length_pos
  intro empty
  rw [bytes, List.append_eq_nil_iff] at empty
  exact absurd empty.1 (List.length_pos_iff.mp pos)

theorem append_inj (spelled : c.Spelled) (spelled' : c'.Spelled) {rest rest' : Bytes}
    (same : c.bytes ++ rest = c'.bytes ++ rest') : c = c' ∧ rest = rest' := by
  have read := spelled.readElement rest
  rw [same, spelled'.readElement rest'] at read
  obtain ⟨elements, rests⟩ := Prod.mk.inj (Except.ok.inj read)
  rw [bytes_append, bytes_append] at same
  obtain ⟨fields, behind⟩ := spelled.field.append_inj spelled'.field same
  obtain ⟨values, _⟩ := spelled.value.append_inj spelled'.value behind
  obtain ⟨fieldLength, valueLength, element⟩ := c
  obtain ⟨fieldLength', valueLength', element'⟩ := c'
  dsimp only at fields values elements
  rw [fields, values, elements]
  exact ⟨rfl, rests.symm⟩

end Spelled

end Cell

theorem exists_cell_of_readElement {src rest : Bytes} {e : Element}
    (found : readElement src = .ok (e, rest)) :
    ∃ c : Cell, c.Spelled ∧ c.element = e ∧ src = c.bytes ++ rest := by
  rw [readElement] at found
  dsimp only at found
  split at found
  · contradiction
  rename_i n field_length
  split at found
  · contradiction
  rename_i m value_length
  split at found
  · contradiction
  rename_i field behind field_parts
  split at found
  · contradiction
  rename_i value rest' value_parts
  obtain ⟨rfl, rfl⟩ := Prod.mk.inj (Except.ok.inj found)
  obtain ⟨fieldLength, field_spelled, field_src⟩ := Varint.exists_spells_of_decode field_length
  obtain ⟨valueLength, value_spelled, value_src⟩ := Varint.exists_spells_of_decode value_length
  obtain ⟨rfl, field_eq⟩ := Bytes.eq_append_of_split? field_parts
  obtain ⟨rfl, value_eq⟩ := Bytes.eq_append_of_split? value_parts
  refine ⟨⟨fieldLength, valueLength, field, value⟩, ⟨field_spelled, value_spelled⟩, rfl, ?_⟩
  rw [Cell.bytes_append, field_src, value_src, field_eq, value_eq]

section

variable {read : List Element} {src : Bytes}

theorem readElements_nil (read : List Element) : readElements read [] = .ok read.reverse := by
  rw [readElements]
  rfl

theorem readElements_of_error {fault : Corruption} (filled : src ≠ [])
    (failed : readElement src = .error fault) : readElements read src = .error fault := by
  rw [readElements, if_neg (by simpa using filled)]
  split
  · rename_i fault' failed'
    rw [failed, Except.error.injEq] at failed'
    rw [failed']
  · rename_i found
    rw [failed] at found
    contradiction

theorem readElements_of_ok {e : Element} {rest : Bytes} (found : readElement src = .ok (e, rest)) :
    readElements read src = if e.field.isEmpty then .error .packedFieldEmpty
      else if read.head?.any (e.field ≤ ·.field) then .error .packedFieldsUnordered
      else readElements (e :: read) rest := by
  have filled : src ≠ [] := by
    rintro rfl
    contradiction
  rw [readElements, if_neg (by simpa using filled)]
  split
  · rename_i failed
    rw [found] at failed
    contradiction
  · rename_i e' rest' found'
    obtain ⟨rfl, rfl⟩ := Prod.mk.inj (Except.ok.inj (found.symm.trans found'))
    rfl

/-- An element goes behind those that were read if its field lies above the last of theirs. -/
theorem ascending_concat_iff {e : Element} (asc : Ascending Element.field read.reverse) :
    Ascending Element.field (read.reverse ++ [e])
      ↔ read.head?.any (e.field ≤ ·.field) = false := by
  cases read with
  | nil => exact ⟨fun _ => rfl, fun _ => List.pairwise_singleton _ e⟩
  | cons last read =>
      rw [List.head?_cons, Option.any_some, decide_eq_false_iff_not, List.not_le]
      constructor
      · intro ordered
        obtain ⟨_, _, before⟩ := List.pairwise_append.mp ordered
        exact before last (by simp) e (by simp)
      · intro less
        refine List.pairwise_append.mpr ⟨asc, List.pairwise_singleton _ e, ?_⟩
        intro x member y same
        rw [List.mem_singleton.mp same]
        rw [List.reverse_cons] at asc member
        obtain ⟨_, _, before⟩ := List.pairwise_append.mp asc
        rcases List.mem_append.mp member with inside | last_one
        · exact List.lt_trans (before x inside last (by simp)) less
        · rwa [List.mem_singleton.mp last_one]

/-- By induction on the cells that are left; the elements read so far lie below theirs. -/
theorem readElements_cells {cells : List Cell} (spelled : ∀ c ∈ cells, c.Spelled)
    (named : ∀ c ∈ cells, c.element.field ≠ [])
    (asc : Ascending Element.field (read.reverse ++ cells.map (·.element))) :
    readElements read (cells.flatMap Cell.bytes)
      = .ok (read.reverse ++ cells.map (·.element)) := by
  induction cells generalizing read with
  | nil =>
      rw [List.map_nil, List.append_nil]
      exact readElements_nil read
  | cons c cells ih =>
      obtain ⟨here, later⟩ := List.forall_mem_cons.mp spelled
      obtain ⟨filled, named⟩ := List.forall_mem_cons.mp named
      have shift : read.reverse ++ (c :: cells).map (·.element)
          = (c.element :: read).reverse ++ cells.map (·.element) := by simp
      rw [shift] at asc ⊢
      have upto := (List.pairwise_append.mp asc).1
      rw [List.reverse_cons] at upto
      have ordered := (ascending_concat_iff (List.pairwise_append.mp upto).1).mp upto
      have unnamed : c.element.field.isEmpty = false := by simpa using filled
      rw [List.flatMap_cons, readElements_of_ok (here.readElement _), unnamed,
        if_neg Bool.false_ne_true, ordered, if_neg Bool.false_ne_true]
      exact ih later named asc

end

/-- By induction on the bytes that are left. -/
theorem exists_cells_of_readElements {read es : List Element} {src : Bytes}
    (asc : Ascending Element.field read.reverse) (found : readElements read src = .ok es) :
    ∃ cells : List Cell, (∀ c ∈ cells, c.Spelled) ∧ (∀ c ∈ cells, c.element.field ≠ [])
      ∧ es = read.reverse ++ cells.map (·.element) ∧ Ascending Element.field es
      ∧ src = cells.flatMap Cell.bytes := by
  by_cases filled : src = []
  · subst filled
    rw [readElements_nil] at found
    obtain rfl := Except.ok.inj found
    exact ⟨[], by simp, by simp, by simp, asc, rfl⟩
  · cases first : readElement src with
    | error fault =>
        rw [readElements_of_error filled first] at found
        contradiction
    | ok pair =>
        obtain ⟨e, rest⟩ := pair
        have _shorter := length_lt_of_readElement first
        obtain ⟨c, here, rfl, parts⟩ := exists_cell_of_readElement first
        rw [readElements_of_ok first] at found
        split at found
        · contradiction
        · rename_i unnamed
          split at found
          · contradiction
          · rename_i ordered
            have asc' : Ascending Element.field (c.element :: read).reverse := by
              rw [List.reverse_cons]
              exact (ascending_concat_iff asc).mpr (Bool.eq_false_iff.mpr ordered)
            obtain ⟨cells, later, named, rfl, all_asc, rest_eq⟩ :=
              exists_cells_of_readElements asc' found
            refine ⟨c :: cells, List.forall_mem_cons.mpr ⟨here, later⟩,
              List.forall_mem_cons.mpr ⟨by simpa using unnamed, named⟩, by simp, all_asc, ?_⟩
            rw [parts, rest_eq, List.flatMap_cons]
termination_by src.length

/-- The bytes are a count and as many cells, with fields that are not empty and in order. -/
structure Forms (raw : Bytes) (cells : List Cell) : Prop where
  eq : raw = Bytes.ofU16 cells.length ++ cells.flatMap Cell.bytes
  few : cells.length ≤ maxCount
  spelled : ∀ c ∈ cells, c.Spelled
  named : ∀ c ∈ cells, c.element.field ≠ []
  ascending : Ascending Element.field (cells.map (·.element))

theorem Cell.flatMap_bytes_inj {cells cells' : List Cell} (spelled : ∀ c ∈ cells, c.Spelled)
    (spelled' : ∀ c ∈ cells', c.Spelled) (same : cells.flatMap bytes = cells'.flatMap bytes) :
    cells = cells' := by
  induction cells generalizing cells' with
  | nil =>
      cases cells' with
      | nil => rfl
      | cons c' cells' =>
          rw [List.flatMap_nil, List.flatMap_cons] at same
          have empty := (List.append_eq_nil_iff.mp same.symm).1
          exact absurd empty (spelled' c' List.mem_cons_self).bytes_ne_nil
  | cons c cells ih =>
      obtain ⟨here, later⟩ := List.forall_mem_cons.mp spelled
      cases cells' with
      | nil =>
          rw [List.flatMap_nil, List.flatMap_cons] at same
          exact absurd (List.append_eq_nil_iff.mp same).1 here.bytes_ne_nil
      | cons c' cells' =>
          obtain ⟨here', later'⟩ := List.forall_mem_cons.mp spelled'
          rw [List.flatMap_cons, List.flatMap_cons] at same
          obtain ⟨rfl, rest⟩ := here.append_inj here' same
          rw [ih later later' rest]

/-- A value is parsed exactly if it is laid out as a value. -/
theorem parse_eq_ok_iff {raw : Bytes} {es : List Element} :
    parse raw = .ok es ↔ ∃ cells, Forms raw cells ∧ cells.map (·.element) = es := by
  constructor
  · intro parsed
    rw [parse] at parsed
    split at parsed
    · contradiction
    rename_i count rest parts
    split at parsed
    · contradiction
    rename_i elements found
    have none_read : Ascending Element.field ([] : List Element).reverse := .nil
    obtain ⟨cells, spelled, named, rfl, asc, rest_eq⟩ :=
      exists_cells_of_readElements none_read found
    split at parsed
    · rename_i counted
      obtain rfl := Except.ok.inj parsed
      obtain ⟨length, raw_eq⟩ := Bytes.eq_append_of_split? parts
      have told : Bytes.toU16 count = cells.length := by simpa using counted.symm
      have written : Bytes.ofU16 cells.length = count := by
        rw [← told, Bytes.ofU16_toU16 (Nat.le_of_eq length.symm)]
        exact List.take_of_length_le (Nat.le_of_eq length)
      refine ⟨cells, ⟨?_, ?_, spelled, named, asc⟩, rfl⟩
      · rw [written, ← rest_eq, raw_eq]
      · rw [← told]
        exact Nat.le_of_lt_succ (Bytes.toU16_lt count)
    · contradiction
  · rintro ⟨cells, forms, rfl⟩
    have parts : Bytes.split? countSize raw
        = some (Bytes.ofU16 cells.length, cells.flatMap Cell.bytes) := by
      rw [forms.eq]
      exact Bytes.split?_append (Bytes.ofU16 cells.length) _
    have elements : readElements [] (cells.flatMap Cell.bytes) = .ok (cells.map (·.element)) :=
      readElements_cells forms.spelled forms.named forms.ascending
    have count : Bytes.toU16 (Bytes.ofU16 cells.length) = cells.length := by
      have read := Bytes.toU16_ofU16_append cells.length []
      rw [List.append_nil] at read
      rw [read]
      exact Nat.mod_eq_of_lt (Nat.lt_succ_of_le forms.few)
    simp only [parse, parts, elements, count, List.length_map, if_true]

end Packed

end OrderedStore
