import OrderedStore.Proofs.Packed.Cells
import OrderedStore.Record

/-! # Reading back packed values

Elements in the order of their fields are read back from their written form. Elements that one
record has room for need no further bounds: their number and the lengths of their fields and values
are then far below what the written form can tell. Elements that were read from other bytes are
written in no more, and in the same bytes if no varint of theirs could be shorter.
-/

namespace OrderedStore

namespace Packed

/-- The lengths of field and value have varints. -/
structure Element.Fits (e : Element) : Prop where
  field : e.field.length < Varint.limit
  value : e.value.length < Varint.limit

theorem Element.check_of_fits {e : Element} (fits : e.Fits) :
    Element.check e.field e.value = .ok () := by
  rw [check, if_neg (Nat.not_le.mpr fits.field), if_neg (Nat.not_le.mpr fits.value)]

theorem Element.length_encode {e : Element} (fits : e.Fits) : e.encode.length = e.size := by
  have field_length := Varint.length_encode fits.field
  have value_length := Varint.length_encode fits.value
  simp only [encode, onto, Varint.onto_eq, List.length_append, List.length_nil, field_length,
    value_length, size]
  omega

/-- The bytes of a packed value with these elements. -/
def written (es : List Element) : Bytes := Bytes.ofU16 es.length ++ es.flatMap Element.encode

/-- The number and the lengths of elements that have a written form. -/
structure Writable (es : List Element) : Prop where
  few : es.length ≤ maxCount
  fits : ∀ e ∈ es, e.Fits

/-- Elements that are read back from their written form. -/
structure Valid (es : List Element) : Prop extends Writable es where
  named : ∀ e ∈ es, e.field ≠ []
  ascending : Ascending Element.field es

section

variable {e : Element} {es : List Element}

theorem Writable.sublist {es' : List Element} (writable : Writable es) (part : es'.Sublist es) :
    Writable es' :=
  ⟨Nat.le_trans part.length_le writable.few, fun e member => writable.fits e (part.subset member)⟩

theorem encode_eq (writable : Writable es) : encode es = .ok (written es) := by
  obtain ⟨few, fits⟩ := writable
  have checked : es.forM (fun e => Element.check e.field e.value) = .ok () := by
    induction es with
    | nil => rfl
    | cons e es ih =>
        obtain ⟨here, later⟩ := List.forall_mem_cons.mp fits
        have first : (e :: es).forM (fun e => Element.check e.field e.value)
            = (Element.check e.field e.value).bind fun _ =>
              es.forM fun e => Element.check e.field e.value := rfl
        rw [first, Element.check_of_fits here]
        exact ih (Nat.le_of_succ_le few) later
  simp only [encode, if_neg (Nat.not_lt.mpr few), checked, foldr_onto]
  rfl

theorem length_written (fits : ∀ e ∈ es, e.Fits) : (written es).length = encodedSize es := by
  have elements : (es.flatMap Element.encode).length = total Element.size es := by
    induction es with
    | nil => rfl
    | cons e es ih =>
        obtain ⟨here, later⟩ := List.forall_mem_cons.mp fits
        rw [List.flatMap_cons, List.length_append, Element.length_encode here, ih later, total_cons]
  rw [written, List.length_append, elements, Bytes.length_ofU16]
  rfl

/-- The cell that an element is written as. -/
def Element.cell (e : Element) : Cell :=
  ⟨Varint.encode e.field.length, Varint.encode e.value.length, e⟩

theorem Element.bytes_cell (e : Element) : e.cell.bytes = e.encode := by
  simp only [Cell.bytes, cell, encode, onto, Varint.onto_eq, List.append_nil]

theorem Element.Fits.spelled (fits : e.Fits) : e.cell.Spelled :=
  ⟨.of_encode fits.field, .of_encode fits.value⟩

theorem element_cell (es : List Element) : (es.map Element.cell).map (·.element) = es := by
  rw [List.map_map]
  exact List.map_id es

theorem Valid.nil : Valid [] :=
  ⟨⟨Nat.zero_le _, List.forall_mem_nil _⟩, List.forall_mem_nil _, .nil⟩

theorem Valid.sublist {es' : List Element} (valid : Valid es) (part : es'.Sublist es) : Valid es' :=
  ⟨valid.toWritable.sublist part, fun e member => valid.named e (part.subset member),
    valid.ascending.sublist part⟩

theorem Valid.forms_written (valid : Valid es) : Forms (written es) (es.map Element.cell) := by
  refine ⟨?_, by rw [List.length_map]; exact valid.few, ?_, ?_, ?_⟩
  · simp only [written, List.length_map, List.flatMap_map, Element.bytes_cell]
  · intro c member
    obtain ⟨e, held, rfl⟩ := List.mem_map.mp member
    exact (valid.fits e held).spelled
  · intro c member
    obtain ⟨e, held, rfl⟩ := List.mem_map.mp member
    exact valid.named e held
  · rw [element_cell]
    exact valid.ascending

theorem parse_written (valid : Valid es) : parse (written es) = .ok es :=
  parse_eq_ok_iff.mpr ⟨_, valid.forms_written, element_cell es⟩

end

namespace Cell.Spelled

variable {c : Cell}

theorem fits (spelled : c.Spelled) : c.element.Fits :=
  ⟨spelled.field.lt_limit, spelled.value.lt_limit⟩

theorem length_encode_le (spelled : c.Spelled) : c.element.encode.length ≤ c.bytes.length := by
  have field_length := spelled.field.groups.length_encode_le
  have value_length := spelled.value.groups.length_encode_le
  rw [← Element.bytes_cell]
  simp only [bytes, Element.cell, List.length_append]
  omega

theorem minimal_iff (spelled : c.Spelled) : c.Minimal ↔ c.element.cell = c := by
  obtain ⟨fieldLength, valueLength, e⟩ := c
  simp only [Element.cell, Cell.mk.injEq, and_true]
  constructor
  · rintro ⟨field, value⟩
    exact ⟨(spelled.field.minimal_iff.mp field).symm, (spelled.value.minimal_iff.mp value).symm⟩
  · rintro ⟨field, value⟩
    exact ⟨spelled.field.minimal_iff.mpr field.symm, spelled.value.minimal_iff.mpr value.symm⟩

end Cell.Spelled

theorem length_flatMap_encode_le {cells : List Cell} (spelled : ∀ c ∈ cells, c.Spelled) :
    ((cells.map (·.element)).flatMap Element.encode).length
      ≤ (cells.flatMap Cell.bytes).length := by
  induction cells with
  | nil => exact Nat.le_refl _
  | cons c cells ih =>
      obtain ⟨here, later⟩ := List.forall_mem_cons.mp spelled
      rw [List.map_cons, List.flatMap_cons, List.flatMap_cons, List.length_append,
        List.length_append]
      exact Nat.add_le_add here.length_encode_le (ih later)

namespace Forms

variable {raw : Bytes} {cells cells' : List Cell}

theorem valid (forms : Forms raw cells) : Valid (cells.map (·.element)) := by
  refine ⟨⟨by rw [List.length_map]; exact forms.few, ?_⟩, ?_, forms.ascending⟩
  · intro e member
    obtain ⟨c, held, rfl⟩ := List.mem_map.mp member
    exact (forms.spelled c held).fits
  · intro e member
    obtain ⟨c, held, rfl⟩ := List.mem_map.mp member
    exact forms.named c held

/-- Bytes are laid out as a value in at most one way. -/
theorem unique (forms : Forms raw cells) (forms' : Forms raw cells') : cells = cells' := by
  have same := forms.eq.symm.trans forms'.eq
  have rest := (List.append_inj same (by simp)).2
  exact Cell.flatMap_bytes_inj forms.spelled forms'.spelled rest

theorem length_written_le (forms : Forms raw cells) :
    (written (cells.map (·.element))).length ≤ raw.length := by
  rw [forms.eq, written, List.length_append, List.length_append, Bytes.length_ofU16,
    Bytes.length_ofU16]
  exact Nat.add_le_add_left (length_flatMap_encode_le forms.spelled) 2

/-- Elements that were read are written in the same bytes if no varint of theirs could be shorter.
-/
theorem written_eq_iff (forms : Forms raw cells) :
    written (cells.map (·.element)) = raw ↔ ∀ c ∈ cells, c.Minimal := by
  have rewritten := forms.valid.forms_written
  rw [List.map_map] at rewritten
  have unchanged : cells.map (Element.cell ∘ (·.element)) = cells ↔ ∀ c ∈ cells, c.Minimal := by
    have shortest := forall₂_congr fun c (held : c ∈ cells) => (forms.spelled c held).minimal_iff
    rw [shortest, ← List.map_inj_left, List.map_id']
    exact Iff.rfl
  rw [← unchanged]
  constructor
  · intro same
    rw [same] at rewritten
    exact rewritten.unique forms
  · intro kept
    rw [rewritten.eq, kept]
    exact forms.eq.symm

end Forms

theorem valid_of_parse {raw : Bytes} {es : List Element} (parsed : parse raw = .ok es) :
    Valid es := by
  obtain ⟨cells, forms, rfl⟩ := parse_eq_ok_iff.mp parsed
  exact forms.valid

/-- Elements in the order of their fields that one record has room for. -/
structure Packable (es : List Element) : Prop where
  ascending : Ascending Element.field es
  named : ∀ e ∈ es, e.field ≠ []
  short : encodedSize es ≤ Record.maxValue

theorem length_le_total_size (es : List Element) : es.length ≤ total Element.size es := by
  induction es with
  | nil => exact Nat.le_refl 0
  | cons e es ih =>
      have pos := e.size_pos
      rw [List.length_cons, total_cons]
      omega

theorem size_le_total {e : Element} {es : List Element} (member : e ∈ es) :
    e.size ≤ total Element.size es := by
  obtain ⟨before, behind, rfl⟩ := List.append_of_mem member
  rw [total_append, total_cons]
  omega

namespace Packable

variable {es : List Element}

theorem fits (packable : Packable es) : ∀ e ∈ es, e.Fits := by
  intro e member
  have part := size_le_total member
  have short := packable.short
  rw [encodedSize, countSize, Record.maxValue] at short
  rw [Element.size] at part
  constructor
  · rw [Varint.limit]
    omega
  · rw [Varint.limit]
    omega

theorem length_le (packable : Packable es) : es.length ≤ maxCount := by
  have count := length_le_total_size es
  have short := packable.short
  rw [encodedSize, countSize, Record.maxValue] at short
  rw [maxCount]
  omega

theorem valid (packable : Packable es) : Valid es :=
  ⟨⟨packable.length_le, packable.fits⟩, packable.named, packable.ascending⟩

theorem writable (packable : Packable es) : Writable es := packable.valid.toWritable

theorem parse_written (packable : Packable es) : parse (written es) = .ok es :=
  Packed.parse_written packable.valid

theorem length_written (packable : Packable es) : (written es).length = encodedSize es :=
  Packed.length_written packable.fits

end Packable

end Packed

end OrderedStore
