import OrderedStore.Packed.Element
import OrderedStore.Bytes.Varint

/-! # The written form of packed values

A packed value is the number of its elements in two bytes, then for each element the lengths of
field and value as varints, the field and the value. Fields are not empty and strictly ascend.
-/

namespace OrderedStore.Packed

def countSize : Nat := 2

/-- Elements that one count can tell. -/
def maxCount : Nat := 65535

def encodedSize (elements : List Element) : Nat := countSize + total Element.size elements

/-- The bytes of an element in front of `rest`. -/
def Element.onto (e : Element) (rest : Bytes) : Bytes :=
  Varint.onto e.field.length (Varint.onto e.value.length (e.field ++ (e.value ++ rest)))

def Element.encode (e : Element) : Bytes := e.onto []

theorem Element.onto_eq (e : Element) (rest : Bytes) : e.onto rest = e.encode ++ rest := by
  simp [encode, onto, Varint.onto_eq]

def encode (elements : List Element) : Except Misuse Bytes := do
  let count := elements.length
  if maxCount < count then throw .packedTooManyFields
  elements.forM fun e => Element.check e.field e.value
  return Bytes.ofU16 count ++ elements.foldr Element.onto []

theorem foldr_onto (elements : List Element) :
    elements.foldr Element.onto [] = elements.flatMap Element.encode := by
  induction elements with
  | nil => rfl
  | cons e rest ih => simp [Element.onto_eq, ih]

/-- The element at the head of `src`, and the bytes behind it. -/
def readElement (src : Bytes) : Except Corruption (Element × Bytes) :=
  let fieldLength := Varint.decode src
  match fieldLength.result with
  | .error fault => .error fault
  | .ok n =>
    let valueLength := Varint.decode fieldLength.rest
    match valueLength.result with
    | .error fault => .error fault
    | .ok m =>
      match Bytes.split? n valueLength.rest with
      | none => .error .readPastEnd
      | some (field, rest) =>
        match Bytes.split? m rest with
        | none => .error .readPastEnd
        | some (value, rest) => .ok (⟨field, value⟩, rest)

theorem length_lt_of_readElement {src rest : Bytes} {e : Element}
    (h : readElement src = .ok (e, rest)) : rest.length < src.length := by
  simp only [readElement] at h
  split at h
  · contradiction
  rename_i fieldLength
  split at h
  · contradiction
  rename_i valueLength
  split at h
  · contradiction
  rename_i field
  split at h
  · contradiction
  rename_i value
  cases h
  have := Varint.length_rest_lt fieldLength
  have := Varint.length_rest_lt valueLength
  have := Bytes.length_le_of_split? field
  have := Bytes.length_le_of_split? value
  omega

/-- The elements of `src`, behind those in `read`, which come last first. -/
def readElements (read : List Element) (src : Bytes) : Except Corruption (List Element) :=
  if src.isEmpty then .ok read.reverse
  else
    match h : readElement src with
    | .error fault => .error fault
    | .ok (e, rest) =>
      have _shorter := length_lt_of_readElement h
      if e.field.isEmpty then .error .packedFieldEmpty
      else if read.head?.any (e.field ≤ ·.field) then .error .packedFieldsUnordered
      else readElements (e :: read) rest
termination_by src.length

def parse (raw : Bytes) : Except Corruption (List Element) :=
  match Bytes.split? countSize raw with
  | none => .error .packedWithoutCount
  | some (count, rest) =>
    match readElements [] rest with
    | .error fault => .error fault
    | .ok elements =>
      if elements.length = Bytes.toU16 count then .ok elements else .error .packedMiscounted

end OrderedStore.Packed
