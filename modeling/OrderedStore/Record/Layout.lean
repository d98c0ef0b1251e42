import OrderedStore.Record

/-! # The written form of records

A record is written as the length of its key, whose high bit marks a tombstone, the length of its
value, the key and the value, both lengths in two bytes. Records follow each other without gaps.
-/

namespace OrderedStore.Record

/-- The high bit of a key's length. -/
def tombstone : Nat := 32768

structure Header where
  keyLength : Nat
  valueLength : Nat
  deleted : Bool
deriving Repr, DecidableEq

def Header.size (h : Header) : Nat := sizeOf h.keyLength h.valueLength

/-- The bytes of a header; a key's length counts modulo `tombstone` for the mark to be seen. -/
def Header.encode (h : Header) : Bytes :=
  Bytes.ofU16 (h.keyLength + if h.deleted then tombstone else 0) ++ Bytes.ofU16 h.valueLength

def encode (r : Record) : Bytes :=
  Header.encode ⟨r.key.length, r.value.length, r.deleted⟩ ++ r.key ++ r.value

/-- The header at the head of `src`, which must hold the whole record. -/
def readHeader (src : Bytes) : Except Corruption Header :=
  if !Bytes.holds headerSize src then .error .headerPastEnd
  else
    let raw := Bytes.toU16 src
    let header : Header := ⟨raw % tombstone, Bytes.toU16 (src.drop 2), tombstone ≤ raw⟩
    if header.keyLength = 0 then .error .recordWithoutKey
    else if !Bytes.holds header.size src then .error .recordPastEnd
    else .ok header

def read (src : Bytes) : Except Corruption Record :=
  (readHeader src).map fun h =>
    let body := src.drop headerSize
    ⟨body.take h.keyLength, (body.drop h.keyLength).take h.valueLength, h.deleted⟩

structure Placed where
  offset : Nat
  record : Record
deriving Repr, DecidableEq

def Placed.stop (p : Placed) : Nat := p.offset + p.record.size

def headerAt (buf : Bytes) (offset : Nat) : Except Corruption Header := readHeader (buf.drop offset)

def readAt (buf : Bytes) (offset : Nat) : Except Corruption Placed :=
  (read (buf.drop offset)).map (⟨offset, ·⟩)

/-- `buf` with a live record written at `offset`, which must have room for it. -/
def writeAt (buf : Bytes) (offset : Nat) (key value : Bytes) : Bytes :=
  buf.overwrite offset (encode (live key value))

/-- `buf` with the tombstone mark of the record at `offset` set or cleared. -/
def markAt (buf : Bytes) (offset : Nat) (deleted : Bool) : Bytes :=
  let raw := Bytes.toU16 (buf.drop offset) % tombstone
  buf.overwrite offset (Bytes.ofU16 (raw + if deleted then tombstone else 0))

theorem size_le_length_of_read {src : Bytes} {r : Record} (h : read src = .ok r) :
    0 < r.size ∧ r.size ≤ src.length := by
  simp only [read, readHeader] at h
  split at h <;> first | contradiction | skip
  split at h <;> first | contradiction | skip
  split at h <;> first | contradiction | skip
  rename_i fits
  replace fits := Bytes.holds_iff.1 (by simpa using fits)
  simp only [Header.size, sizeOf, headerSize] at fits
  cases h
  simp only [size, sizeOf, headerSize, List.length_take, List.length_drop]
  omega

/-- The records of `src`, which starts at `offset`, and the fault that ends them, if any. -/
def readRun (offset : Nat) (src : Bytes) : List Placed × Option Corruption :=
  if src.isEmpty then ([], none)
  else
    match h : read src with
    | .error fault => ([], some fault)
    | .ok r =>
      have _shorter := size_le_length_of_read h
      let (rest, fault) := readRun (offset + r.size) (src.drop r.size)
      (⟨offset, r⟩ :: rest, fault)
termination_by src.length
decreasing_by
  simp only [List.length_drop]
  omega

end OrderedStore.Record
