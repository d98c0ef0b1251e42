import OrderedStore.Bytes
import OrderedStore.Fault

/-! # Records

A record is a key, a value and a tombstone flag. Its written form has a header of four bytes, and
the header bounds how long the key and the value can be.
-/

namespace OrderedStore

structure Record where
  key : Bytes
  value : Bytes
  /-- A tombstone: the record is deleted, and its bytes stay until the block is compacted. -/
  deleted : Bool
deriving Repr, DecidableEq

namespace Record

def headerSize : Nat := 4

/-- The longest key whose length leaves the tombstone bit free. -/
def maxKey : Nat := 32767

def maxValue : Nat := 65535

/-- Bytes taken by a record with a key and a value of the given lengths. -/
def sizeOf (keyLength valueLength : Nat) : Nat := headerSize + keyLength + valueLength

def size (r : Record) : Nat := sizeOf r.key.length r.value.length

def live (key value : Bytes) : Record := ⟨key, value, false⟩

/-- Keys of one to `maxKey` bytes. -/
def checkKey (key : Bytes) : Except Misuse Unit :=
  if key.isEmpty then .error .keyEmpty
  else if maxKey < key.length then .error .keyTooLong
  else .ok ()

/-- The size of the record of a key and a value that the layout can describe. -/
def measure (key value : Bytes) : Except Misuse Nat := do
  checkKey key
  let valueLength := value.length
  if maxValue < valueLength then .error .valueTooLong else .ok (sizeOf key.length valueLength)

/-- Whether a record of this shape fits a block of `blockSize` bytes. -/
def fits (keyLength valueLength blockSize : Nat) : Bool :=
  sizeOf keyLength valueLength ≤ blockSize

/-- The size of the record, if a block of up to `blockSize` bytes can hold it. -/
def check (key value : Bytes) (blockSize : Nat) : Except Misuse Nat := do
  let size ← measure key value
  if size ≤ blockSize then .ok size else .error .recordTooLarge

theorem headerSize_le_size (r : Record) : headerSize ≤ r.size := by
  simp only [size, sizeOf]
  omega

theorem size_pos (r : Record) : 0 < r.size := by
  have := r.headerSize_le_size
  simp only [headerSize] at this
  omega

end Record

end OrderedStore
