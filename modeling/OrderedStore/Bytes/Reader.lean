import OrderedStore.Bytes.Varint

/-! # Reading a buffer from an offset

A reader keeps the unread bytes and the offset they start at. An offset may lie past the end of the
buffer: then nothing is left, and every read fails.
-/

namespace OrderedStore

/-- A position in a buffer of `size` bytes. -/
structure Reader where
  size : Nat
  offset : Nat
  rest : Bytes
deriving Repr, DecidableEq

namespace Reader

/-- Offsets are counted in 64 bits. -/
def offsetLimit : Nat := 18446744073709551616

def start (buf : Bytes) (offset : Nat) : Reader := ⟨buf.length, offset, buf.drop offset⟩

def remaining (r : Reader) : Nat := r.size - r.offset

def take (r : Reader) (n : Nat) : Except Corruption (Bytes × Reader) :=
  if offsetLimit ≤ r.offset + n then .error .readOverflow
  else if r.size < r.offset + n then .error .readPastEnd
  else .ok (r.rest.take n, { r with offset := r.offset + n, rest := r.rest.drop n })

/-- The next varint. The reader moves past the bytes that were looked at, also on a failure. -/
def varint (r : Reader) : Except Corruption Nat × Reader :=
  let reading := Varint.decode r.rest
  (reading.result,
    { r with offset := r.offset + reading.read, rest := reading.rest })

def describe (r : Reader) : String :=
  s!"Cursor \x7b off: {r.offset}, remaining: {r.remaining} \x7d"

end Reader

end OrderedStore
