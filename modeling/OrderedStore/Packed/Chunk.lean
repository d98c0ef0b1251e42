import OrderedStore.Fault
import OrderedStore.Bytes

/-! # Chunk keys

The fields of one user key are spread over chunks. A chunk's key is the user key with its length in
front, then a marker: a zero byte for the first chunk, for every later one the first field it holds.
The length in front keeps the chunks of different user keys apart.
-/

namespace OrderedStore.Packed

/-- The marker of a user key's first chunk. -/
def firstMarker : Bytes := [0]

/-- What the chunk keys of a user key have in common. -/
def chunkPrefix (user : Bytes) : Except Misuse Bytes :=
  if user.length < 4294967296 then .ok (Bytes.ofU32 user.length ++ user) else .error .userKeyTooLong

/-- Whether `key` is a chunk key: the common part and a marker. -/
def isChunkOf (key common : Bytes) : Bool := common.length < key.length && common.isPrefixOf key

/-- The least byte string above every one that starts with the given one, if there is any. -/
def prefixEnd? : Bytes → Option Bytes
  | [] => none
  | b :: rest =>
    match prefixEnd? rest with
    | some higher => some (b :: higher)
    | none => if b = 255 then none else some [b + 1]

end OrderedStore.Packed
