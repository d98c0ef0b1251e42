import OrderedStore.Bytes
import OrderedStore.Fault

/-! # Varints of one to four bytes

A number below 2 ^ 28 is written in groups of seven bits, the least significant first; every byte
but the last has its high bit set. Reading also accepts longer forms than writing produces, up to
four bytes.
-/

namespace OrderedStore.Varint

/-- The least number without a varint, 2 ^ 28. -/
def limit : Nat := 268435456

def size (n : Nat) : Nat :=
  if n < 128 then 1 else if n < 16384 then 2 else if n < 2097152 then 3 else 4

/-- The groups of `n` in front of `rest`. -/
def onto (n : Nat) (rest : Bytes) : Bytes :=
  if n < 128 then Bytes.low n :: rest else Bytes.low (n % 128 + 128) :: onto (n / 128) rest
termination_by n

def encode (n : Nat) : Bytes := onto n []

theorem onto_eq (n : Nat) (rest : Bytes) : onto n rest = encode n ++ rest := by
  fun_induction onto n rest with
  | case1 n small => rw [encode, onto, if_pos small, List.singleton_append]
  | case2 n large ih =>
    have whole : encode n = Bytes.low (n % 128 + 128) :: encode (n / 128) := by
      rw [encode, onto, if_neg large, encode]
    rw [whole, ih, List.cons_append]

/-- `encode`, refused from `limit` on. -/
def encode? (n : Nat) : Option Bytes := if n < limit then some (encode n) else none

/-- What a decoder found, how many bytes it read, also when it failed, and the bytes behind them. -/
structure Reading where
  result : Except Corruption Nat
  read : Nat
  rest : Bytes

def decodeGroups : Nat → Bytes → Reading
  | 0, src => ⟨.error .varintTooLong, 0, src⟩
  | _ + 1, [] => ⟨.error .varintTruncated, 0, []⟩
  | groups + 1, byte :: rest =>
    if byte.toNat < 128 then ⟨.ok byte.toNat, 1, rest⟩
    else
      let higher := decodeGroups groups rest
      ⟨higher.result.map (byte.toNat - 128 + 128 * ·), higher.read + 1, higher.rest⟩

def decode (src : Bytes) : Reading := decodeGroups 4 src

theorem decodeGroups_rest (groups : Nat) (src : Bytes) :
    (decodeGroups groups src).rest = src.drop (decodeGroups groups src).read := by
  fun_induction decodeGroups groups src <;> simp_all +zetaDelta

theorem decodeGroups_read_le (groups : Nat) (src : Bytes) :
    (decodeGroups groups src).read ≤ src.length := by
  fun_induction decodeGroups groups src <;> simp_all +zetaDelta

theorem decodeGroups_read_pos {groups : Nat} {src : Bytes} {n : Nat}
    (h : (decodeGroups groups src).result = .ok n) : 0 < (decodeGroups groups src).read := by
  fun_cases decodeGroups groups src <;> simp_all [decodeGroups]

theorem length_rest_lt {src : Bytes} {n : Nat} (h : (decode src).result = .ok n) :
    (decode src).rest.length < src.length := by
  have pos := decodeGroups_read_pos h
  have le := decodeGroups_read_le 4 src
  rw [decode, decodeGroups_rest, List.length_drop]
  omega

theorem encode_of_lt {n : Nat} (h : n < 128) : encode n = [Bytes.low n] := by
  rw [encode, onto, if_pos h]

theorem encode_of_ge {n : Nat} (h : 128 ≤ n) :
    encode n = Bytes.low (n % 128 + 128) :: encode (n / 128) := by
  rw [encode, onto, if_neg (by omega), encode]

theorem length_encode {n : Nat} (h : n < limit) : (encode n).length = size n := by
  unfold limit at h
  unfold size
  split
  · simp [encode_of_lt, *]
  rw [encode_of_ge (by omega)]
  split
  · simp [encode_of_lt (n := n / 128) (by omega)]
  rw [encode_of_ge (n := n / 128) (by omega)]
  split
  · simp [encode_of_lt (n := n / 128 / 128) (by omega)]
  rw [encode_of_ge (n := n / 128 / 128) (by omega),
    encode_of_lt (n := n / 128 / 128 / 128) (by omega)]
  rfl

end OrderedStore.Varint
