/-! # Byte strings

Keys, values and buffers are lists of bytes, compared lexicographically: a proper prefix comes
before what extends it. Two fixed widths occur: lengths of records are two bytes, least significant
first, and length prefixes are four bytes, most significant first, so that they sort by length.
-/

namespace OrderedStore

/-- A byte string, ordered lexicographically. -/
abbrev Bytes := List UInt8

namespace Bytes

def precedes : Bytes → Bytes → Bool
  | _, [] => false
  | [], _ :: _ => true
  | a :: as, b :: bs => if a = b then precedes as bs else a < b

theorem precedes_iff {a b : Bytes} : precedes a b = true ↔ a < b := by
  induction a generalizing b with
  | nil => cases b <;> simp [precedes]
  | cons x a ih =>
    cases b with
    | nil => simp [precedes]
    | cons y b =>
      simp only [precedes, List.cons_lt_cons_iff]
      grind

instance decidableLT (a b : Bytes) : Decidable (a < b) :=
  decidable_of_iff (precedes a b = true) precedes_iff

instance decidableLE (a b : Bytes) : Decidable (a ≤ b) :=
  decidable_of_iff (precedes b a = false) (by
    rw [← Bool.not_eq_true, precedes_iff, List.not_lt])

def agree : Bytes → Bytes → Bool
  | [], [] => true
  | a :: as, b :: bs => if a = b then agree as bs else false
  | _, _ => false

theorem agree_iff {a b : Bytes} : agree a b = true ↔ a = b := by
  induction a generalizing b with
  | nil => cases b <;> simp [agree]
  | cons x a ih => cases b <;> simp [agree, ih]

instance decidableEq : DecidableEq Bytes := fun _ _ => decidable_of_iff _ agree_iff

/-- Whether there are at least `n` bytes. No more of them are looked at. -/
def holds : Nat → Bytes → Bool
  | 0, _ => true
  | _ + 1, [] => false
  | n + 1, _ :: rest => holds n rest

theorem holds_iff {n : Nat} {buf : Bytes} : holds n buf = true ↔ n ≤ buf.length := by
  induction n generalizing buf with
  | zero => simp [holds]
  | succ n ih => cases buf <;> simp [holds, ih]

/-- The first `n` bytes behind those of `taken`, which come last first, and the rest. -/
def splitFrom? (taken : Bytes) : Nat → Bytes → Option (Bytes × Bytes)
  | 0, rest => some (taken.reverse, rest)
  | _ + 1, [] => none
  | n + 1, b :: rest => splitFrom? (b :: taken) n rest

/-- The first `n` bytes and the rest, if there are as many. -/
def split? (n : Nat) (buf : Bytes) : Option (Bytes × Bytes) := splitFrom? [] n buf

theorem splitFrom?_eq (taken : Bytes) (n : Nat) (buf : Bytes) :
    splitFrom? taken n buf =
      if n ≤ buf.length then some (taken.reverse ++ buf.take n, buf.drop n) else none := by
  induction n generalizing taken buf with
  | zero => simp [splitFrom?]
  | succ n ih => cases buf <;> simp [splitFrom?, ih]

theorem split?_eq (n : Nat) (buf : Bytes) :
    split? n buf = if n ≤ buf.length then some (buf.take n, buf.drop n) else none := by
  simp [split?, splitFrom?_eq]

theorem length_le_of_split? {n : Nat} {buf taken rest : Bytes}
    (h : split? n buf = some (taken, rest)) : rest.length ≤ buf.length := by
  rw [split?_eq] at h
  split at h
  · cases h
    simp
  · contradiction

/-- The byte with the value of `n` modulo 256. -/
def low (n : Nat) : UInt8 := UInt8.ofNat n

/-- Two bytes holding `n` modulo 65536, least significant first. -/
def ofU16 (n : Nat) : Bytes := [low n, low (n / 256)]

/-- Four bytes holding `n` modulo 2 ^ 32, most significant first. -/
def ofU32 (n : Nat) : Bytes :=
  [low (n / 16777216), low (n / 65536), low (n / 256), low n]

/-- The number in the first two bytes, least significant first; absent bytes count as zero. -/
def toU16 : Bytes → Nat
  | low :: high :: _ => low.toNat + 256 * high.toNat
  | [low] => low.toNat
  | [] => 0

@[simp] theorem length_ofU16 (n : Nat) : (ofU16 n).length = 2 := rfl

@[simp] theorem length_ofU32 (n : Nat) : (ofU32 n).length = 4 := rfl

theorem toU16_ofU16_append (n : Nat) (rest : Bytes) : toU16 (ofU16 n ++ rest) = n % 65536 := by
  simp only [ofU16, low, List.cons_append, toU16, UInt8.toNat_ofNat']
  omega

theorem toU16_lt (buf : Bytes) : toU16 buf < 65536 := by
  match buf with
  | [] => decide
  | [low] =>
    have := low.toNat_lt
    simp only [toU16]
    omega
  | low :: high :: _ =>
    have := low.toNat_lt
    have := high.toNat_lt
    simp only [toU16]
    omega

theorem ofU16_toU16 {buf : Bytes} (filled : 2 ≤ buf.length) : ofU16 (toU16 buf) = buf.take 2 := by
  match buf, filled with
  | low :: high :: rest, _ =>
    have low_small := low.toNat_lt
    have high_small := high.toNat_lt
    have low_byte : Bytes.low (low.toNat + 256 * high.toNat) = low := by
      rw [Bytes.low, ← UInt8.toNat_inj, UInt8.toNat_ofNat']
      omega
    have high_byte : Bytes.low ((low.toNat + 256 * high.toNat) / 256) = high := by
      rw [Bytes.low, ← UInt8.toNat_inj, UInt8.toNat_ofNat']
      omega
    simp only [toU16, ofU16, low_byte, high_byte, List.take_succ_cons, List.take_zero]

/-- `buf` with the bytes from `off` on replaced by `new`; the length is kept while `new` fits. -/
def overwrite (buf : Bytes) (off : Nat) (new : Bytes) : Bytes :=
  buf.take off ++ new ++ buf.drop (off + new.length)

theorem length_overwrite {buf : Bytes} {off : Nat} {new : Bytes}
    (room : off + new.length ≤ buf.length) : (overwrite buf off new).length = buf.length := by
  simp [overwrite]
  omega

end Bytes

end OrderedStore
