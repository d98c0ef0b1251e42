import OrderedStore.Bytes.Reader
import OrderedStore.Proofs.Bytes.Varints

/-! # Groups of bits in a buffer

A varint ends with the first byte whose high bit is clear, if that is one of the next four bytes. The
reader that finds it stands behind it; one that does not has looked at four bytes, or at all that
were left. Moving the groups with shifts and masks on words of 32 bits comes to the same.
-/

namespace OrderedStore

namespace Varint

theorem shiftRight_seven (n : UInt32) : (n >>> 7).toNat = n.toNat / 128 := by
  rw [UInt32.toNat_shiftRight, Nat.shiftRight_eq_div_pow]
  rfl

/-- The groups of `n` behind `out`: seven bits go out at a time, with the high bit set while there are
more of them. -/
def push (out : Bytes) (n : UInt32) : Bytes :=
  if n >>> 7 = 0 then out ++ [(n &&& 127).toUInt8]
  else push (out ++ [(n &&& 127).toUInt8 ||| 128]) (n >>> 7)
termination_by n.toNat
decreasing_by
  have more : (n >>> 7).toNat ≠ 0 := fun nothing => ‹¬n >>> 7 = 0› (UInt32.toNat_inj.mp nothing)
  rw [shiftRight_seven] at more ⊢
  omega

/-- The number in the groups of at most `groups` bytes from `offset` on, above the `bits` bits that
`word` has already, and where the search for their end stopped. -/
def gather (src : Bytes) : Nat → Nat → UInt32 → Nat → Except Corruption UInt32 × Nat
  | 0, offset, _, _ => (.error .varintTooLong, offset)
  | groups + 1, offset, word, bits =>
    match src[offset]? with
    | none => (.error .varintTruncated, offset)
    | some byte =>
      let word := word ||| (byte &&& 127).toUInt32 <<< UInt32.ofNat bits
      if byte &&& 128 = 0 then (.ok word, offset + 1)
      else gather src groups (offset + 1) word (bits + 7)

/-- The number in the low seven bits of all bytes, the least significant first. -/
def value : Bytes → Nat
  | [] => 0
  | byte :: rest => (byte &&& 127).toNat + 128 * value rest

/-- The first byte with a clear high bit has `marked` others before it. -/
structure Ends (src : Bytes) (marked : Nat) : Prop where
  clear : ∃ byte, src[marked]? = some byte ∧ byte &&& 128 = 0
  before : ∀ i, i < marked → ∃ byte, src[i]? = some byte ∧ byte &&& 128 ≠ 0

theorem low_bits (byte : UInt8) : (byte &&& 127).toNat = byte.toNat % 128 := by
  rw [UInt8.toNat_and]
  exact Nat.and_two_pow_sub_one_eq_mod byte.toNat 7

theorem high_bit_clear_iff {byte : UInt8} : byte &&& 128 = 0 ↔ byte.toNat < 128 := by
  have small := byte.toNat_lt
  have bit : (byte.toNat &&& 128) / 2 ^ 7 = byte.toNat / 2 ^ 7 &&& 1 := Nat.and_div_two_pow
  have others : (byte.toNat &&& 128) % 2 ^ 7 = byte.toNat % 2 ^ 7 &&& 0 := Nat.and_mod_two_pow
  have masked : (byte &&& 128).toNat = byte.toNat &&& 128 := UInt8.toNat_and byte 128
  rw [Nat.and_one_is_mod] at bit
  rw [Nat.and_zero] at others
  rw [← UInt8.toNat_inj, masked, UInt8.toNat_zero]
  omega

namespace Ends

variable {src : Bytes} {byte : UInt8} {marked : Nat}

theorem not_nil : ¬Ends [] marked := by
  rintro ⟨⟨byte, here, _⟩, _⟩
  simp at here

theorem zero_iff : Ends (byte :: src) 0 ↔ byte.toNat < 128 := by
  rw [← high_bit_clear_iff]
  constructor
  · rintro ⟨⟨_, here, clear⟩, _⟩
    rw [List.getElem?_cons_zero] at here
    rwa [Option.some.inj here]
  · intro clear
    exact ⟨⟨byte, rfl, clear⟩, fun i less => absurd less (Nat.not_lt_zero i)⟩

theorem succ_iff : Ends (byte :: src) (marked + 1) ↔ 128 ≤ byte.toNat ∧ Ends src marked := by
  rw [← Nat.not_lt, ← high_bit_clear_iff]
  constructor
  · rintro ⟨⟨last, there, clear⟩, before⟩
    obtain ⟨_, here, set⟩ := before 0 (Nat.succ_pos marked)
    rw [List.getElem?_cons_zero] at here
    refine ⟨by rwa [Option.some.inj here], ⟨last, there, clear⟩, ?_⟩
    intro i less
    exact before (i + 1) (Nat.succ_lt_succ less)
  · rintro ⟨set, ⟨last, there, clear⟩, before⟩
    refine ⟨⟨last, there, clear⟩, ?_⟩
    intro i less
    cases i with
    | zero => exact ⟨byte, rfl, set⟩
    | succ i => exact before i (Nat.lt_of_succ_lt_succ less)

/-- By induction on the bytes before the last. -/
theorem decodeGroups_eq {groups : Nat} (ends : Ends src marked) (within : marked < groups) :
    decodeGroups groups src
      = ⟨.ok (value (src.take (marked + 1))), marked + 1, src.drop (marked + 1)⟩ := by
  induction marked generalizing src groups with
  | zero =>
      obtain ⟨groups, rfl⟩ := Nat.exists_eq_succ_of_ne_zero (Nat.ne_of_gt within)
      cases src with
      | nil => exact absurd ends not_nil
      | cons byte src =>
          have small := zero_iff.mp ends
          rw [decodeGroups, if_pos small, List.take_succ_cons, List.take_zero, value, low_bits,
            Nat.mod_eq_of_lt small]
          rfl
  | succ marked ih =>
      obtain ⟨groups, rfl⟩ := Nat.exists_eq_succ_of_ne_zero (Nat.ne_of_gt (Nat.zero_lt_of_lt within))
      cases src with
      | nil => exact absurd ends not_nil
      | cons byte src =>
          obtain ⟨set, ends⟩ := succ_iff.mp ends
          have small := byte.toNat_lt
          have bits : byte.toNat % 128 = byte.toNat - 128 := by omega
          rw [decodeGroups, if_neg (Nat.not_lt.mpr set), ih ends (Nat.lt_of_succ_lt_succ within),
            List.take_succ_cons, value, low_bits, bits]
          rfl

end Ends

theorem decodeGroups_of_not_ends {src : Bytes} {groups : Nat}
    (endless : ∀ marked, marked < groups → ¬Ends src marked) :
    decodeGroups groups src = if src.length < groups
      then ⟨.error .varintTruncated, src.length, src.drop src.length⟩
      else ⟨.error .varintTooLong, groups, src.drop groups⟩ := by
  induction groups generalizing src with
  | zero => rfl
  | succ groups ih =>
      cases src with
      | nil => rfl
      | cons byte src =>
          have set : ¬byte.toNat < 128 := fun small =>
            endless 0 (Nat.succ_pos groups) (Ends.zero_iff.mpr small)
          have rest : ∀ marked, marked < groups → ¬Ends src marked := fun marked less ends =>
            endless (marked + 1) (Nat.succ_lt_succ less)
              (Ends.succ_iff.mpr ⟨Nat.not_lt.mp set, ends⟩)
          rw [decodeGroups, if_neg set, ih rest]
          by_cases short : src.length < groups
          · have short' : (byte :: src).length < groups + 1 := Nat.succ_lt_succ short
            rw [if_pos short, if_pos short']
            rfl
          · rw [if_neg short, if_neg (by simpa using short)]
            rfl

theorem value_lt_pow (bytes : Bytes) : value bytes < Nat.pow 128 bytes.length := by
  induction bytes with
  | nil => exact Nat.one_pos
  | cons byte bytes ih =>
      have step : Nat.pow 128 (byte :: bytes).length = Nat.pow 128 bytes.length * 128 := rfl
      rw [value, low_bits, step]
      omega

theorem value_lt_limit {bytes : Bytes} (short : bytes.length ≤ 4) : value bytes < limit :=
  Nat.lt_of_lt_of_le (value_lt_pow bytes) (Nat.pow_le_pow_right (by decide) short)

theorem low_byte (n : UInt32) : (n &&& 127).toUInt8.toNat = n.toNat % 128 := by
  have bits : (n &&& 127).toNat = n.toNat % 128 := by
    rw [UInt32.toNat_and]
    exact Nat.and_two_pow_sub_one_eq_mod n.toNat 7
  rw [UInt32.toNat_toUInt8, bits]
  omega

theorem push_eq (out : Bytes) (n : UInt32) : push out n = out ++ encode n.toNat := by
  fun_induction push out n with
  | case1 out n last =>
      have small : n.toNat < 128 := by
        have nothing := congrArg UInt32.toNat last
        rw [shiftRight_seven, UInt32.toNat_zero] at nothing
        omega
      have byte : (n &&& 127).toUInt8 = Bytes.low n.toNat := by
        rw [← UInt8.toNat_inj, low_byte, toNat_low (by omega)]
        exact Nat.mod_eq_of_lt small
      rw [encode_of_lt small, byte]
  | case2 out n more ih =>
      have large : 128 ≤ n.toNat := by
        have something : (n >>> 7).toNat ≠ 0 := fun nothing => more (UInt32.toNat_inj.mp nothing)
        rw [shiftRight_seven] at something
        omega
      have byte : (n &&& 127).toUInt8 ||| 128 = Bytes.low (n.toNat % 128 + 128) := by
        have apart : 2 ^ 7 * 1 + n.toNat % 128 = 2 ^ 7 * 1 ||| n.toNat % 128 :=
          Nat.two_pow_add_eq_or_of_lt (Nat.mod_lt _ (by decide)) 1
        rw [← UInt8.toNat_inj, UInt8.toNat_or, low_byte, toNat_low (by omega), Nat.or_comm,
          Nat.add_comm]
        exact apart.symm
      rw [ih, encode_of_ge large, byte, shiftRight_seven, List.append_assoc]
      rfl

theorem toNat_or_shiftLeft {word : UInt32} {byte : UInt8} {bits : Nat}
    (below : word.toNat < Nat.pow 2 bits) (few : bits ≤ 21) :
    (word ||| (byte &&& 127).toUInt32 <<< UInt32.ofNat bits).toNat
      = word.toNat + Nat.pow 2 bits * (byte.toNat % 128) := by
  have amount : (UInt32.ofNat bits).toNat % 32 = bits := by
    rw [UInt32.toNat_ofNat']
    omega
  have room : (byte.toNat % 128) * 2 ^ bits < 2 ^ 32 := by
    have power : 2 ^ bits ≤ 2 ^ 21 := Nat.pow_le_pow_right (by decide) few
    have group : byte.toNat % 128 ≤ 127 := by omega
    calc (byte.toNat % 128) * 2 ^ bits ≤ 127 * 2 ^ 21 := Nat.mul_le_mul group power
      _ < 2 ^ 32 := by decide
  have apart : 2 ^ bits * (byte.toNat % 128) + word.toNat
      = 2 ^ bits * (byte.toNat % 128) ||| word.toNat := Nat.two_pow_add_eq_or_of_lt below _
  rw [UInt32.toNat_or, UInt32.toNat_shiftLeft, amount, UInt8.toNat_toUInt32, low_bits,
    Nat.shiftLeft_eq, Nat.mod_eq_of_lt room, Nat.or_comm, Nat.mul_comm _ (2 ^ bits), ← apart,
    Nat.add_comm]
  rfl

/-- Gathering the groups bit by bit reads the same number, and stops at the same byte. -/
theorem gather_eq (src : Bytes) (groups offset bits : Nat) (word : UInt32)
    (below : word.toNat < Nat.pow 2 bits) (few : bits + 7 * groups ≤ 28) :
    gather src groups offset word bits
      = ((decodeGroups groups (src.drop offset)).result.map
          fun n => UInt32.ofNat (word.toNat + Nat.pow 2 bits * n),
        offset + (decodeGroups groups (src.drop offset)).read) := by
  induction groups generalizing offset word bits with
  | zero => rfl
  | succ groups ih =>
      rw [gather]
      cases here : src[offset]? with
      | none =>
          rw [List.drop_eq_nil_iff.mpr (List.getElem?_eq_none_iff.mp here)]
          rfl
      | some byte =>
          obtain ⟨inside, rfl⟩ := List.getElem?_eq_some_iff.mp here
          have joined : (word ||| (src[offset] &&& 127).toUInt32 <<< UInt32.ofNat bits).toNat
              = word.toNat + Nat.pow 2 bits * (src[offset].toNat % 128) :=
            toNat_or_shiftLeft below (by omega)
          rw [List.drop_eq_getElem_cons inside, decodeGroups]
          dsimp only
          by_cases last : src[offset].toNat < 128
          · rw [if_pos (high_bit_clear_iff.mpr last), if_pos last]
            rw [Nat.mod_eq_of_lt last] at joined
            simp only [Except.map, ← joined, UInt32.ofNat_toNat]
          · have set : ¬src[offset] &&& 128 = 0 := fun clear => last (high_bit_clear_iff.mp clear)
            have small := src[offset].toNat_lt
            have step : Nat.pow 2 (bits + 7) = Nat.pow 2 bits * 128 := Nat.pow_add 2 bits 7
            have below' : (word ||| (src[offset] &&& 127).toUInt32 <<< UInt32.ofNat bits).toNat
                < Nat.pow 2 (bits + 7) := by
              have group : src[offset].toNat % 128 ≤ 127 := by omega
              have most := Nat.mul_le_mul_left (Nat.pow 2 bits) group
              omega
            have low : src[offset].toNat % 128 = src[offset].toNat - 128 := by omega
            rw [if_neg set, if_neg last, ih _ _ _ below' (by omega), joined, step, low]
            cases (decodeGroups groups (src.drop (offset + 1))).result with
            | error cause => simp [Except.map, Nat.add_assoc, Nat.add_comm 1]
            | ok n =>
                simp only [Except.map, Nat.mul_add, Nat.mul_assoc, Nat.add_assoc, Nat.add_comm 1]

end Varint

namespace Reader

/-- What becomes of a number that is written as a varint: its bytes go behind any others, and are
read back from there, whatever follows them. -/
structure WritesVarint (n : Nat) (code : Bytes) : Prop where
  written : Varint.encode? n = some code
  size : code.length = Varint.size n
  pushed : ∀ out, Varint.push out (UInt32.ofNat n) = out ++ code
  readBack : ∀ out rest, (start (out ++ code ++ rest) out.length).varint
    = (.ok n, start (out ++ code ++ rest) (out.length + code.length))
  shortest : ∀ src offset, src.length < code.length → (start src offset).varint.1 ≠ .ok n

/-- What becomes of the varint at an offset. -/
structure ReadsVarint (src : Bytes) (offset : Nat) : Prop where
  succeeds : (∃ n, (start src offset).varint.1 = .ok n)
    ↔ ∃ marked, marked < 4 ∧ Varint.Ends (src.drop offset) marked
  found : ∀ marked, marked < 4 → Varint.Ends (src.drop offset) marked →
    (start src offset).varint = (.ok (Varint.value ((src.drop offset).take (marked + 1))),
        start src (offset + (marked + 1)))
      ∧ Varint.value ((src.drop offset).take (marked + 1)) < Varint.limit
  failed : (∀ marked, marked < 4 → ¬Varint.Ends (src.drop offset) marked) →
    (start src offset).varint = if (src.drop offset).length < 4
      then (.error .varintTruncated, start src (offset + (src.drop offset).length))
      else (.error .varintTooLong, start src (offset + 4))
  gathered : Varint.gather src 4 offset 0 0 =
    ((start src offset).varint.1.map UInt32.ofNat, (start src offset).varint.2.offset)

theorem varint_start (src : Bytes) (offset : Nat) :
    (start src offset).varint = ((Varint.decode (src.drop offset)).result,
      start src (offset + (Varint.decode (src.drop offset)).read)) := by
  have rest : (Varint.decode (src.drop offset)).rest
      = (src.drop offset).drop (Varint.decode (src.drop offset)).read :=
    Varint.decodeGroups_rest 4 (src.drop offset)
  rw [List.drop_drop] at rest
  rw [start, varint, rest]
  rfl

theorem writesVarint {n : Nat} (small : n < Varint.limit) :
    WritesVarint n (Varint.encode n) := by
  have length := Varint.length_encode small
  refine
    { written := if_pos small
      size := length
      pushed := ?_
      readBack := ?_
      shortest := ?_ }
  · intro out
    have word : (UInt32.ofNat n).toNat = n := by
      rw [UInt32.toNat_ofNat']
      rw [Varint.limit] at small
      omega
    rw [Varint.push_eq, word]
  · intro out rest
    rw [varint_start, List.append_assoc, List.drop_left, Varint.decode_encode_append small, length]
  · intro src offset short found
    rw [varint_start] at found
    obtain ⟨bytes, spelled, parts⟩ := Varint.exists_spells_of_decode found
    have least := spelled.groups.length_encode_le
    have lengths := congrArg List.length parts
    rw [List.length_drop, List.length_append] at lengths
    omega

theorem readsVarint (src : Bytes) (offset : Nat) : ReadsVarint src offset := by
  have found : ∀ marked, marked < 4 → Varint.Ends (src.drop offset) marked →
      (start src offset).varint = (.ok (Varint.value ((src.drop offset).take (marked + 1))),
          start src (offset + (marked + 1))) := by
    intro marked within ends
    rw [varint_start, Varint.decode, ends.decodeGroups_eq within]
  have failed : (∀ marked, marked < 4 → ¬Varint.Ends (src.drop offset) marked) →
      (start src offset).varint = if (src.drop offset).length < 4
        then (.error .varintTruncated, start src (offset + (src.drop offset).length))
        else (.error .varintTooLong, start src (offset + 4)) := by
    intro endless
    rw [varint_start, Varint.decode, Varint.decodeGroups_of_not_ends endless]
    split <;> rfl
  refine ⟨⟨?_, ?_⟩, ?_, failed, ?_⟩
  · rintro ⟨n, success⟩
    apply Classical.byContradiction
    intro endless
    rw [failed fun marked within ends => endless ⟨marked, within, ends⟩] at success
    split at success <;> contradiction
  · rintro ⟨marked, within, ends⟩
    rw [found marked within ends]
    exact ⟨_, rfl⟩
  · intro marked within ends
    refine ⟨found marked within ends, Varint.value_lt_limit ?_⟩
    exact Nat.le_trans (List.length_take_le _ _) within
  · have gathered := Varint.gather_eq src 4 offset 0 0 (by decide) (by decide)
    rw [gathered, varint_start, Varint.decode]
    simp only [UInt32.toNat_zero, Nat.zero_add, Nat.pow, Nat.one_mul]
    rfl

/-- Varints are written and read exactly: every number below the limit in its shortest form, and from
any bytes and offset just what is there. -/
theorem varints_exact :
    (∀ n, n < Varint.limit → ∃ code, WritesVarint n code) ∧ ∀ src offset, ReadsVarint src offset :=
  ⟨fun n small => ⟨Varint.encode n, writesVarint small⟩, readsVarint⟩

theorem varints_exact_two_bytes : 300 < Varint.limit ∧ (∃ code, WritesVarint 300 code)
    ∧ Varint.encode? 300 = some [172, 2] ∧ Varint.Ends ([7, 172, 2, 9].drop 1) 1
    ∧ (start [7, 172, 2, 9] 1).varint = (.ok 300, start [7, 172, 2, 9] 3) := by
  have ends : Varint.Ends ([7, 172, 2, 9].drop 1) 1 := ⟨⟨2, rfl, rfl⟩, by decide⟩
  exact ⟨by decide, varints_exact.1 300 (by decide), by decide +kernel, ends,
    ((varints_exact.2 [7, 172, 2, 9] 1).found 1 (by decide) ends).1⟩

end Reader

end OrderedStore
