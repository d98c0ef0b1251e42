import OrderedStore.Bytes.Varint

/-! # Reading back varints

A varint spells a number in groups of seven bits, and the last group may be preceded by others that
add nothing. A decoder takes every spelling of up to four bytes, whatever follows it, and no other
bytes. Writing gives the shortest spelling of a number, and there is only one of that length.
-/

namespace OrderedStore.Varint

theorem toNat_low {n : Nat} (small : n < 256) : (Bytes.low n).toNat = n := by
  rw [Bytes.low, UInt8.toNat_ofNat']
  exact Nat.mod_eq_of_lt small

/-- A number in groups of seven bits, the least significant first, with the high bit of every byte
but the last set. -/
inductive Groups : Bytes → Nat → Prop where
  | last {byte : UInt8} : byte.toNat < 128 → Groups [byte] byte.toNat
  | more {byte : UInt8} {bytes : Bytes} {n : Nat} : 128 ≤ byte.toNat → Groups bytes n →
      Groups (byte :: bytes) (byte.toNat - 128 + 128 * n)

/-- The bytes are a varint of the number. -/
structure Spells (bytes : Bytes) (n : Nat) : Prop where
  groups : Groups bytes n
  short : bytes.length ≤ 4

/-- No varint of the number is shorter. -/
def Minimal (bytes : Bytes) (n : Nat) : Prop :=
  ∀ other, Spells other n → bytes.length ≤ other.length

namespace Groups

variable {bytes other : Bytes} {n m groups : Nat}

theorem lt_pow (spelled : Groups bytes n) : n < Nat.pow 128 bytes.length := by
  induction spelled with
  | last small => exact small
  | @more byte bytes n marked _ ih =>
      have byte_small := byte.toNat_lt
      have step : Nat.pow 128 (byte :: bytes).length = Nat.pow 128 bytes.length * 128 := rfl
      rw [step]
      omega

/-- By induction on the groups of the spelling. -/
theorem decode (spelled : Groups bytes n) (short : bytes.length ≤ groups) (rest : Bytes) :
    decodeGroups groups (bytes ++ rest) = ⟨.ok n, bytes.length, rest⟩ := by
  induction spelled generalizing groups with
  | last small =>
      cases groups with
      | zero => contradiction
      | succ groups => simp [decodeGroups, small]
  | more marked _ ih =>
      cases groups with
      | zero => contradiction
      | succ groups =>
          rw [List.cons_append, decodeGroups, if_neg (Nat.not_lt.mpr marked),
            ih (Nat.le_of_succ_le_succ short)]
          rfl

theorem of_encode (n : Nat) : Groups (encode n) n := by
  by_cases small : n < 128
  · rw [encode_of_lt small]
    have byte := toNat_low (Nat.lt_trans small (by decide : 128 < 256))
    have spelled : Groups [Bytes.low n] (Bytes.low n).toNat := .last (byte.symm ▸ small)
    rwa [byte] at spelled
  · have large := Nat.not_lt.mp small
    have byte : (Bytes.low (n % 128 + 128)).toNat = n % 128 + 128 := toNat_low (by omega)
    have spelled : Groups (Bytes.low (n % 128 + 128) :: encode (n / 128))
        ((Bytes.low (n % 128 + 128)).toNat - 128 + 128 * (n / 128)) :=
      .more (by omega) (of_encode (n / 128))
    rw [byte, Nat.add_sub_cancel, Nat.mod_add_div] at spelled
    rwa [encode_of_ge large]
termination_by n
decreasing_by omega

theorem length_pos (spelled : Groups bytes n) : 0 < bytes.length := by
  cases spelled with
  | last => exact Nat.zero_lt_one
  | more => exact Nat.succ_pos _

theorem unique (spelled : Groups bytes n) (spelled' : Groups other m) (same : n = m)
    (as_long : bytes.length = other.length) : bytes = other := by
  induction spelled generalizing other m with
  | last =>
      cases spelled' with
      | last => rw [UInt8.toNat_inj.mp same]
      | more _ rest => exact absurd (Nat.succ.inj as_long) (Nat.ne_of_lt rest.length_pos)
  | @more byte _ _ marked rest ih =>
      cases spelled' with
      | last => exact absurd (Nat.succ.inj as_long).symm (Nat.ne_of_lt rest.length_pos)
      | @more byte' _ _ marked' rest' =>
          have byte_small := byte.toNat_lt
          have byte_small' := byte'.toNat_lt
          have low_same : byte.toNat = byte'.toNat := by omega
          rw [UInt8.toNat_inj.mp low_same, ih rest' (by omega) (Nat.succ.inj as_long)]

/-- Writing gives a shortest spelling. -/
theorem length_encode_le (spelled : Groups bytes n) : (encode n).length ≤ bytes.length := by
  induction spelled with
  | last small => simp [encode_of_lt small]
  | @more byte bytes n marked _ ih =>
      by_cases small : byte.toNat - 128 + 128 * n < 128
      · rw [encode_of_lt small]
        exact Nat.succ_le_succ (Nat.zero_le _)
      · have byte_small := byte.toNat_lt
        have higher : (byte.toNat - 128 + 128 * n) / 128 = n := by omega
        rw [encode_of_ge (Nat.not_lt.mp small), higher]
        exact Nat.succ_le_succ ih

end Groups

theorem exists_groups_of_decodeGroups {groups n : Nat} {src : Bytes}
    (found : (decodeGroups groups src).result = .ok n) : ∃ bytes, Groups bytes n
      ∧ bytes.length ≤ groups ∧ src = bytes ++ (decodeGroups groups src).rest := by
  induction groups generalizing src n with
  | zero => contradiction
  | succ groups ih =>
      cases src with
      | nil => contradiction
      | cons byte src =>
          rw [decodeGroups] at found ⊢
          by_cases small : byte.toNat < 128
          · rw [if_pos small] at found ⊢
            obtain rfl := Except.ok.inj found
            exact ⟨[byte], .last small, Nat.le_add_left 1 groups, rfl⟩
          · rw [if_neg small] at found ⊢
            cases higher : (decodeGroups groups src).result with
            | error fault => simp [higher, Except.map] at found
            | ok m =>
                obtain ⟨bytes, spelled, short, parts⟩ := ih higher
                simp only [higher, Except.map, Except.ok.injEq] at found
                subst found
                exact ⟨byte :: bytes, .more (Nat.not_lt.mp small) spelled, Nat.succ_le_succ short,
                  congrArg (byte :: ·) parts⟩

namespace Spells

variable {bytes : Bytes} {n : Nat}

theorem decode (spelled : Spells bytes n) (rest : Bytes) :
    decode (bytes ++ rest) = ⟨.ok n, bytes.length, rest⟩ := spelled.groups.decode spelled.short rest

theorem append_inj (spelled : Spells bytes n) {other : Bytes} {m : Nat} (spelled' : Spells other m)
    {rest rest' : Bytes} (same : bytes ++ rest = other ++ rest') : bytes = other ∧ rest = rest' := by
  have read := spelled.decode rest
  rw [same, spelled'.decode rest'] at read
  exact List.append_inj same (congrArg Reading.read read).symm

theorem lt_limit (spelled : Spells bytes n) : n < limit := by
  have bound : Nat.pow 128 bytes.length ≤ Nat.pow 128 4 :=
    Nat.pow_le_pow_right (by decide) spelled.short
  exact Nat.lt_of_lt_of_le spelled.groups.lt_pow bound

theorem of_encode (small : n < limit) : Spells (encode n) n := by
  refine ⟨.of_encode n, ?_⟩
  rw [length_encode small, size]
  split
  · decide
  · split
    · decide
    · split <;> decide

theorem minimal_iff (spelled : Spells bytes n) : Minimal bytes n ↔ bytes = encode n := by
  constructor
  · intro minimal
    have le := minimal (encode n) (.of_encode spelled.lt_limit)
    exact spelled.groups.unique (.of_encode n) rfl
      (Nat.le_antisymm le spelled.groups.length_encode_le)
  · rintro rfl other spelled'
    exact spelled'.groups.length_encode_le

end Spells

theorem exists_spells_of_decode {src : Bytes} {n : Nat} (found : (decode src).result = .ok n) :
    ∃ bytes, Spells bytes n ∧ src = bytes ++ (decode src).rest := by
  obtain ⟨bytes, spelled, short, parts⟩ := exists_groups_of_decodeGroups found
  exact ⟨bytes, ⟨spelled, short⟩, parts⟩

/-- A number below the limit is read back, and the bytes behind it are left. -/
theorem decode_encode_append {n : Nat} (small : n < limit) (rest : Bytes) :
    decode (encode n ++ rest) = ⟨.ok n, size n, rest⟩ := by
  rw [(Spells.of_encode small).decode, length_encode small]

end OrderedStore.Varint
