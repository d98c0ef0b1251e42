import OrderedStore.Packed.Access
import OrderedStore.Proofs.Record.Limits
import OrderedStore.Proofs.Store.Contents

/-! # Chunk keys in the order of keys

The chunk keys of a user key lie side by side: nothing but chunk keys of the same user key lies
between two of them, and no key is a chunk key of two user keys. Within those of one user key the
markers alone decide the order.
-/

namespace OrderedStore

namespace Bytes

theorem append_lt_append_iff {common a b : Bytes} : common ++ a < common ++ b ↔ a < b := by
  constructor
  · intro less
    apply List.not_le.mp
    intro more
    exact List.not_le.mpr less (List.append_left_le more)
  · exact List.append_left_lt

theorem append_le_append_iff {common a b : Bytes} : common ++ a ≤ common ++ b ↔ a ≤ b := by
  rw [← List.not_lt, ← List.not_lt, append_lt_append_iff]

theorem prefix_of_between {common a b key : Bytes} (low : common ++ a ≤ key)
    (high : key ≤ common ++ b) : common <+: key := by
  induction common generalizing key with
  | nil => exact List.nil_prefix
  | cons c common ih =>
      cases key with
      | nil => exact absurd low (List.not_le.mpr (List.nil_lt_cons c _))
      | cons k key =>
          rw [List.cons_append] at low high
          rcases List.cons_le_cons_iff.mp low with below | ⟨same, rest_low⟩
          · rcases List.cons_le_cons_iff.mp high with above | ⟨same, _⟩
            · exact absurd above (Std.not_lt.mpr (Std.le_of_lt below))
            · exact absurd same.symm (Std.ne_of_lt below)
          · subst same
            rcases List.cons_le_cons_iff.mp high with above | ⟨_, rest_high⟩
            · exact absurd above Std.lt_irrefl
            · exact List.cons_prefix_cons.mpr ⟨rfl, ih rest_low rest_high⟩

theorem ofU32_inj {n m : Nat} (small : n < 4294967296) (small' : m < 4294967296)
    (same : ofU32 n = ofU32 m) : n = m := by
  simp only [ofU32, low, List.cons.injEq, ← UInt8.toNat_inj, UInt8.toNat_ofNat'] at same
  omega

end Bytes

namespace Packed

/-- What the chunk keys of a user key have in common. -/
def stem (user : Bytes) : Bytes := Bytes.ofU32 user.length ++ user

/-- A user key and a field whose chunk keys a record can have. -/
structure Addressable (user field : Bytes) : Prop where
  named : field ≠ []
  short : 4 + user.length + field.length ≤ Record.maxKey

section

variable {user field key common : Bytes}

theorem chunkPrefix_eq (short : user.length < 4294967296) : chunkPrefix user = .ok (stem user) :=
  if_pos short

theorem chunkPrefix_eq_ok (named : chunkPrefix user = .ok common) :
    user.length < 4294967296 ∧ common = stem user := by
  rw [chunkPrefix] at named
  split at named
  · exact ⟨‹_›, (Except.ok.inj named).symm⟩
  · contradiction

@[simp] theorem length_stem (user : Bytes) : (stem user).length = 4 + user.length := by
  simp [stem]

theorem isChunkOf_iff :
    isChunkOf key common = true ↔ ∃ marker, marker ≠ [] ∧ key = common ++ marker := by
  rw [isChunkOf, Bool.and_eq_true, decide_eq_true_eq, List.isPrefixOf_iff_prefix]
  constructor
  · rintro ⟨longer, marker, rfl⟩
    refine ⟨marker, ?_, rfl⟩
    rintro rfl
    simp at longer
  · rintro ⟨marker, filled, rfl⟩
    have pos := List.length_pos_iff.mpr filled
    refine ⟨?_, List.prefix_append _ _⟩
    rw [List.length_append]
    omega

theorem isChunkOf_append (common : Bytes) {marker : Bytes} (filled : marker ≠ []) :
    isChunkOf (common ++ marker) common = true := isChunkOf_iff.mpr ⟨marker, filled, rfl⟩

/-- A key at or above a chunk key and at or below an address is a chunk key. -/
theorem isChunkOf_between {chunk : Bytes} (is_chunk : isChunkOf chunk common = true)
    (low : chunk ≤ key) (high : key ≤ common ++ field) : isChunkOf key common = true := by
  obtain ⟨marker, filled, rfl⟩ := isChunkOf_iff.mp is_chunk
  obtain ⟨rest, rfl⟩ := Bytes.prefix_of_between low high
  apply isChunkOf_append
  rintro rfl
  exact filled (List.le_nil.mp (Bytes.append_le_append_iff.mp low))

/-- No key is a chunk key of two user keys. -/
theorem eq_of_isChunkOf {user' : Bytes} (short : user.length < 4294967296)
    (short' : user'.length < 4294967296) (is_chunk : isChunkOf key (stem user) = true)
    (is_chunk' : isChunkOf key (stem user') = true) : user = user' := by
  obtain ⟨marker, _, rfl⟩ := isChunkOf_iff.mp is_chunk
  obtain ⟨marker', _, same⟩ := isChunkOf_iff.mp is_chunk'
  rw [stem, stem, List.append_assoc, List.append_assoc] at same
  obtain ⟨lengths, rest⟩ := List.append_inj same rfl
  exact (List.append_inj rest (Bytes.ofU32_inj short short' lengths)).1

/-- A chunk key under the common part of a user key is a chunk key of that user key. -/
theorem isChunkOf_of_prefix {user' : Bytes} (short : user.length < 4294967296)
    (short' : user'.length < 4294967296) (is_chunk : isChunkOf key (stem user') = true)
    (starts : stem user <+: key) : isChunkOf key (stem user) = true := by
  obtain ⟨marker, filled, rfl⟩ := isChunkOf_iff.mp is_chunk
  obtain ⟨rest, same⟩ := starts
  have parts := same
  rw [stem, stem, List.append_assoc, List.append_assoc] at parts
  obtain ⟨lengths, names⟩ := List.append_inj parts rfl
  obtain ⟨rfl, rfl⟩ := List.append_inj names (Bytes.ofU32_inj short short' lengths)
  exact is_chunk

theorem lt_prefixEnd? (common marker : Bytes) :
    ∀ key ∈ prefixEnd? common, common ++ marker < key := by
  induction common with
  | nil => simp [prefixEnd?]
  | cons b common ih =>
      intro key ends
      rw [List.cons_append]
      rw [prefixEnd?] at ends
      cases higher : prefixEnd? common with
      | some key' =>
          rw [higher] at ends
          obtain rfl := Option.some.inj ends
          exact List.cons_lt_cons_iff.mpr (.inr ⟨rfl, ih key' higher⟩)
      | none =>
          rw [higher] at ends
          by_cases most : b = 255
          · simp [most] at ends
          · rw [if_neg most] at ends
            obtain rfl := Option.some.inj ends
            apply List.cons_lt_cons_iff.mpr
            left
            have top : b.toNat ≠ 255 := fun same => most (UInt8.toNat_inj.mp same)
            have bound := b.toNat_lt
            rw [UInt8.lt_iff_toNat_lt, UInt8.toNat_add]
            simp only [UInt8.toNat_one]
            omega

theorem inRange_of_isChunkOf (is_chunk : isChunkOf key common = true) :
    inRange (some common) (prefixEnd? common) key = true := by
  obtain ⟨marker, _, rfl⟩ := isChunkOf_iff.mp is_chunk
  rw [inRange, Bool.and_eq_true, Option.all_some, Option.all_eq_true]
  refine ⟨decide_eq_true List.le_append_left, ?_⟩
  intro key ends
  exact decide_eq_true (lt_prefixEnd? common marker key ends)

theorem firstMarker_le (named : field ≠ []) : firstMarker ≤ field := by
  cases field with
  | nil => contradiction
  | cons b field =>
      apply List.cons_le_cons_iff.mpr
      by_cases zero : (0 : UInt8) = b
      · exact .inr ⟨zero, List.nil_le field⟩
      · left
        apply Std.lt_of_le_of_ne _ zero
        rw [UInt8.le_iff_toNat_le]
        exact Nat.zero_le _

end

namespace Addressable

variable {user field : Bytes}

theorem user_lt (addressable : Addressable user field) : user.length < 4294967296 := by
  have short := addressable.short
  rw [Record.maxKey] at short
  omega

theorem field_lt (addressable : Addressable user field) : field.length < Varint.limit := by
  have short := addressable.short
  rw [Record.maxKey] at short
  rw [Varint.limit]
  omega

theorem keyFits (addressable : Addressable user field) : Record.KeyFits (stem user ++ field) := by
  constructor
  · intro empty
    exact addressable.named (List.append_eq_nil_iff.mp empty).2
  · rw [List.length_append, length_stem]
    exact addressable.short

theorem lookupPrefix_eq (addressable : Addressable user field) :
    lookupPrefix user field = .ok (stem user) := by
  have named : field.isEmpty = false := by simpa using addressable.named
  rw [lookupPrefix, named, if_neg Bool.false_ne_true, chunkPrefix_eq addressable.user_lt]

end Addressable

end Packed

end OrderedStore
