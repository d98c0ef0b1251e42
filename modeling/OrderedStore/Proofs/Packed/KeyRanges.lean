import OrderedStore.Proofs.Packed.Keys

/-! # Ranges of keys with a common beginning

The keys that begin with a byte string are those from it on up to its end, and the end is the least
key above all of them. Only bytes 255 alone have no end, so that the common part of the chunk keys of
a user key has one. In the range up to it nothing is a chunk of any other user key.
-/

namespace OrderedStore.Packed

/-- `prefixEnd?`, told from the back: bytes 255 are dropped, and the first other byte goes up by one.
The bytes come last first. -/
def raise? : Bytes → Option Bytes
  | [] => none
  | last :: rest => if last = 255 then raise? rest else some ((last + 1) :: rest)

/-- The least byte string above every one that begins with `common`. -/
structure Bounds (common stop : Bytes) : Prop where
  above : ∀ key, common <+: key → key < stop
  least : ∀ other, (∀ key, common <+: key → key < other) → stop ≤ other

/-- What lies in the range of the chunk keys with one common part, where other chunk keys have
another one. -/
structure Apart (common other : Bytes) : Prop where
  disjoint : ∀ key, isChunkOf key common = true → isChunkOf key other = false
  range : ∃ stop, prefixEnd? common = some stop ∧
    ∀ key, inRange (some common) (some stop) key = true → isChunkOf key other = false
  between : ∀ low key high, isChunkOf low common = true → isChunkOf high common = true →
    low ≤ key → key ≤ high → isChunkOf key common = true

section

variable {common key stop : Bytes}

theorem raise?_append (back front : Bytes) :
    raise? (back ++ front) = ((raise? back).map (· ++ front)).or (raise? front) := by
  induction back with
  | nil => rfl
  | cons last back ih =>
      rw [List.cons_append, raise?, raise?]
      split
      · exact ih
      · rfl

theorem prefixEnd?_eq (common : Bytes) :
    prefixEnd? common = (raise? common.reverse).map List.reverse := by
  induction common with
  | nil => rfl
  | cons b common ih =>
      rw [prefixEnd?, ih, List.reverse_cons, raise?_append]
      cases raise? common.reverse with
      | some raised => simp
      | none =>
          by_cases most : b = 255
          · simp [raise?, most]
          · simp [raise?, most]

theorem raise?_eq_none_iff {back : Bytes} : raise? back = none ↔ ∀ b ∈ back, b = 255 := by
  induction back with
  | nil => simp [raise?]
  | cons last back ih =>
      rw [raise?, List.forall_mem_cons]
      by_cases most : last = 255
      · rw [if_pos most, ih]
        exact (and_iff_right most).symm
      · simp [most]

theorem prefixEnd?_eq_none_iff : prefixEnd? common = none ↔ ∀ b ∈ common, b = 255 := by
  rw [prefixEnd?_eq, Option.map_eq_none_iff, raise?_eq_none_iff]
  simp only [List.mem_reverse]

/-- A key with a greater first byte lies at or above the end. -/
theorem exists_prefixEnd?_le {b k : UInt8} (greater : b < k) (common key : Bytes) :
    ∃ stop, prefixEnd? (b :: common) = some stop ∧ stop ≤ k :: key := by
  rw [prefixEnd?]
  cases prefixEnd? common with
  | some higher => exact ⟨b :: higher, rfl, List.cons_le_cons_iff.mpr (.inl greater)⟩
  | none =>
      have bound := k.toNat_lt
      rw [UInt8.lt_iff_toNat_lt] at greater
      have room : b ≠ 255 := by
        rintro rfl
        exact Nat.not_lt.mpr (Nat.le_of_lt_succ bound) greater
      refine ⟨[b + 1], if_neg room, List.cons_le_cons_iff.mpr ?_⟩
      have next : (b + 1).toNat = b.toNat + 1 := by
        rw [UInt8.toNat_add, UInt8.toNat_one]
        omega
      by_cases same : b + 1 = k
      · exact .inr ⟨same, List.nil_le key⟩
      · left
        have different : (b + 1).toNat ≠ k.toNat := fun equal => same (UInt8.toNat_inj.mp equal)
        rw [UInt8.lt_iff_toNat_lt]
        omega

theorem prefix_of_lt_prefixEnd? (low : common ≤ key) (high : ∀ stop ∈ prefixEnd? common, key < stop) :
    common <+: key := by
  induction common generalizing key with
  | nil => exact List.nil_prefix
  | cons b common ih =>
      cases key with
      | nil => exact absurd low (List.not_le.mpr (List.nil_lt_cons b _))
      | cons k key =>
          rcases List.cons_le_cons_iff.mp low with greater | ⟨rfl, rest_low⟩
          · obtain ⟨stop, ends, beyond⟩ := exists_prefixEnd?_le greater common key
            exact absurd (high stop ends) (List.not_lt.mpr beyond)
          · refine List.cons_prefix_cons.mpr ⟨rfl, ih rest_low ?_⟩
            intro stop ends
            rw [Option.mem_def] at ends
            rw [prefixEnd?, ends] at high
            rcases List.cons_lt_cons_iff.mp (high _ rfl) with below | ⟨_, below⟩
            · exact absurd below Std.lt_irrefl
            · exact below

theorem prefix_iff_between :
    common <+: key ↔ common ≤ key ∧ ∀ stop ∈ prefixEnd? common, key < stop := by
  constructor
  · rintro ⟨marker, rfl⟩
    exact ⟨List.le_append_left, lt_prefixEnd? common marker⟩
  · rintro ⟨low, high⟩
    exact prefix_of_lt_prefixEnd? low high

theorem bounds_of_prefixEnd? (ends : prefixEnd? common = some stop) : Bounds common stop := by
  constructor
  · intro key starts
    exact (prefix_iff_between.mp starts).2 stop ends
  · intro other above
    apply List.not_lt.mp
    intro less
    -- what lies below the end and is above `common` itself would have to be above itself
    have low : common ≤ other := Std.le_of_lt (above common (List.prefix_refl common))
    have starts : common <+: other := by
      refine prefix_iff_between.mpr ⟨low, ?_⟩
      intro stop' ends'
      obtain rfl := Option.some.inj (ends.symm.trans ends')
      exact less
    exact absurd (above other starts) Std.lt_irrefl

theorem inRange_prefixEnd?_iff :
    inRange (some common) (prefixEnd? common) key = true ↔ common <+: key := by
  rw [prefix_iff_between, inRange, Bool.and_eq_true, Option.all_some, Option.all_eq_true,
    decide_eq_true_eq]
  simp only [decide_eq_true_eq, Option.mem_def]

end

/-- The length in front of a user key has a byte that can go up, unless it is the greatest one. -/
theorem exists_prefixEnd?_stem {user : Bytes} (short : user.length < 4294967295) :
    ∃ stop, prefixEnd? (stem user) = some stop := by
  apply Option.ne_none_iff_exists'.mp
  intro nothing
  have most := prefixEnd?_eq_none_iff.mp nothing
  have digits : ∀ b ∈ Bytes.ofU32 user.length, b.toNat = 255 := fun b member =>
    congrArg UInt8.toNat (most b (List.mem_append_left _ member))
  simp only [Bytes.ofU32, List.forall_mem_cons, Bytes.low, UInt8.toNat_ofNat'] at digits
  omega

theorem apart_stem {user other : Bytes} (different : user ≠ other)
    (short : user.length < 4294967295) (short' : other.length < 4294967295) :
    Apart (stem user) (stem other) := by
  have small : user.length < 4294967296 := by omega
  have small' : other.length < 4294967296 := by omega
  have disjoint : ∀ key, isChunkOf key (stem user) = true → isChunkOf key (stem other) = false := by
    intro key is_chunk
    apply Bool.eq_false_iff.mpr
    intro is_chunk'
    exact different (eq_of_isChunkOf small small' is_chunk is_chunk')
  obtain ⟨stop, ends⟩ := exists_prefixEnd?_stem short
  refine ⟨disjoint, ⟨stop, ends, ?_⟩, ?_⟩
  · intro key inside
    rw [← ends, inRange_prefixEnd?_iff] at inside
    apply Bool.eq_false_iff.mpr
    intro is_chunk'
    have is_chunk := isChunkOf_of_prefix small small' is_chunk' inside
    exact different (eq_of_isChunkOf small small' is_chunk is_chunk')
  · intro low key high is_low is_high above below
    obtain ⟨marker, _, rfl⟩ := isChunkOf_iff.mp is_high
    exact isChunkOf_between is_low above below

/-- The range of a byte string holds the keys that begin with it, and its end is as low as it can
be; the ranges of the chunks of two user keys have no chunk in common. -/
theorem key_ranges_exact :
    (∀ common key, common <+: key ↔ common ≤ key
      ∧ (prefixEnd? common = none ∨ ∃ stop, prefixEnd? common = some stop ∧ key < stop))
    ∧ (∀ common stop, prefixEnd? common = some stop → Bounds common stop)
    ∧ (∀ common, prefixEnd? common = none ↔ ∀ b ∈ common, b = 255)
    ∧ ∀ user other, user ≠ other → user.length < 4294967295 → other.length < 4294967295 →
      ∃ common common', chunkPrefix user = .ok common ∧ chunkPrefix other = .ok common'
        ∧ Apart common common' := by
  refine ⟨?_, fun _ _ => bounds_of_prefixEnd?, fun _ => prefixEnd?_eq_none_iff, ?_⟩
  · intro common key
    rw [prefix_iff_between]
    cases prefixEnd? common <;> simp
  · intro user other different short short'
    exact ⟨stem user, stem other, chunkPrefix_eq (by omega), chunkPrefix_eq (by omega),
      apart_stem different short short'⟩

theorem key_ranges_exact_extended :
    (prefixEnd? [1, 255] = some [2] ∧ Bounds [1, 255] [2])
      ∧ ([97] : Bytes) ≠ [97, 255] ∧ ∃ common common', chunkPrefix [97] = .ok common
        ∧ chunkPrefix [97, 255] = .ok common' ∧ Apart common common' :=
  ⟨⟨rfl, key_ranges_exact.2.1 [1, 255] [2] rfl⟩, by decide,
    key_ranges_exact.2.2.2 [97] [97, 255] (by decide) (by decide) (by decide)⟩

end OrderedStore.Packed
