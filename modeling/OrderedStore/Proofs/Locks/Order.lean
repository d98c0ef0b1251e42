import OrderedStore.LockTable

/-! # The order of locks

The shards of several keys are locked in strictly ascending order. The order depends on the set of
the keys alone, and two parties meet the shards that they share in the same order, however the hash
spreads the keys.
-/

namespace OrderedStore.LockTable

theorem mem_dedup {n : Nat} {shards : List Nat} : n ∈ dedup shards ↔ n ∈ shards := by
  fun_induction dedup shards with
  | case1 => exact Iff.rfl
  | case2 => exact Iff.rfl
  | case3 m rest ih =>
      have again : n = m → n ∈ m :: rest := fun same => same ▸ List.mem_cons_self
      exact ih.trans (List.mem_cons.trans (or_iff_right_of_imp again)).symm
  | case4 m k rest other ih =>
      exact List.mem_cons.trans ((or_congr Iff.rfl ih).trans List.mem_cons.symm)

/-- Equal neighbours are all that is equal in an ascending list. -/
theorem pairwise_dedup {shards : List Nat} (sorted : shards.Pairwise (· ≤ ·)) :
    (dedup shards).Pairwise (· < ·) := by
  fun_induction dedup shards with
  | case1 => exact .nil
  | case2 n => exact List.pairwise_singleton _ n
  | case3 m rest ih => exact ih sorted.tail
  | case4 m n rest other ih =>
      obtain ⟨least, sorted⟩ := List.pairwise_cons.mp sorted
      refine List.pairwise_cons.mpr ⟨?_, ih sorted⟩
      intro k member
      have less : m < n := Nat.lt_of_le_of_ne (least n List.mem_cons_self) other
      rcases List.mem_cons.mp (mem_dedup.mp member) with rfl | behind
      · exact less
      · exact Nat.lt_of_lt_of_le less ((List.pairwise_cons.mp sorted).1 k behind)

theorem eq_of_ascending {shards shards' : List Nat} (ascends : shards.Pairwise (· < ·))
    (ascends' : shards'.Pairwise (· < ·)) (same : ∀ n, n ∈ shards ↔ n ∈ shards') :
    shards = shards' := by
  have permuted : shards.Perm shards' := (List.perm_ext_iff_of_nodup
    (ascends.imp Nat.ne_of_lt) (ascends'.imp Nat.ne_of_lt)).mpr same
  exact permuted.eq_of_pairwise (fun m n _ _ less more => absurd more (Nat.lt_asymm less))
    ascends ascends'

section

variable (hash : Bytes → UInt64) (t : LockTable)

theorem pairwise_orderBy (keys : List Bytes) : (t.orderBy hash keys).Pairwise (· < ·) := by
  apply pairwise_dedup
  have transitive : ∀ m n k : Nat, decide (m ≤ n) = true → decide (n ≤ k) = true →
      decide (m ≤ k) = true := by
    intro m n k low high
    exact decide_eq_true (Nat.le_trans (of_decide_eq_true low) (of_decide_eq_true high))
  have linear : ∀ m n : Nat, (decide (m ≤ n) || decide (n ≤ m)) = true := by
    intro m n
    rw [Bool.or_eq_true, decide_eq_true_eq, decide_eq_true_eq]
    exact Nat.le_total m n
  have sorted := List.pairwise_mergeSort transitive linear (keys.mergeSort.map (t.shardBy hash))
  exact sorted.imp of_decide_eq_true

theorem mem_orderBy {keys : List Bytes} {n : Nat} :
    n ∈ t.orderBy hash keys ↔ ∃ key ∈ keys, t.shardBy hash key = n := by
  rw [orderBy, mem_dedup, List.mem_mergeSort, List.mem_map]
  simp only [List.mem_mergeSort]

theorem orderBy_congr {keys keys' : List Bytes} (same : ∀ key, key ∈ keys ↔ key ∈ keys') :
    t.orderBy hash keys = t.orderBy hash keys' := by
  apply eq_of_ascending (t.pairwise_orderBy hash keys) (t.pairwise_orderBy hash keys')
  intro n
  simp only [mem_orderBy, same]

/-- What two lists of keys share is locked in the same order for both. -/
theorem shared_orderBy (keys keys' : List Bytes) :
    (t.orderBy hash keys).filter (· ∈ t.orderBy hash keys')
      = (t.orderBy hash keys').filter (· ∈ t.orderBy hash keys) := by
  apply eq_of_ascending ((t.pairwise_orderBy hash keys).filter _)
    ((t.pairwise_orderBy hash keys').filter _)
  intro n
  simp only [List.mem_filter, decide_eq_true_eq, and_comm]

end

end OrderedStore.LockTable
