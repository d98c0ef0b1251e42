import Mathlib.NumberTheory.Bertrand
import OrderedStore.LockTable

/-! # How many locks a table has

Trial division tells the primes from all other numbers, and the search from the requested size on
ends, at the least prime. The loops are told once more as they run on the words of a machine, where
each number that they compute has to be a word: they run through exactly as long as the prime that
they look for leaves room for the squares.
-/

namespace OrderedStore

namespace Prime

/-- The divisors that trial division of `n` tries from `d` on: in steps of two, up to the square
root of `n`. -/
def Tried (n d m : Nat) : Prop := m * m ≤ n ∧ ∃ k, m = d + 2 * k

theorem hasDivisorFrom_iff {n d : Nat} :
    hasDivisorFrom n d = true ↔ ∃ m, Tried n d m ∧ m ∣ n := by
  fun_induction hasDivisorFrom n d with
  | case1 d inside ih =>
      rw [Bool.or_eq_true, decide_eq_true_eq, ih]
      constructor
      · rintro (here | ⟨m, ⟨small, k, rfl⟩, divides⟩)
        · exact ⟨d, ⟨inside, 0, rfl⟩, Nat.dvd_of_mod_eq_zero here⟩
        · exact ⟨_, ⟨small, k + 1, by omega⟩, divides⟩
      · rintro ⟨m, ⟨small, k, rfl⟩, divides⟩
        cases k with
        | zero => exact .inl (Nat.mod_eq_zero_of_dvd divides)
        | succ k => exact .inr ⟨_, ⟨small, k, by omega⟩, divides⟩
  | case2 d past =>
      refine iff_of_false Bool.false_ne_true ?_
      rintro ⟨m, ⟨small, k, rfl⟩, _⟩
      have larger : d * d ≤ (d + 2 * k) * (d + 2 * k) :=
        Nat.mul_self_le_mul_self (Nat.le_add_right d _)
      exact past (Nat.le_trans larger small)

/-- Among odd numbers, those without an odd divisor from three up to the square root are prime: the
least factor of any other is such a divisor. -/
theorem prime_iff_of_odd {n : Nat} (large : 2 ≤ n) (odd : n % 2 ≠ 0) :
    Nat.Prime n ↔ ∀ m, Tried n 3 m → ¬m ∣ n := by
  constructor
  · rintro prime m ⟨small, k, rfl⟩ divides
    rcases (Nat.dvd_prime prime).mp divides with one | same
    · omega
    · have less : (3 + 2 * k) * 1 < (3 + 2 * k) * (3 + 2 * k) :=
        Nat.mul_lt_mul_of_pos_left (by omega) (by omega)
      omega
  · intro untouched
    by_contra composite
    have least_two : 2 ≤ n.minFac := (Nat.minFac_prime (by omega)).two_le
    have divides : n.minFac ∣ n := n.minFac_dvd
    have square : n.minFac * n.minFac ≤ n := by
      rw [← pow_two]
      exact Nat.minFac_sq_le_self (by omega) composite
    have factor_odd : n.minFac % 2 ≠ 0 := by
      intro even
      exact odd (Nat.mod_eq_zero_of_dvd ((Nat.dvd_of_mod_eq_zero even).trans divides))
    exact untouched n.minFac ⟨square, (n.minFac - 3) / 2, by omega⟩ divides

theorem isPrime_iff (n : Nat) : isPrime n = true ↔ Nat.Prime n := by
  unfold isPrime
  split
  · next small => exact iff_of_false Bool.false_ne_true fun prime => small.not_ge prime.two_le
  · next large =>
    split
    · next even =>
      rw [decide_eq_true_eq]
      constructor
      · rintro rfl
        exact Nat.prime_two
      · intro prime
        exact ((Nat.prime_dvd_prime_iff_eq Nat.prime_two prime).mp
          (Nat.dvd_of_mod_eq_zero even)).symm
    · next odd =>
      rw [prime_iff_of_odd (Nat.not_lt.mp large) odd, Bool.not_eq_true', ← Bool.not_eq_true,
        hasDivisorFrom_iff, not_exists]
      exact forall_congr' fun m => not_and

theorem isPrime_eq_false_iff {n : Nat} : isPrime n = false ↔ ¬Nat.Prime n := by
  rw [← Bool.not_eq_true, isPrime_iff]

theorem isLeast_leastWithin {count n p : Nat} (prime : Nat.Prime p) (least : n ≤ p)
    (within_count : p ≤ n + count) :
    IsLeast {p | Nat.Prime p ∧ n ≤ p} (leastWithin count n) := by
  induction count generalizing n with
  | zero =>
      obtain rfl := Nat.le_antisymm least within_count
      exact ⟨⟨prime, Nat.le_refl _⟩, fun q member => member.2⟩
  | succ count ih =>
      rw [leastWithin]
      split
      · next here => exact ⟨⟨(isPrime_iff n).mp here, Nat.le_refl n⟩, fun q member => member.2⟩
      · next not_here =>
        have composite : ¬Nat.Prime n := fun here => not_here ((isPrime_iff n).mpr here)
        have above : ∀ q, Nat.Prime q → n ≤ q → n + 1 ≤ q := by
          intro q prime least
          exact Nat.lt_of_le_of_ne least fun same => composite (same ▸ prime)
        obtain ⟨⟨found, reached⟩, smallest⟩ := ih (above p prime least) (by omega)
        exact ⟨⟨found, Nat.le_of_succ_le reached⟩, fun q member =>
          smallest ⟨member.1, above q member.1 member.2⟩⟩

/-- Some prime lies below twice the number, so that the search ends within its bound. -/
theorem isLeast_leastFrom (n : Nat) : IsLeast {p | Nat.Prime p ∧ n ≤ p} (leastFrom n) := by
  by_cases zero : n = 0
  · exact isLeast_leastWithin Nat.prime_two (by omega) (by omega)
  · obtain ⟨p, prime, above, below⟩ := Nat.exists_prime_lt_and_le_two_mul n zero
    exact isLeast_leastWithin prime (Nat.le_of_lt above) (by omega)

/-! ## On words -/

/-- Trial division of `n` from `d` on, and whether a divisor was found. The machine has the numbers
below `root * root` as its words. -/
inductive Tries (root n : Nat) : Nat → Bool → Prop where
  | past {d : Nat} : d * d < root * root → n < d * d → Tries root n d false
  | divides {d : Nat} : d * d < root * root → d * d ≤ n → n % d = 0 → Tries root n d true
  | onward {d : Nat} {found : Bool} : d * d < root * root → d * d ≤ n → n % d ≠ 0 →
      Tries root n (d + 2) found → Tries root n d found

/-- The test of one number. -/
inductive Tests (root : Nat) : Nat → Bool → Prop where
  | small {n : Nat} : n < 2 → Tests root n false
  | even {n : Nat} : 2 ≤ n → n % 2 = 0 → Tests root n (n = 2)
  | odd {n : Nat} {found : Bool} : 2 ≤ n → n % 2 ≠ 0 → Tries root n 3 found → Tests root n (!found)

/-- The search from `n` on, one number after the other, and the number where it ends. -/
inductive Searches (root : Nat) : Nat → Nat → Prop where
  | here {n : Nat} : Tests root n true → Searches root n n
  | onward {n p : Nat} : Tests root n false → n + 1 < root * root → Searches root (n + 1) p →
      Searches root n p

section

variable {root n p d : Nat} {found answer : Bool}

theorem Tries.eq (tries : Tries root n d found) : found = hasDivisorFrom n d := by
  induction tries with
  | past _ past => rw [hasDivisorFrom, if_neg (Nat.not_le.mpr past)]
  | divides _ inside divides => rw [hasDivisorFrom, if_pos inside, decide_eq_true divides,
      Bool.true_or]
  | onward _ inside remains _ ih => rw [hasDivisorFrom, if_pos inside, ih, decide_eq_false remains,
      Bool.false_or]

theorem Tests.eq (tests : Tests root n answer) : answer = isPrime n := by
  cases tests with
  | small small => rw [isPrime, if_pos small]
  | even large even => rw [isPrime, if_neg (Nat.not_lt.mpr large), if_pos even]
  | odd large odd tries => rw [isPrime, if_neg (Nat.not_lt.mpr large), if_neg odd, tries.eq]

/-- The largest divisor whose square is a word bounds the numbers of which division finds no
divisor. -/
theorem Tries.lt (tries : Tries root n d false) : n < (root - 1) * (root - 1) := by
  generalize answer : false = found at tries
  induction tries with
  | past word past =>
      have below : _ < root := Nat.mul_self_lt_mul_self_iff.mp word
      exact Nat.lt_of_lt_of_le past (Nat.mul_self_le_mul_self (Nat.le_sub_one_of_lt below))
  | divides => contradiction
  | onward _ _ _ _ ih => exact ih answer

/-- Below the square of the largest odd divisor whose square is a word, division runs through. -/
theorem tries_of_lt (even_root : root % 2 = 0) (small : n < (root - 1) * (root - 1))
    (odd : d % 2 = 1) (bounded : d < root) : Tries root n d (hasDivisorFrom n d) := by
  have word : d * d < root * root := Nat.mul_self_lt_mul_self bounded
  fun_induction hasDivisorFrom n d with
  | case1 d inside ih =>
      by_cases divides : n % d = 0
      · rw [decide_eq_true divides, Bool.true_or]
        exact .divides word inside divides
      · have not_last : d < root - 1 :=
          Nat.mul_self_lt_mul_self_iff.mp (Nat.lt_of_le_of_lt inside small)
        have next : d + 2 < root := by omega
        rw [decide_eq_false divides, Bool.false_or]
        exact .onward word inside divides (ih (by omega) next (Nat.mul_self_lt_mul_self next))
  | case2 d past => exact .past word (Nat.not_le.mp past)

theorem tests_of_lt (even_root : root % 2 = 0) (large_root : 4 ≤ root)
    (small : n < (root - 1) * (root - 1)) : Tests root n (isPrime n) := by
  unfold isPrime
  split
  · next small => exact .small small
  · next large =>
    split
    · next even => exact .even (Nat.not_lt.mp large) even
    · next odd =>
      exact .odd (Nat.not_lt.mp large) odd (tries_of_lt even_root small rfl (by omega))

theorem Tests.lt (tests : Tests root n true) (large_root : 4 ≤ root) :
    n < (root - 1) * (root - 1) := by
  generalize answer : true = result at tests
  cases tests with
  | small => contradiction
  | even _ _ =>
      obtain rfl : n = 2 := of_decide_eq_true answer.symm
      have square : 3 * 3 ≤ (root - 1) * (root - 1) := Nat.mul_self_le_mul_self (by omega)
      omega
  | @odd found _ _ tries =>
      cases found with
      | false => exact tries.lt
      | true => contradiction

theorem Searches.isLeast (searches : Searches root n p) : IsLeast {p | Nat.Prime p ∧ n ≤ p} p := by
  induction searches with
  | here tests =>
      exact ⟨⟨(isPrime_iff _).mp tests.eq.symm, Nat.le_refl _⟩, fun q member => member.2⟩
  | onward tests _ _ ih =>
      obtain ⟨⟨prime, reached⟩, smallest⟩ := ih
      have composite := isPrime_eq_false_iff.mp tests.eq.symm
      refine ⟨⟨prime, Nat.le_of_succ_le reached⟩, fun q ⟨prime, least⟩ => smallest ⟨prime, ?_⟩⟩
      exact Nat.lt_of_le_of_ne least fun same => composite (same ▸ prime)

theorem Searches.lt (searches : Searches root n p) (large_root : 4 ≤ root) :
    p < (root - 1) * (root - 1) := by
  induction searches with
  | here tests => exact tests.lt large_root
  | onward _ _ _ ih => exact ih

theorem searches_of_isLeast (even_root : root % 2 = 0) (large_root : 4 ≤ root)
    (least : IsLeast {p | Nat.Prime p ∧ n ≤ p} p) (small : p < (root - 1) * (root - 1)) :
    Searches root n p := by
  -- the induction is on the numbers up to the prime, all of which are tested
  generalize distance : p - n = steps
  induction steps generalizing n with
  | zero =>
      obtain ⟨⟨prime, reached⟩, _⟩ := least
      obtain rfl : n = p := by omega
      exact .here ((isPrime_iff n).mpr prime ▸ tests_of_lt even_root large_root small)
  | succ steps ih =>
      obtain ⟨⟨prime, reached⟩, smallest⟩ := least
      have composite : isPrime n = false := isPrime_eq_false_iff.mpr fun prime => by
        have below : p ≤ n := smallest ⟨prime, Nat.le_refl n⟩
        omega
      have tests : Tests root n false :=
        composite ▸ tests_of_lt even_root large_root (by omega)
      have word : (root - 1) * (root - 1) ≤ root * root :=
        Nat.mul_self_le_mul_self (Nat.sub_le root 1)
      have later : IsLeast {p | Nat.Prime p ∧ n + 1 ≤ p} p :=
        ⟨⟨prime, by omega⟩, fun q member => smallest ⟨member.1, Nat.le_of_succ_le member.2⟩⟩
      exact .onward tests (by omega) (ih later (by omega))

/-- The search on words ends where the search on all numbers does, as long as the squares of the
divisors up to there are words. -/
theorem searches_iff (even_root : root % 2 = 0) (large_root : 4 ≤ root) :
    Searches root n p ↔ p = leastFrom n ∧ p < (root - 1) * (root - 1) := by
  constructor
  · intro searches
    exact ⟨searches.isLeast.unique (isLeast_leastFrom n), searches.lt large_root⟩
  · rintro ⟨rfl, small⟩
    exact searches_of_isLeast even_root large_root (isLeast_leastFrom n) small

end

end Prime

namespace LockTable

/-- A table has as many locks as the least prime from the requested size, or two, on. The search on
words ends there, unless the prime is so large that the square of a divisor is no word. The test of
a number runs through below the same bound, and it accepts the primes and nothing else. -/
theorem shards_least_prime (size : Nat) {root : Nat} (even_root : root % 2 = 0)
    (large_root : 4 ≤ root) :
    IsLeast {p | Nat.Prime p ∧ max size 2 ≤ p} (create size).shards
      ∧ (∀ p, Prime.Searches root (max size 2) p
        ↔ p = (create size).shards ∧ p < (root - 1) * (root - 1))
      ∧ (∀ n < (root - 1) * (root - 1), Prime.Tests root n (Prime.isPrime n))
      ∧ (∀ n answer, Prime.Tests root n answer → (answer = true ↔ Nat.Prime n))
      ∧ ∀ n, Prime.isPrime n = true ↔ Nat.Prime n := by
  refine ⟨Prime.isLeast_leastFrom _, fun p => Prime.searches_iff even_root large_root,
    fun n small => Prime.tests_of_lt even_root large_root small, ?_, Prime.isPrime_iff⟩
  intro n answer tests
  rw [tests.eq, Prime.isPrime_iff]

/-- Words of 64 bits, and the size behind the default number of locks. -/
theorem shards_least_prime_default :
    (create 4096).shards = defaultShards ∧ Nat.Prime defaultShards
      ∧ Prime.Searches 4294967296 4096 defaultShards := by
  have shards : (create 4096).shards = defaultShards := by decide +kernel
  obtain ⟨least, searches, _⟩ :=
    @shards_least_prime 4096 4294967296 (by decide) (by decide)
  exact ⟨shards, shards ▸ least.1.1, (searches _).mpr ⟨shards.symm, by decide⟩⟩

end LockTable

end OrderedStore
