import OrderedStore.Operation.Counter

/-! # Decimal texts

A text denotes a number by an optional sign and digits, and of all texts that denote it one is
canonical: it has no plus sign, no zeros in front, and a minus sign exactly for what is below zero.
Writing gives the canonical text, and reading accepts every text of a number that is in range.
-/

namespace OrderedStore.Counter

/-- One digit or more, and nothing else. -/
structure Digits (text : Bytes) : Prop where
  filled : text ≠ []
  each : ∀ b ∈ text, 48 ≤ b.toNat ∧ b.toNat ≤ 57

/-- The number that digits spell behind `high`. -/
def valueFrom (high : Nat) (text : Bytes) : Nat :=
  text.foldl (fun n b => 10 * n + (b.toNat - 48)) high

def value (text : Bytes) : Nat := valueFrom 0 text

/-- The text is an optional sign and digits that spell the number. -/
inductive Denotes : Bytes → Int → Prop where
  | bare {text : Bytes} : Digits text → Denotes text (value text)
  | plus {text : Bytes} : Digits text → Denotes (43 :: text) (value text)
  | minus {text : Bytes} : Digits text → Denotes (45 :: text) (-(value text : Int))

/-- The text has no plus sign and no zero that could be left out, and zero has no sign. -/
inductive Canonical : Bytes → Int → Prop where
  | natural {text : Bytes} : Digits text → (text.head? = some 48 → text = [48]) →
      Canonical text (value text)
  | negative {text : Bytes} : Digits text → text.head? ≠ some 48 →
      Canonical (45 :: text) (-(value text : Int))

theorem inRange_iff {n : Int} :
    inRange n = true ↔ -9223372036854775808 ≤ n ∧ n < 9223372036854775808 := by
  rw [inRange, Bool.and_eq_true, decide_eq_true_eq, decide_eq_true_eq]

theorem toNat_digit {d : Nat} (small : d < 10) : (digit d).toNat = 48 + d := by
  rw [digit, UInt8.toNat_ofNat']
  exact Nat.mod_eq_of_lt (by omega)

theorem digitValue?_of_digit {b : UInt8} (is_digit : 48 ≤ b.toNat ∧ b.toNat ≤ 57) :
    digitValue? b = some (b.toNat - 48) := if_pos is_digit

section

variable {text : Bytes}

theorem value_concat (text : Bytes) (b : UInt8) :
    value (text ++ [b]) = 10 * value text + (b.toNat - 48) := by
  rw [value, valueFrom, List.foldl_append]
  rfl

/-- What digits spell does not depend on how far out of range it is. -/
theorem spelled?_of_digits (each : ∀ b ∈ text, 48 ≤ b.toNat ∧ b.toNat ≤ 57) (high : Nat) :
    spelled? (min outgrown high) text = some (min outgrown (valueFrom high text)) := by
  induction text generalizing high with
  | nil => rfl
  | cons b text ih =>
      obtain ⟨is_digit, each⟩ := List.forall_mem_cons.mp each
      have capped : min outgrown (10 * min outgrown high + (b.toNat - 48))
          = min outgrown (10 * high + (b.toNat - 48)) := by
        rw [outgrown]
        omega
      rw [spelled?, digitValue?_of_digit is_digit]
      dsimp only
      rw [capped, ih each]
      rfl

theorem digits_of_spelled? {high n : Nat} (spelled : spelled? high text = some n) :
    ∀ b ∈ text, 48 ≤ b.toNat ∧ b.toNat ≤ 57 := by
  induction text generalizing high with
  | nil => exact List.forall_mem_nil _
  | cons b text ih =>
      by_cases is_digit : 48 ≤ b.toNat ∧ b.toNat ≤ 57
      · rw [spelled?, digitValue?_of_digit is_digit] at spelled
        exact List.forall_mem_cons.mpr ⟨is_digit, ih spelled⟩
      · have no_digit : digitValue? b = none := if_neg is_digit
        rw [spelled?, no_digit] at spelled
        contradiction

theorem magnitude?_eq_some_iff {n : Nat} :
    magnitude? text = some n ↔ Digits text ∧ n = min outgrown (value text) := by
  rw [magnitude?]
  constructor
  · intro spelled
    split at spelled
    · contradiction
    · rename_i filled
      have each := digits_of_spelled? spelled
      have found := spelled?_of_digits each 0
      rw [Nat.min_eq_right (Nat.zero_le _), spelled] at found
      exact ⟨⟨fun empty => filled (List.isEmpty_iff.mpr empty), each⟩, Option.some.inj found⟩
  · rintro ⟨⟨filled, each⟩, rfl⟩
    rw [if_neg fun empty => filled (List.isEmpty_iff.mp empty)]
    exact spelled?_of_digits each 0

theorem inRange_capped (v : Nat) (n : Int) :
    (((min outgrown v : Nat) : Int) = n ∧ inRange n = true ↔ (v : Int) = n ∧ inRange n = true)
      ∧ (-((min outgrown v : Nat) : Int) = n ∧ inRange n = true
        ↔ -(v : Int) = n ∧ inRange n = true) := by
  rw [inRange_iff, outgrown]
  omega

theorem filter_magnitude?_eq_some_iff {sign : Nat → Int} {n : Int}
    (capped : ∀ v, sign (min outgrown v) = n ∧ inRange n = true ↔ sign v = n ∧ inRange n = true) :
    ((magnitude? text).map sign).filter inRange = some n
      ↔ Digits text ∧ sign (value text) = n ∧ inRange n = true := by
  rw [Option.filter_eq_some_iff, Option.map_eq_some_iff]
  constructor
  · rintro ⟨⟨_, spelled, same⟩, inside⟩
    obtain ⟨digits, rfl⟩ := magnitude?_eq_some_iff.mp spelled
    exact ⟨digits, (capped _).mp ⟨same, inside⟩⟩
  · rintro ⟨digits, number⟩
    obtain ⟨same, inside⟩ := (capped _).mpr number
    exact ⟨⟨_, magnitude?_eq_some_iff.mpr ⟨digits, rfl⟩, same⟩, inside⟩

theorem decode_minus_eq_some_iff {n : Int} :
    decode (45 :: text) = some n ↔ Digits text ∧ -(value text : Int) = n ∧ inRange n = true := by
  have read : decode (45 :: text) = ((magnitude? text).map fun m => -(Int.ofNat m)).filter inRange := by
    rw [decode]
    cases magnitude? text <;> rfl
  rw [read]
  exact filter_magnitude?_eq_some_iff fun v => (inRange_capped v n).2

theorem decode_plus_eq_some_iff {n : Int} :
    decode (43 :: text) = some n ↔ Digits text ∧ (value text : Int) = n ∧ inRange n = true := by
  have read : decode (43 :: text) = ((magnitude? text).map Int.ofNat).filter inRange := by
    rw [decode]
    cases magnitude? text <;> rfl
  rw [read]
  exact filter_magnitude?_eq_some_iff fun v => (inRange_capped v n).1

theorem decode_bare_eq_some_iff {n : Int} (no_minus : text.head? ≠ some 45)
    (no_plus : text.head? ≠ some 43) :
    decode text = some n ↔ Digits text ∧ (value text : Int) = n ∧ inRange n = true := by
  have read : decode text = ((magnitude? text).map Int.ofNat).filter inRange := by
    have bare : decode text = (do let m ← magnitude? text; pure (Int.ofNat m)).filter inRange := by
      cases text with
      | nil => rfl
      | cons b text =>
          have minus : b ≠ 45 := fun same => no_minus (congrArg some same)
          have plus : b ≠ 43 := fun same => no_plus (congrArg some same)
          simp [decode, minus, plus]
    rw [bare]
    cases magnitude? text <;> rfl
  rw [read]
  exact filter_magnitude?_eq_some_iff fun v => (inRange_capped v n).1

theorem Digits.head?_ne (digits : Digits text) {b : UInt8} (sign : b.toNat < 48) :
    text.head? ≠ some b := by
  intro first
  obtain ⟨least, _⟩ := digits.each b (List.mem_of_head? first)
  omega

theorem decode_eq_some_iff {n : Int} : decode text = some n ↔ Denotes text n ∧ inRange n = true := by
  constructor
  · intro read
    by_cases no_minus : text.head? = some 45
    · obtain ⟨text, rfl⟩ := List.head?_eq_some_iff.mp no_minus
      obtain ⟨digits, rfl, inside⟩ := decode_minus_eq_some_iff.mp read
      exact ⟨.minus digits, inside⟩
    by_cases no_plus : text.head? = some 43
    · obtain ⟨text, rfl⟩ := List.head?_eq_some_iff.mp no_plus
      obtain ⟨digits, rfl, inside⟩ := decode_plus_eq_some_iff.mp read
      exact ⟨.plus digits, inside⟩
    obtain ⟨digits, rfl, inside⟩ := (decode_bare_eq_some_iff no_minus no_plus).mp read
    exact ⟨.bare digits, inside⟩
  · rintro ⟨denotes, inside⟩
    cases denotes with
    | bare digits =>
        have no_minus : text.head? ≠ some 45 := digits.head?_ne (by decide)
        have no_plus : text.head? ≠ some 43 := digits.head?_ne (by decide)
        exact (decode_bare_eq_some_iff no_minus no_plus).mpr ⟨digits, rfl, inside⟩
    | plus digits => exact decode_plus_eq_some_iff.mpr ⟨digits, rfl, inside⟩
    | minus digits => exact decode_minus_eq_some_iff.mpr ⟨digits, rfl, inside⟩

end

theorem digits_of_lt {n : Nat} (small : n < 10) : digits n = [digit n] := by
  rw [digits, if_pos small]

theorem digits_zero : digits 0 = [48] := digits_of_lt (by decide)

theorem digits_of_ge {n : Nat} (large : 10 ≤ n) : digits n = digits (n / 10) ++ [digit (n % 10)] := by
  rw [digits, if_neg (Nat.not_lt.mpr large)]

theorem Digits.single {d : Nat} (small : d < 10) : Digits [digit d] := by
  refine ⟨List.cons_ne_nil _ _, List.forall_mem_singleton.mpr ?_⟩
  rw [toNat_digit small]
  omega

theorem Digits.concat {text : Bytes} (front : Digits text) {d : Nat} (small : d < 10) :
    Digits (text ++ [digit d]) :=
  ⟨List.append_ne_nil_of_left_ne_nil front.filled _,
    List.forall_mem_append.mpr ⟨front.each, (Digits.single small).each⟩⟩

theorem digits_digits (n : Nat) : Digits (digits n) := by
  fun_induction digits n with
  | case1 n small => exact .single small
  | case2 n _ front => exact front.concat (Nat.mod_lt _ (by decide))

theorem value_digits (n : Nat) : value (digits n) = n := by
  fun_induction digits n with
  | case1 n small =>
      have spelled : value [digit n] = 10 * 0 + ((digit n).toNat - 48) := rfl
      rw [spelled, toNat_digit small]
      omega
  | case2 n _ front =>
      rw [value_concat, front, toNat_digit (Nat.mod_lt _ (by decide))]
      omega

theorem length_digits_le {n places : Nat} (small : n < Nat.pow 10 (places + 1)) :
    (digits n).length ≤ places + 1 := by
  induction places generalizing n with
  | zero =>
      rw [digits_of_lt small]
      exact Nat.le_refl 1
  | succ places ih =>
      by_cases single : n < 10
      · rw [digits_of_lt single, List.length_singleton]
        omega
      · have step : Nat.pow 10 (places + 1 + 1) = Nat.pow 10 (places + 1) * 10 := rfl
        have fewer := ih (n := n / 10) (by omega)
        rw [digits_of_ge (Nat.not_lt.mp single), List.length_append, List.length_singleton]
        omega

theorem head?_concat {text : Bytes} (filled : text ≠ []) (b : UInt8) :
    (text ++ [b]).head? = text.head? := by
  cases text with
  | nil => contradiction
  | cons => rfl

theorem head?_digits {n : Nat} (pos : 0 < n) : (digits n).head? ≠ some 48 := by
  fun_induction digits n with
  | case1 n small =>
      intro zero
      have first := congrArg UInt8.toNat (Option.some.inj zero)
      rw [toNat_digit small] at first
      exact Nat.ne_of_gt (Nat.lt_add_of_pos_right pos) first
  | case2 n large front =>
      rw [head?_concat (digits_digits (n / 10)).filled]
      exact front (by omega)

theorem value_ne_zero {text : Bytes} (spelled : digits (value text) = text)
    (no_zero : text.head? ≠ some 48) : value text ≠ 0 := by
  intro nothing
  rw [nothing, digits_zero] at spelled
  exact no_zero (congrArg List.head? spelled.symm)

/-- Digits with no zero in front are those of the number that they spell. -/
theorem digits_value {text : Bytes} (all : Digits text)
    (plain : text.head? = some 48 → text = [48]) : digits (value text) = text := by
  rcases List.eq_nil_or_concat text with rfl | ⟨front, b, rfl⟩
  · exact absurd rfl all.filled
  rw [List.concat_eq_append] at all plain ⊢
  obtain ⟨each, last⟩ := List.forall_mem_append.mp all.each
  have is_digit := List.forall_mem_singleton.mp last
  have small : b.toNat - 48 < 10 := by omega
  have back : digit (b.toNat - 48) = b := by
    rw [← UInt8.toNat_inj, toNat_digit small]
    omega
  by_cases empty : front = []
  · subst empty
    have spelled : value ([] ++ [b]) = b.toNat - 48 := Nat.zero_add _
    rw [spelled, digits_of_lt small, back]
    rfl
  · -- the digits in front do not start with a zero, so that they spell at least one
    have no_zero : front.head? ≠ some 48 := by
      intro zero
      have whole := congrArg List.length (plain ((head?_concat empty b).trans zero))
      rw [List.length_append] at whole
      exact empty (List.length_eq_zero_iff.mp (Nat.succ.inj whole))
    have ih := digits_value ⟨empty, each⟩ fun zero => absurd zero no_zero
    have pos := value_ne_zero ih no_zero
    rw [value_concat, digits_of_ge (by omega)]
    have high : (10 * value front + (b.toNat - 48)) / 10 = value front := by omega
    have low : (10 * value front + (b.toNat - 48)) % 10 = b.toNat - 48 := by omega
    rw [high, low, ih, back]
termination_by text.length

theorem encode_eq_digits (n : Nat) : encode n = digits n := by
  rw [encode, if_neg (by omega)]
  rfl

/-- What is written is canonical. -/
theorem canonical_encode (n : Int) : Canonical (encode n) n := by
  rw [encode]
  split
  · rename_i below
    have pos : 0 < n.natAbs := by omega
    have spelled : -(value (digits n.natAbs) : Int) = n := by
      rw [value_digits]
      omega
    have canonical := Canonical.negative (digits_digits n.natAbs) (head?_digits pos)
    rwa [spelled] at canonical
  · have spelled : (value (digits n.natAbs) : Int) = n := by
      rw [value_digits]
      omega
    have plain : (digits n.natAbs).head? = some 48 → digits n.natAbs = [48] := by
      intro zero
      by_cases pos : 0 < n.natAbs
      · exact absurd zero (head?_digits pos)
      · rw [Nat.eq_zero_of_not_pos pos, digits_zero]
    have canonical := Canonical.natural (digits_digits n.natAbs) plain
    rwa [spelled] at canonical

namespace Canonical

variable {text : Bytes} {n : Int}

theorem denotes (canonical : Canonical text n) : Denotes text n := by
  cases canonical with
  | natural digits _ => exact .bare digits
  | negative digits _ => exact .minus digits

theorem eq_encode (canonical : Canonical text n) : text = encode n := by
  cases canonical with
  | natural digits plain => rw [encode_eq_digits, digits_value digits plain]
  | @negative text digits no_zero =>
      have spelled := digits_value digits fun zero => absurd zero no_zero
      have pos := value_ne_zero spelled no_zero
      have below : -(value text : Int) < 0 := by omega
      rw [encode, if_pos below, Int.natAbs_neg, Int.natAbs_natCast, spelled]

end Canonical

theorem length_encode_le {n : Int} (inside : inRange n = true) : (encode n).length ≤ 20 := by
  have bounds := inRange_iff.mp inside
  have few : (digits n.natAbs).length ≤ 19 := by
    have power : Nat.pow 10 (18 + 1) = 10000000000000000000 := by decide
    exact length_digits_le (by omega)
  rw [encode]
  split
  · exact Nat.succ_le_succ few
  · exact Nat.le_succ_of_le few

theorem decode_encode {n : Int} (inside : inRange n = true) : decode (encode n) = some n :=
  decode_eq_some_iff.mpr ⟨(canonical_encode n).denotes, inside⟩

end OrderedStore.Counter
