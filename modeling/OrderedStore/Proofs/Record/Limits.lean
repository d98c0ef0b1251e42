import OrderedStore.Record

/-! # Keys and values within the limits

The header of a record bounds the lengths of its key and its value. A key or a value outside the
bounds is refused with the cause that names it, and everything else has a size.
-/

namespace OrderedStore.Record

/-- A key of one to `maxKey` bytes. -/
def KeyFits (key : Bytes) : Prop := key ≠ [] ∧ key.length ≤ maxKey

instance (key : Bytes) : Decidable (KeyFits key) := inferInstanceAs (Decidable (_ ∧ _))

/-- The layout can describe the record. -/
structure Describable (r : Record) : Prop where
  key : KeyFits r.key
  value : r.value.length ≤ maxValue

instance (r : Record) : Decidable r.Describable :=
  decidable_of_iff (KeyFits r.key ∧ r.value.length ≤ maxValue)
    ⟨fun ⟨key, value⟩ => ⟨key, value⟩, fun h => ⟨h.key, h.value⟩⟩

/-- What is wrong with a key that does not fit. -/
def keyFault (key : Bytes) : Misuse := if key = [] then .keyEmpty else .keyTooLong

theorem checkKey_of_fits {key : Bytes} (fits : KeyFits key) : checkKey key = .ok () := by
  obtain ⟨filled, short⟩ := fits
  have filled : key.isEmpty = false := by simpa using filled
  simp [checkKey, filled, Nat.not_lt.mpr short]

theorem checkKey_of_not_fits {key : Bytes} (out : ¬KeyFits key) :
    checkKey key = .error (keyFault key) := by
  by_cases empty : key = []
  · simp [checkKey, keyFault, empty]
  · have long : maxKey < key.length := by
      rw [KeyFits, not_and, Nat.not_le] at out
      exact out empty
    simp [checkKey, keyFault, empty, long]

theorem measure_of_fits {key value : Bytes} (fits : KeyFits key)
    (short : value.length ≤ maxValue) :
    measure key value = .ok (sizeOf key.length value.length) := by
  simp [measure, checkKey_of_fits fits, Nat.not_lt.mpr short, bind, Except.bind]

theorem measure_of_not_fits {key : Bytes} (out : ¬KeyFits key) (value : Bytes) :
    measure key value = .error (keyFault key) := by
  simp [measure, checkKey_of_not_fits out, bind, Except.bind]

theorem measure_of_long {key value : Bytes} (fits : KeyFits key)
    (long : maxValue < value.length) : measure key value = .error .valueTooLong := by
  simp [measure, checkKey_of_fits fits, long, bind, Except.bind]

theorem describable_of_measure {key value : Bytes} {size : Nat}
    (measured : measure key value = .ok size) :
    (live key value).Describable ∧ size = (live key value).size := by
  by_cases fits : KeyFits key
  · by_cases short : value.length ≤ maxValue
    · rw [measure_of_fits fits short, Except.ok.injEq] at measured
      exact ⟨⟨fits, short⟩, measured.symm⟩
    · rw [measure_of_long fits (Nat.not_le.mp short)] at measured
      contradiction
  · rw [measure_of_not_fits fits] at measured
    contradiction

theorem measure_of_describable {key value : Bytes} (h : (live key value).Describable) :
    measure key value = .ok (live key value).size := measure_of_fits h.key h.value

theorem check_of_le {key value : Bytes} {blockSize : Nat} (h : (live key value).Describable)
    (small : (live key value).size ≤ blockSize) :
    check key value blockSize = .ok (live key value).size := by
  simp [check, measure_of_describable h, small, bind, Except.bind]

theorem describable_of_check {key value : Bytes} {blockSize size : Nat}
    (checked : check key value blockSize = .ok size) :
    (live key value).Describable ∧ size = (live key value).size ∧ size ≤ blockSize := by
  cases measured : measure key value with
  | error cause => simp [check, measured, bind, Except.bind] at checked
  | ok n =>
      obtain ⟨describable, eq⟩ := describable_of_measure measured
      by_cases small : n ≤ blockSize
      · simp only [check, measured, bind, Except.bind, small, if_true, Except.ok.injEq] at checked
        subst checked
        exact ⟨describable, eq, small⟩
      · simp [check, measured, bind, Except.bind, small] at checked

end OrderedStore.Record
