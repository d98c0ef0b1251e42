import OrderedStore.Proofs.Bytes.Access
import OrderedStore.Proofs.Record.Recovery

/-! # Walking over records

A walk reads the records in some bytes one at each call. It gives all that the bytes hold, then the
fault that ends them, if there is one, then nothing any more, and it never reaches past the end of
its bytes.
-/

namespace OrderedStore.Record

/-- `headerAt`, told with guarded reads. -/
def guardedHeader (data : Bytes) (offset : Nat) : Except Halt Header :=
  if data.length < offset + headerSize then .error (.corrupt .headerPastEnd)
  else do
    let raw ← data.wordAt offset
    let valueLength ← data.wordAt (offset + 2)
    let header : Header := ⟨raw % tombstone, valueLength, tombstone ≤ raw⟩
    if header.keyLength = 0 then .error (.corrupt .recordWithoutKey)
    else if data.length < offset + header.size then .error (.corrupt .recordPastEnd)
    else return header

/-- `readAt`, told with guarded reads. -/
def guardedRecord (data : Bytes) (offset : Nat) : Except Halt Placed := do
  let header ← guardedHeader data offset
  let keyStart := offset + headerSize
  let valueStart := keyStart + header.keyLength
  let key ← data.sliceAt keyStart valueStart
  let value ← data.sliceAt valueStart (valueStart + header.valueLength)
  return ⟨offset, key, value, header.deleted⟩

/-- A walk over the records in some bytes. -/
structure Walk where
  data : Bytes
  offset : Nat
  failed : Bool

namespace Walk

def start (data : Bytes) : Walk := ⟨data, 0, false⟩

/-- The next record or the fault in its place, if there is one, and the walk behind it. -/
def next (w : Walk) : Except Halt (Option (Except Corruption Placed) × Walk) :=
  if w.failed || w.data.length ≤ w.offset then .ok (none, w)
  else
    match guardedRecord w.data w.offset with
    | .ok row => .ok (some (.ok row), { w with offset := row.stop })
    | .error (.corrupt cause) => .ok (some (.error cause), { w with failed := true })
    | .error .outside => .error .outside

/-- What that many calls give. -/
def answers (w : Walk) : Nat → Except Halt (List (Option (Except Corruption Placed)))
  | 0 => .ok []
  | n + 1 => do
    let (row, w) ← w.next
    let rows ← w.answers n
    return row :: rows

end Walk

/-- The records that were read, and behind them the fault that ended them. -/
def rows (read : List Placed × Option Corruption) : List (Except Corruption Placed) :=
  read.1.map .ok ++ read.2.toList.map .error

theorem guardedHeader_eq (data : Bytes) (offset : Nat) :
    guardedHeader data offset = (headerAt data offset).mapError .corrupt := by
  have holds_eq (n : Nat) (pos : 0 < n) :
      Bytes.holds n (data.drop offset) = decide (offset + n ≤ data.length) := by
    rw [Bool.eq_iff_iff, Bytes.holds_iff, decide_eq_true_iff, List.length_drop]
    omega
  rw [guardedHeader, headerAt, readHeader, holds_eq headerSize (by decide)]
  by_cases header_there : offset + headerSize ≤ data.length
  · rw [if_neg (Nat.not_lt.mpr header_there), decide_eq_true header_there]
    rw [headerSize] at header_there
    rw [Bytes.wordAt_eq (by omega), Bytes.wordAt_eq (by omega), ← List.drop_drop]
    generalize header_eq : (⟨Bytes.toU16 (data.drop offset) % tombstone,
      Bytes.toU16 ((data.drop offset).drop 2),
      tombstone ≤ Bytes.toU16 (data.drop offset)⟩ : Header) = header
    simp only [bind, Except.bind, header_eq]
    by_cases unnamed : Bytes.toU16 (data.drop offset) % tombstone = 0
    · rw [if_pos unnamed, if_pos unnamed]
      rfl
    · have size_pos : 0 < header.size := by
        rw [Header.size, sizeOf, headerSize]
        omega
      rw [if_neg unnamed, if_neg unnamed, holds_eq header.size size_pos]
      by_cases record_there : offset + header.size ≤ data.length
      · rw [if_neg (Nat.not_lt.mpr record_there), decide_eq_true record_there]
        rfl
      · rw [if_pos (Nat.not_le.mp record_there), decide_eq_false record_there]
        rfl
  · rw [if_pos (Nat.not_le.mp header_there), decide_eq_false header_there]
    rfl

theorem guardedRecord_eq (data : Bytes) (offset : Nat) :
    guardedRecord data offset = (readAt data offset).mapError .corrupt := by
  rw [guardedRecord, guardedHeader_eq, readAt, read, headerAt]
  cases header : readHeader (data.drop offset) with
  | error cause => rfl
  | ok h =>
      obtain ⟨_, record_there, _, _⟩ := readHeader_eq_ok header
      rw [List.length_drop, Header.size, sizeOf] at record_there
      change Except.bind (data.sliceAt _ _) _ = _
      rw [Bytes.sliceAt_eq (by omega) (by omega)]
      change Except.bind (data.sliceAt _ _) _ = _
      rw [Bytes.sliceAt_eq (by omega) (by omega)]
      simp only [Nat.add_sub_cancel_left]
      simp only [List.drop_drop, Nat.add_assoc]
      rfl

namespace Walk

variable {data : Bytes} {offset : Nat}

theorem next_of_ended (ended : data.drop offset = []) :
    next ⟨data, offset, false⟩ = .ok (none, ⟨data, offset, false⟩) := by
  rw [next, decide_eq_true (List.drop_eq_nil_iff.mp ended)]
  rfl

theorem next_of_error {cause : Corruption} (filled : data.drop offset ≠ [])
    (failed : read (data.drop offset) = .error cause) :
    next ⟨data, offset, false⟩ = .ok (some (.error cause), ⟨data, offset, true⟩) := by
  have onward : ¬data.length ≤ offset := fun ended => filled (List.drop_eq_nil_of_le ended)
  rw [next, decide_eq_false onward, guardedRecord_eq, readAt, failed]
  rfl

theorem next_of_ok {r : Record} (found : read (data.drop offset) = .ok r) :
    next ⟨data, offset, false⟩
      = .ok (some (.ok ⟨offset, r⟩), ⟨data, offset + r.size, false⟩) := by
  have onward : ¬data.length ≤ offset := by
    intro ended
    rw [List.drop_eq_nil_of_le ended] at found
    contradiction
  rw [next, decide_eq_false onward, guardedRecord_eq, readAt, found]
  rfl

theorem answers_succ {w w' : Walk} {row : Option (Except Corruption Placed)} {n : Nat}
    {more : List (Option (Except Corruption Placed))} (first : w.next = .ok (row, w'))
    (rest : w'.answers n = .ok more) : w.answers (n + 1) = .ok (row :: more) := by
  rw [answers, first]
  simp only [bind, Except.bind, rest]
  rfl

theorem answers_of_failed (data : Bytes) (offset n : Nat) :
    answers ⟨data, offset, true⟩ n = .ok ((List.range n).map fun _ => none) := by
  induction n with
  | zero => rfl
  | succ n ih =>
      rw [List.range_succ_eq_map, List.map_cons, List.map_map]
      exact answers_succ rfl ih

/-- By induction on the calls: each takes the first of the records that are left. -/
theorem answers_eq (data : Bytes) (offset n : Nat) : answers ⟨data, offset, false⟩ n
    = .ok ((List.range n).map fun k => (rows (readRun offset (data.drop offset)))[k]?) := by
  induction n generalizing offset with
  | zero => rfl
  | succ n ih =>
      rw [List.range_succ_eq_map, List.map_cons, List.map_map]
      by_cases ended : data.drop offset = []
      · have rest := ih offset
        rw [ended, readRun_nil] at rest ⊢
        exact answers_succ (next_of_ended ended) rest
      · cases found : read (data.drop offset) with
        | error cause =>
            rw [readRun_of_error ended found]
            exact answers_succ (next_of_error ended found) (answers_of_failed data offset n)
        | ok r =>
            have rest := ih (offset + r.size)
            rw [readRun_of_ok found, List.drop_drop]
            exact answers_succ (next_of_ok found) rest

end Walk

end OrderedStore.Record
