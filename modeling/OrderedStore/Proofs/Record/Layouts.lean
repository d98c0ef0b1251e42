import Mathlib.Data.Nat.Bitwise
import OrderedStore.Proofs.Bytes.Varints
import OrderedStore.Proofs.Record.Iteration

/-! # The layout of records as a bijection

A run is written into a buffer record by record, each live first and then marked, and read back as
it was. Whatever bytes are read, what is found is what a run is written as, up to the first place
where no record starts. A record is written over its own bytes only, and a mark changes a single
bit.
-/

namespace OrderedStore

namespace Bytes

variable {buf new : Bytes} {offset : Nat}

theorem getElem?_overwrite_of_apart (room : offset + new.length ≤ buf.length) {i : Nat}
    (apart : i < offset ∨ offset + new.length ≤ i) : (buf.overwrite offset new)[i]? = buf[i]? := by
  have front : (buf.take offset).length = offset := List.length_take_of_le (by omega)
  rw [overwrite]
  rcases apart with before | behind
  · rw [List.append_assoc, List.getElem?_append_left (by omega), List.getElem?_take_of_lt before]
  · have passed : (buf.take offset ++ new).length = offset + new.length := by
      rw [List.length_append, front]
    rw [List.getElem?_append_right (by omega), List.getElem?_drop, passed,
      Nat.add_sub_cancel' behind]

theorem take_drop_overwrite (room : offset + new.length ≤ buf.length) :
    ((buf.overwrite offset new).drop offset).take new.length = new := by
  have front : (buf.take offset).length = offset := List.length_take_of_le (by omega)
  rw [overwrite, List.append_assoc, List.drop_left' front, List.take_left]

/-- Bit `k` of the byte at `i`. -/
def bitAt (buf : Bytes) (i k : Nat) : Option Bool := buf[i]?.map (·.toNat.testBit k)

end Bytes

namespace Record

/-- A run written from `offset` on: each record as a live one, which is then marked as it should be.
-/
def writeRun (buf : Bytes) (offset : Nat) : Run → Bytes
  | [] => buf
  | r :: run => writeRun (markAt (writeAt buf offset r.key r.value) offset r.deleted)
    (offset + r.size) run

theorem markAt_writeAt {buf : Bytes} {offset : Nat} {r : Record} (described : r.Describable)
    (room : offset + r.size ≤ buf.length) :
    markAt (writeAt buf offset r.key r.value) offset r.deleted = buf.overwrite offset r.encode := by
  have front : (buf.take offset).length = offset := List.length_take_of_le (by omega)
  have live_described : (live r.key r.value).Describable := ⟨described.key, described.value⟩
  have marked := live_described.markAt_append r.deleted (buf.take offset)
    (buf.drop (offset + (live r.key r.value).encode.length))
  rw [front] at marked
  rw [writeAt, Bytes.overwrite, Bytes.overwrite, List.append_assoc, List.append_assoc, marked,
    length_encode, length_encode]
  rfl

theorem writeRun_eq {buf : Bytes} {offset : Nat} {run : Run} (described : ∀ r ∈ run, r.Describable)
    (room : offset + run.size ≤ buf.length) :
    writeRun buf offset run = buf.overwrite offset run.encode := by
  induction run generalizing buf offset with
  | nil => exact (Bytes.overwrite_nil buf offset).symm
  | cons r run ih =>
      obtain ⟨here, later⟩ := List.forall_mem_cons.mp described
      rw [Run.size_cons] at room
      have room_here : offset + r.encode.length ≤ buf.length := by
        rw [length_encode]
        omega
      have room_later : offset + r.size + Run.size run
          ≤ (buf.overwrite offset r.encode).length := by
        rw [Bytes.length_overwrite room_here]
        omega
      rw [writeRun, markAt_writeAt here (by omega), ih later room_later, Run.encode_cons,
        ← Bytes.overwrite_overwrite_right room_here, length_encode]

theorem take_drop_writeRun {buf : Bytes} {offset : Nat} {run : Run}
    (described : ∀ r ∈ run, r.Describable) (room : offset + run.size ≤ buf.length) :
    ((writeRun buf offset run).drop offset).take run.size = run.encode := by
  rw [writeRun_eq described room, ← Run.length_encode]
  rw [← Run.length_encode] at room
  exact Bytes.take_drop_overwrite room

theorem testBit_of_byte {n k : Nat} (small : n < 256) (far : 7 < k) : n.testBit k = false := by
  apply Nat.testBit_lt_two_pow
  calc n < 2 ^ 8 := small
    _ ≤ 2 ^ k := Nat.pow_le_pow_right (by decide) far

/-- The mark is the high bit of its byte, and the other bits are those of the length. -/
theorem testBit_mark {high : Nat} (small : high < 256) (mark : Bool) (k : Nat) :
    (high % 128 + if mark then 128 else 0).testBit k = if k = 7 then mark else high.testBit k := by
  have low_small : high % 2 ^ 7 < 2 ^ 7 := Nat.mod_lt _ (by decide)
  have low_bit : (high % 2 ^ 7).testBit k = (decide (k < 7) && high.testBit k) :=
    Nat.testBit_mod_two_pow high 7 k
  rcases Nat.lt_trichotomy k 7 with below | rfl | above
  · rw [if_neg (Nat.ne_of_lt below)]
    rw [decide_eq_true below, Bool.true_and] at low_bit
    cases mark with
    | false => exact low_bit
    | true =>
        have shifted : (2 ^ 7 + high % 2 ^ 7).testBit k = (high % 2 ^ 7).testBit k :=
          Nat.testBit_two_pow_add_gt below _
        rw [← low_bit, ← shifted, Nat.add_comm]
        rfl
  · rw [if_pos rfl]
    cases mark with
    | false => exact low_bit
    | true =>
        have set : (2 ^ 7 + high % 2 ^ 7).testBit 7 = !(high % 2 ^ 7).testBit 7 :=
          Nat.testBit_two_pow_add_eq _ 7
        rw [low_bit, decide_eq_false (Nat.lt_irrefl 7), Bool.false_and, Nat.add_comm] at set
        exact set
  · rw [if_neg (Nat.ne_of_gt above), testBit_of_byte small above]
    apply testBit_of_byte _ above
    split <;> omega

theorem markAt_append_word (low high : Bytes) (a b : UInt8) (mark : Bool) :
    markAt (low ++ ([a, b] ++ high)) low.length mark
      = low ++ ([a, Bytes.low (b.toNat % 128 + if mark then 128 else 0)] ++ high) := by
  have a_small := a.toNat_lt
  have word : Bytes.ofU16 (Bytes.toU16 ([a, b] ++ high) % tombstone + if mark then tombstone else 0)
      = [a, Bytes.low (b.toNat % 128 + if mark then 128 else 0)] := by
    rw [Bytes.ofU16, List.cons.injEq, List.cons.injEq]
    simp only [Bytes.low, ← UInt8.toNat_inj, UInt8.toNat_ofNat', List.cons_append, Bytes.toU16,
      tombstone, and_true]
    cases mark with
    | false =>
        simp only [Bool.false_eq_true, if_false]
        omega
    | true =>
        simp only [if_true]
        omega
  rw [markAt, List.drop_left, word]
  exact Bytes.overwrite_append low high rfl

theorem bitAt_markAt {buf : Bytes} {offset : Nat} (room : offset + 2 ≤ buf.length) (mark : Bool)
    (i k : Nat) : (markAt buf offset mark).bitAt i k
      = if i = offset + 1 ∧ k = 7 then some mark else buf.bitAt i k := by
  have front : (buf.take offset).length = offset := List.length_take_of_le (by omega)
  obtain ⟨a, b, high, parts⟩ : ∃ a b high, buf.drop offset = [a, b] ++ high :=
    ⟨buf[offset], buf[offset + 1], buf.drop (offset + 2), by
      rw [List.drop_eq_getElem_cons (by omega), List.drop_eq_getElem_cons (by omega)]
      rfl⟩
  have whole : buf = buf.take offset ++ ([a, b] ++ high) := by rw [← parts, List.take_append_drop]
  generalize buf.take offset = low at front whole
  subst whole front
  have changed : low ++ ([a, Bytes.low (b.toNat % 128 + if mark then 128 else 0)] ++ high)
      = (low ++ ([a, b] ++ high)).set (low.length + 1)
        (Bytes.low (b.toNat % 128 + if mark then 128 else 0)) := by
    rw [List.set_append_right _ _ (Nat.le_add_right _ 1), Nat.add_sub_cancel_left]
    rfl
  rw [markAt_append_word, changed, Bytes.bitAt, Bytes.bitAt, List.getElem?_set]
  by_cases here : i = low.length + 1
  · subst here
    have inside : low.length + 1 < (low ++ ([a, b] ++ high)).length := room
    have old : (low ++ ([a, b] ++ high))[low.length + 1]? = some b := by
      rw [List.getElem?_append_right (Nat.le_add_right _ 1), Nat.add_sub_cancel_left]
      rfl
    have small : b.toNat % 128 + (if mark = true then 128 else 0) < 256 := by
      split <;> omega
    rw [if_pos rfl, if_pos inside, old, Option.map_some, Option.map_some, Varint.toNat_low small,
      testBit_mark b.toNat_lt]
    by_cases high_bit : k = 7
    · rw [if_pos high_bit, if_pos ⟨rfl, high_bit⟩]
    · rw [if_neg high_bit, if_neg fun both => high_bit both.2]
  · rw [if_neg (Ne.symm here), if_neg fun both => here both.1]

/-- Reading `data` gives `found` and then the fault, if there is one; a walk gives the same, one
after the other and nothing behind them, and stays within the bytes. -/
structure Iterates (data : Bytes) (found : List Placed) (fault : Option Corruption) : Prop where
  read : readRun 0 data = (found, fault)
  walked : ∀ n, (Walk.start data).answers n
    = .ok ((List.range n).map fun k => (rows (found, fault))[k]?)

theorem iterates_of_readRun {data : Bytes} {found : List Placed} {fault : Option Corruption}
    (read : readRun 0 data = (found, fault)) : Iterates data found fault := by
  refine ⟨read, fun n => ?_⟩
  rw [← read]
  exact Walk.answers_eq data 0 n

/-- A run that can be described is read back from where it was written, and any bytes are read as
the longest run that they start with. Writing a record changes its own bytes only, and marking one
changes the mark only. -/
theorem layout_bijective (buf : Bytes) :
    (∀ (run : Run) (offset : Nat), (∀ r ∈ run, r.Describable) → offset + run.size ≤ buf.length →
      Iterates (((writeRun buf offset run).drop offset).take run.size) (Run.place 0 run) none)
    ∧ (∃ run fault, Iterates buf (Run.place 0 run) fault ∧ Recovers buf run fault)
    ∧ (∀ (offset : Nat) (key value : Bytes), offset + (live key value).size ≤ buf.length →
      ∀ i, i < offset ∨ offset + (live key value).size ≤ i →
        (writeAt buf offset key value)[i]? = buf[i]?)
    ∧ ∀ (offset : Nat) (mark : Bool), offset + 2 ≤ buf.length → ∀ i k,
      (markAt buf offset mark).bitAt i k
        = if i = offset + 1 ∧ k = 7 then some mark else buf.bitAt i k := by
  refine ⟨?_, ?_, ?_, ?_⟩
  · intro run offset described room
    rw [take_drop_writeRun described room]
    exact iterates_of_readRun (Run.readRun_encode described 0)
  · obtain ⟨run, fault, read, recovers⟩ := exists_readRun_eq 0 buf
    exact ⟨run, fault, iterates_of_readRun read, recovers⟩
  · intro offset key value room i apart
    rw [← length_encode] at room apart
    exact Bytes.getElem?_overwrite_of_apart room apart
  · intro offset mark room i k
    exact bitAt_markAt room mark i k

/-- A tombstone and a record without a value. -/
def pair : Run := [⟨[97], [1], true⟩, ⟨[98, 99], [], false⟩]

/-- The two are written behind the first two bytes of a buffer that has room for more. -/
theorem layout_bijective_pair : (∀ r ∈ pair, r.Describable)
    ∧ 2 + pair.size ≤ (Bytes.zeros 16).length
    ∧ Iterates (((writeRun (Bytes.zeros 16) 2 pair).drop 2).take 12)
      [⟨0, [97], [1], true⟩, ⟨6, [98, 99], [], false⟩] none
    ∧ (markAt (Bytes.zeros 16) 2 true).bitAt 3 7 = some true := by
  obtain ⟨written, _, _, marked⟩ := layout_bijective (Bytes.zeros 16)
  have described : ∀ r ∈ pair, r.Describable := by decide
  exact ⟨described, by decide, written pair 2 described (by decide), marked 2 true (by decide) 3 7⟩

end Record

end OrderedStore
