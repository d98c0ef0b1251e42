import OrderedStore.Proofs.Run.Regions

/-! # What any bytes hold

Bytes from anywhere are read as records up to a fault, or to their end. The records that are read
are those that were written, if any were: writing them again gives the bytes that they were read
from, and no other run of records, nor a longer one, starts the same bytes.
-/

namespace OrderedStore

namespace Record

theorem readHeader_eq_ok {src : Bytes} {h : Header} (found : readHeader src = .ok h) :
    headerSize ≤ src.length ∧ h.size ≤ src.length ∧ h.keyLength ≠ 0
      ∧ h = ⟨Bytes.toU16 src % tombstone, Bytes.toU16 (src.drop 2),
        tombstone ≤ Bytes.toU16 src⟩ := by
  rw [readHeader] at found
  split at found
  · contradiction
  · rename_i header_there
    dsimp only at found
    split at found
    · contradiction
    · rename_i named
      split at found
      · contradiction
      · rename_i record_there
        rw [Bool.not_eq_true', Bool.not_eq_false, Bytes.holds_iff] at header_there record_there
        obtain rfl := Except.ok.inj found
        exact ⟨header_there, record_there, named, rfl⟩

/-- A length and a mark make up the word that they were read from. -/
theorem word_eq {raw : Nat} (small : raw < 65536) :
    raw % tombstone + (if decide (tombstone ≤ raw) = true then tombstone else 0) = raw := by
  rw [tombstone]
  by_cases marked : 32768 ≤ raw
  · rw [if_pos (decide_eq_true marked)]
    omega
  · rw [decide_eq_false marked, if_neg Bool.false_ne_true]
    omega

theorem encode_of_readHeader {src : Bytes} {h : Header} (found : readHeader src = .ok h) :
    h.encode = src.take headerSize := by
  obtain ⟨header_there, _, _, rfl⟩ := readHeader_eq_ok found
  rw [headerSize] at header_there
  have behind : 2 ≤ (src.drop 2).length := by
    rw [List.length_drop]
    omega
  have parts : src.take (2 + 2) = src.take 2 ++ (src.drop 2).take 2 := List.take_add
  rw [Header.encode, word_eq (Bytes.toU16_lt src), Bytes.ofU16_toU16 (by omega),
    Bytes.ofU16_toU16 behind, ← parts]
  rfl

theorem length_le_of_readHeader {src : Bytes} {h : Header} (found : readHeader src = .ok h) :
    h.keyLength ≤ maxKey ∧ h.valueLength ≤ maxValue := by
  obtain ⟨_, _, _, rfl⟩ := readHeader_eq_ok found
  have value_short := Bytes.toU16_lt (src.drop 2)
  simp only [tombstone, maxKey, maxValue]
  omega

/-- A record that is read can be described, and is written as the bytes that it was read from. -/
theorem describable_of_read {src : Bytes} {r : Record} (found : read src = .ok r) :
    r.Describable ∧ src = r.encode ++ src.drop r.size := by
  cases header : readHeader src with
  | error fault => simp [read, header, Except.map] at found
  | ok h =>
      rw [read, header] at found
      obtain rfl := Except.ok.inj found
      obtain ⟨_, record_there, named, _⟩ := readHeader_eq_ok header
      obtain ⟨key_short, value_short⟩ := length_le_of_readHeader header
      rw [Header.size, sizeOf] at record_there
      have key_length : ((src.drop headerSize).take h.keyLength).length = h.keyLength :=
        List.length_take_of_le (by rw [List.length_drop]; omega)
      have value_length : (((src.drop headerSize).drop h.keyLength).take h.valueLength).length
          = h.valueLength :=
        List.length_take_of_le (by rw [List.length_drop, List.length_drop]; omega)
      constructor
      · refine ⟨⟨?_, ?_⟩, ?_⟩
        · rw [← List.length_pos_iff, key_length]
          exact Nat.pos_of_ne_zero named
        · rwa [key_length]
        · rwa [value_length]
      · rw [encode, size, key_length, value_length]
        have behind : src.drop (sizeOf h.keyLength h.valueLength)
            = ((src.drop headerSize).drop h.keyLength).drop h.valueLength := by
          rw [List.drop_drop, List.drop_drop, sizeOf, Nat.add_assoc]
        rw [behind, encode_of_readHeader header, List.append_assoc, List.append_assoc,
          List.take_append_drop, List.take_append_drop, List.take_append_drop]

end Record

/-- What `src` holds: it starts with the written form of `run`, it ends there unless there is a
fault, and it starts with no other run. -/
structure Recovers (src : Bytes) (run : Run) (fault : Option Corruption) : Prop where
  described : ∀ r ∈ run, r.Describable
  head : run.encode <+: src
  whole : fault = none ↔ run.encode = src
  maximal : ∀ other : Run, (∀ r ∈ other, r.Describable) → other.encode <+: src → other <+: run

namespace Run

variable {src : Bytes} {run : Run}

theorem read_of_encode_prefix {r : Record} (described : r.Describable)
    (head : encode (r :: run) <+: src) :
    Record.read src = .ok r ∧ encode run <+: src.drop r.size := by
  obtain ⟨rest, rfl⟩ := head
  rw [encode_cons, List.append_assoc]
  refine ⟨Record.read_encode_append described _, ?_⟩
  rw [List.drop_left' (Record.length_encode r)]
  exact List.prefix_append _ _

theorem eq_nil_of_read_error {fault : Corruption} (described : ∀ r ∈ run, r.Describable)
    (head : run.encode <+: src) (failed : Record.read src = .error fault) : run = [] := by
  cases run with
  | nil => rfl
  | cons r run =>
      obtain ⟨found, _⟩ := read_of_encode_prefix (described r List.mem_cons_self) head
      rw [failed] at found
      contradiction

end Run

namespace Recovers

variable {src : Bytes} {run : Run} {r : Record} {fault : Option Corruption}

theorem nil : Recovers [] [] none := by
  refine ⟨List.forall_mem_nil _, List.nil_prefix, ⟨fun _ => rfl, fun _ => rfl⟩, ?_⟩
  intro other described head
  obtain rfl := Run.eq_nil_of_read_error described head rfl
  exact List.nil_prefix

theorem stop {cause : Corruption} (filled : src ≠ []) (failed : Record.read src = .error cause) :
    Recovers src [] (some cause) := by
  refine ⟨List.forall_mem_nil _, List.nil_prefix,
    ⟨nofun, fun empty => absurd empty.symm filled⟩, ?_⟩
  intro other described head
  obtain rfl := Run.eq_nil_of_read_error described head failed
  exact List.nil_prefix

theorem cons (found : Record.read src = .ok r) (rest : Recovers (src.drop r.size) run fault) :
    Recovers src (r :: run) fault := by
  obtain ⟨described, parts⟩ := Record.describable_of_read found
  refine ⟨List.forall_mem_cons.mpr ⟨described, rest.described⟩, ?_, ?_, ?_⟩
  · rw [Run.encode_cons, parts]
    exact (List.prefix_append_right_inj _).mpr rest.head
  · rw [rest.whole, Run.encode_cons]
    constructor
    · intro whole
      rw [whole, ← parts]
    · intro whole
      exact List.append_cancel_left (whole.trans parts)
  · intro other all_described head
    cases other with
    | nil => exact List.nil_prefix
    | cons r' other =>
        obtain ⟨here, later⟩ := List.forall_mem_cons.mp all_described
        obtain ⟨found', head'⟩ := Run.read_of_encode_prefix here head
        obtain rfl : r = r' := Except.ok.inj (found.symm.trans found')
        exact List.cons_prefix_cons.mpr ⟨rfl, rest.maximal other later head'⟩

end Recovers

/-- By induction on the bytes that are left. -/
theorem Record.exists_readRun_eq (offset : Nat) (src : Bytes) :
    ∃ run fault, readRun offset src = (Run.place offset run, fault) ∧ Recovers src run fault := by
  by_cases filled : src = []
  · subst filled
    exact ⟨[], none, readRun_nil offset, .nil⟩
  · cases found : read src with
    | error fault => exact ⟨[], some fault, readRun_of_error filled found offset, .stop filled found⟩
    | ok r =>
        have _shorter := size_le_length_of_read found
        obtain ⟨run, fault, rest, recovers⟩ :=
          exists_readRun_eq (offset + r.size) (src.drop r.size)
        refine ⟨r :: run, fault, ?_, .cons found recovers⟩
        rw [readRun_of_ok found, rest]
        rfl
termination_by src.length
decreasing_by
  rw [List.length_drop]
  omega

end OrderedStore
