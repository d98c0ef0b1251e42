import OrderedStore.Proofs.Record.Limits
import OrderedStore.Run

/-! # Reading back what was written

A record that the layout can describe is read back from its bytes, whatever follows them, and so is
a run of such records: with the offsets at which they lie and without a fault at the end.
-/

namespace OrderedStore

namespace Record

theorem length_encode (r : Record) : (encode r).length = r.size := by
  simp only [encode, Header.encode, List.length_append, Bytes.length_ofU16, size, sizeOf,
    headerSize]

/-- The word at the head of a record, which holds the length of its key and its mark. -/
def word (r : Record) : Nat := r.key.length + if r.deleted then tombstone else 0

theorem encode_append (r : Record) (rest : Bytes) : encode r ++ rest
    = Bytes.ofU16 r.word ++ (Bytes.ofU16 r.value.length ++ (r.key ++ (r.value ++ rest))) := by
  simp only [encode, Header.encode, List.append_assoc]
  rfl

theorem Describable.toU16_encode_append {r : Record} (described : r.Describable) (rest : Bytes) :
    Bytes.toU16 (encode r ++ rest) = r.word := by
  have short := described.key.2
  rw [encode_append, Bytes.toU16_ofU16_append]
  simp only [word, maxKey, tombstone] at short ⊢
  split <;> omega

theorem Describable.word_mod {r : Record} (described : r.Describable) :
    r.word % tombstone = r.key.length := by
  have short := described.key.2
  simp only [word, maxKey, tombstone] at short ⊢
  split <;> omega

theorem Describable.tombstone_le_word_iff {r : Record} (described : r.Describable) :
    tombstone ≤ r.word ↔ r.deleted = true := by
  have short := described.key.2
  simp only [word, maxKey, tombstone] at short ⊢
  cases r.deleted with
  | true => simp
  | false =>
      simp only [Bool.false_eq_true, if_false, iff_false]
      omega

theorem readHeader_encode_append {r : Record} (described : r.Describable) (rest : Bytes) :
    readHeader (encode r ++ rest) = .ok ⟨r.key.length, r.value.length, r.deleted⟩ := by
  have raw := described.toU16_encode_append rest
  have key_length := described.word_mod
  have marked := described.tombstone_le_word_iff
  obtain ⟨⟨filled, short⟩, value_short⟩ := described
  have key_pos := List.length_pos_iff.mpr filled
  have header_there : Bytes.holds headerSize (encode r ++ rest) = true := by
    rw [Bytes.holds_iff, List.length_append, length_encode]
    exact Nat.le_trans r.headerSize_le_size (Nat.le_add_right _ _)
  have record_there :
      Bytes.holds (sizeOf r.key.length r.value.length) (encode r ++ rest) = true := by
    rw [Bytes.holds_iff, List.length_append, length_encode]
    exact Nat.le_add_right _ _
  have value_length : Bytes.toU16 ((encode r ++ rest).drop 2) = r.value.length := by
    rw [encode_append, List.drop_left' (Bytes.length_ofU16 _), Bytes.toU16_ofU16_append]
    simp only [maxValue] at value_short
    omega
  have mark : decide (tombstone ≤ r.word) = r.deleted := by
    rw [Bool.eq_iff_iff, decide_eq_true_iff]
    exact marked
  simp only [readHeader, header_there, raw, value_length, key_length, mark, Header.size,
    record_there, Nat.ne_of_gt key_pos, Bool.not_true, Bool.false_eq_true, if_false]

theorem read_encode_append {r : Record} (described : r.Describable) (rest : Bytes) :
    read (encode r ++ rest) = .ok r := by
  have body : (encode r ++ rest).drop headerSize = r.key ++ (r.value ++ rest) := by
    have parts : encode r ++ rest
        = Header.encode ⟨r.key.length, r.value.length, r.deleted⟩
          ++ (r.key ++ (r.value ++ rest)) := by
      simp only [encode, List.append_assoc]
    rw [parts]
    exact List.drop_left' rfl
  rw [read, readHeader_encode_append described]
  simp only [Except.map, body, List.take_left, List.drop_left]

theorem readRun_nil (offset : Nat) : readRun offset [] = ([], none) := by
  rw [readRun]
  rfl

theorem readRun_of_ok {src : Bytes} {r : Record} (found : read src = .ok r) (offset : Nat) :
    readRun offset src = (⟨offset, r⟩ :: (readRun (offset + r.size) (src.drop r.size)).1,
      (readRun (offset + r.size) (src.drop r.size)).2) := by
  have filled : src ≠ [] := by
    rintro rfl
    contradiction
  rw [readRun, if_neg (by simpa using filled)]
  split
  · rename_i fault failed
    rw [found] at failed
    contradiction
  · rename_i r' found'
    obtain rfl : r = r' := Except.ok.inj (found.symm.trans found')
    rfl

theorem readRun_of_error {src : Bytes} {fault : Corruption} (filled : src ≠ [])
    (failed : read src = .error fault) (offset : Nat) : readRun offset src = ([], some fault) := by
  rw [readRun, if_neg (by simpa using filled)]
  split
  · rename_i fault' failed'
    obtain rfl : fault = fault' := Except.error.inj (failed.symm.trans failed')
    rfl
  · rename_i r found
    rw [failed] at found
    contradiction

end Record

namespace Run

theorem length_encode (run : Run) : (encode run).length = size run := by
  induction run with
  | nil => rfl
  | cons r run ih =>
      rw [encode, List.flatMap_cons, List.length_append, Record.length_encode, size_cons, ← ih]
      rfl

theorem length_place (offset : Nat) (run : Run) : (place offset run).length = run.length := by
  induction run generalizing offset with
  | nil => rfl
  | cons r run ih => simp [place, ih]

theorem map_record_place (offset : Nat) (run : Run) : (place offset run).map (·.record) = run := by
  induction run generalizing offset with
  | nil => rfl
  | cons r run ih => simp [place, ih]

theorem readRun_encode {run : Run} (described : ∀ r ∈ run, r.Describable) (offset : Nat) :
    Record.readRun offset (encode run) = (place offset run, none) := by
  induction run generalizing offset with
  | nil => exact Record.readRun_nil offset
  | cons r run ih =>
      obtain ⟨here, later⟩ := List.forall_mem_cons.mp described
      have parts : encode (r :: run) = Record.encode r ++ encode run := List.flatMap_cons
      have first := Record.read_encode_append here (encode run)
      have rest : (Record.encode r ++ encode run).drop r.size = encode run :=
        List.drop_left' (Record.length_encode r)
      rw [parts, Record.readRun_of_ok first, rest, ih later]
      rfl

end Run

end OrderedStore
