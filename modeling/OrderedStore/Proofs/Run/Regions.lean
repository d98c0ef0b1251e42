import OrderedStore.Proofs.Bytes.Edits
import OrderedStore.Proofs.Record.Decoding

/-! # Runs in regions

A run lies at the start of its region, record behind record, and the rest of the region is zeros. An
edit that writes other records over the end of the run, and zeros over what they leave free, gives the
region of the edited run.
-/

namespace OrderedStore

theorem Record.Describable.markAt_append {r : Record} (described : r.Describable) (mark : Bool)
    (low high : Bytes) :
    Record.markAt (low ++ (r.encode ++ high)) low.length mark
      = low ++ ({ r with deleted := mark }.encode ++ high) := by
  have key_length : Bytes.toU16 ((low ++ (r.encode ++ high)).drop low.length) % Record.tombstone
      = r.key.length := by
    rw [List.drop_left, described.toU16_encode_append, described.word_mod]
  rw [Record.markAt, key_length, Record.encode_append, Record.encode_append]
  exact Bytes.overwrite_append low _ rfl

namespace Run

theorem encode_append (a b : Run) : encode (a ++ b) = encode a ++ encode b := List.flatMap_append

theorem encode_cons (r : Record) (run : Run) : encode (r :: run) = r.encode ++ encode run :=
  List.flatMap_cons

theorem place_append (offset : Nat) (a b : Run) :
    place offset (a ++ b) = place offset a ++ place (offset + size a) b := by
  induction a generalizing offset with
  | nil => rfl
  | cons r a ih => simp [place, ih, size_cons, Nat.add_assoc]

theorem mem_of_mem_place {offset : Nat} {run : Run} {row : Record.Placed}
    (member : row ∈ place offset run) : row.record ∈ run := by
  rw [← map_record_place offset run]
  exact List.mem_map_of_mem member

theorem exists_eq_of_mem_place {offset : Nat} {run : Run} {row : Record.Placed}
    (member : row ∈ place offset run) :
    ∃ low high, run = low ++ row.record :: high ∧ row.offset = offset + size low := by
  induction run generalizing offset with
  | nil => contradiction
  | cons r run ih =>
      cases List.mem_cons.mp member with
      | inl here =>
          subst here
          exact ⟨[], run, rfl, rfl⟩
      | inr behind =>
          obtain ⟨low, high, eq, at_offset⟩ := ih behind
          refine ⟨r :: low, high, by rw [eq]; rfl, ?_⟩
          rw [at_offset, size_cons, Nat.add_assoc]

theorem le_of_mem_from {same : Option Record} {high : Run} {key : Bytes}
    (equal : ∀ r ∈ same, r.key = key) (above : ∀ r ∈ high, key < r.key) :
    ∀ r ∈ same.toList ++ high, key ≤ r.key := by
  intro r member
  cases List.mem_append.mp member with
  | inl inside => exact (equal r (Option.mem_toList.mp inside)).symm ▸ List.le_refl key
  | inr inside => exact List.le_of_lt (above r inside)

theorem search_place {low rest : Run} {key : Bytes} (below : ∀ r ∈ low, r.key < key)
    (above : ∀ r ∈ rest, key ≤ r.key) :
    (((place 0 (low ++ rest)).find? (key ≤ ·.record.key)).map (·.offset)).getD (size (low ++ rest))
      = size low := by
  have passed : (place 0 low).find? (key ≤ ·.record.key) = none := by
    refine List.find?_eq_none.mpr fun row member reached => ?_
    exact List.not_le.mpr (below row.record (mem_of_mem_place member)) (of_decide_eq_true reached)
  rw [place_append, List.find?_append, passed, Option.none_or, Nat.zero_add]
  cases rest with
  | nil => simp [place]
  | cons r rest =>
      have reached : key ≤ r.key := above r List.mem_cons_self
      simp [place, reached]

/-- A region of `capacity` bytes with the run in it. -/
def laid (run : Run) (capacity : Nat) : Bytes := encode run ++ Bytes.zeros (capacity - size run)

section

variable {run low old new high : Run} {r : Record} {capacity : Nat}

theorem length_laid (room : size run ≤ capacity) : (laid run capacity).length = capacity := by
  rw [laid, List.length_append, length_encode, Bytes.length_zeros]
  omega

theorem take_laid (run : Run) (capacity : Nat) : (laid run capacity).take (size run) = encode run :=
  List.take_left' (length_encode run)

theorem overwrite_zeros (run : Run) (capacity : Nat) :
    (Bytes.zeros capacity).overwrite 0 (encode run) = laid run capacity := by
  rw [Bytes.overwrite, Bytes.drop_zeros, length_encode, Nat.zero_add]
  rfl

theorem overwrite_laid (fits_old : size low + size old ≤ capacity)
    (fits_new : size low + size new ≤ capacity) :
    (laid (low ++ old) capacity).overwrite (size low)
        (encode new ++ Bytes.zeros (size old - size new))
      = laid (low ++ new) capacity := by
  -- The zeros behind the run fall into those that are written over and those that are kept.
  have spare : Bytes.zeros (capacity - (size low + size old))
      = Bytes.zeros (size new - size old)
        ++ Bytes.zeros (capacity - (size low + size old) - (size new - size old)) := by
    rw [Bytes.zeros_append]
    congr 1
    omega
  have whole : laid (low ++ old) capacity = encode low
      ++ ((encode old ++ Bytes.zeros (size new - size old))
        ++ Bytes.zeros (capacity - (size low + size old) - (size new - size old))) := by
    rw [laid, encode_append, size_append, spare]
    simp only [List.append_assoc]
  have same : (encode new ++ Bytes.zeros (size old - size new)).length
      = (encode old ++ Bytes.zeros (size new - size old)).length := by
    simp only [List.length_append, length_encode, Bytes.length_zeros]
    omega
  have edited := Bytes.overwrite_append (encode low)
    (Bytes.zeros (capacity - (size low + size old) - (size new - size old))) same
  rw [length_encode] at edited
  rw [whole, edited, laid, encode_append, size_append, List.append_assoc, List.append_assoc,
    Bytes.zeros_append]
  congr 3
  omega

theorem overwrite_laid_of_le (larger : size old ≤ size new)
    (fits_new : size low + size new ≤ capacity) :
    (laid (low ++ old) capacity).overwrite (size low) (encode new) = laid (low ++ new) capacity := by
  have fits_old : size low + size old ≤ capacity := by omega
  have edited := overwrite_laid fits_old fits_new
  have nothing : Bytes.zeros (size old - size new) = [] := by
    rw [Nat.sub_eq_zero_of_le larger]
    rfl
  rwa [nothing, List.append_nil] at edited

theorem copyWithin_laid (low old : Run) (capacity target : Nat) :
    (laid (low ++ old) capacity).copyWithin (size low) (size (low ++ old)) target
      = (laid (low ++ old) capacity).overwrite target (encode old) := by
  rw [Bytes.copyWithin, take_laid, encode_append, List.drop_left' (length_encode low)]

/-- To replace the start of a run's end, the rest of that end is copied to where it will be and then
the start is written in front of it; bytes that fall free are cleared in between. -/
theorem shift_laid {first : Record} (fits_old : size low + size old ≤ capacity)
    (fits_new : size low + size (first :: high) ≤ capacity) :
    (((laid (low ++ old) capacity).overwrite (size low + first.size) (encode high)).overwrite
        (size low + size (first :: high)) (Bytes.zeros (size old - size (first :: high)))).overwrite
        (size low) first.encode
      = laid (low ++ first :: high) capacity := by
  have long : (laid (low ++ old) capacity).length = capacity :=
    length_laid (by rw [size_append]; exact fits_old)
  rw [size_cons] at fits_new ⊢
  have room_high : size low + first.size + (encode high).length
      ≤ (laid (low ++ old) capacity).length := by
    rw [length_encode, long]
    omega
  have room_first : size low + first.encode.length ≤ (laid (low ++ old) capacity).length := by
    rw [Record.length_encode, long]
    omega
  have cleared := Bytes.overwrite_overwrite_right room_high
    (Bytes.zeros (size old - size (first :: high)))
  have written := Bytes.overwrite_overwrite_left room_first
    (encode high ++ Bytes.zeros (size old - size (first :: high)))
  rw [length_encode, size_cons] at cleared
  rw [Record.length_encode, ← List.append_assoc, ← encode_cons] at written
  rw [← Nat.add_assoc, cleared, ← size_cons, written]
  exact overwrite_laid fits_old (by rw [size_cons]; exact fits_new)

theorem insert_laid {key value : Bytes}
    (fits : size low + size (Record.live key value :: high) ≤ capacity) :
    Record.writeAt ((laid (low ++ high) capacity).copyWithin (size low) (size (low ++ high))
        (size low + Record.sizeOf key.length value.length)) (size low) key value
      = laid (low ++ Record.live key value :: high) capacity := by
  have fits_old : size low + size high ≤ capacity := by
    rw [size_cons] at fits
    omega
  have shifted := shift_laid fits_old fits
  have no_gap : size high - size (Record.live key value :: high) = 0 := by
    rw [size_cons]
    omega
  rw [no_gap, Bytes.zeros, List.replicate_zero, Bytes.overwrite_nil] at shifted
  rw [copyWithin_laid]
  exact shifted

/-- A record that takes another's place shifts what lies behind it, unless the two are of one size. -/
theorem replace_laid {old : Record} {key value : Bytes}
    (fits_old : size low + size (old :: high) ≤ capacity)
    (fits_new : size low + size (Record.live key value :: high) ≤ capacity) :
    let new := Record.sizeOf key.length value.length
    let bytes := laid (low ++ old :: high) capacity
    let used := size (low ++ old :: high)
    let shifted := bytes.copyWithin (size low + old.size) used (size low + new)
    Record.writeAt
        (if old.size = new then bytes
        else if new < old.size then shifted.clear (used - (old.size - new)) used
        else shifted) (size low) key value
      = laid (low ++ Record.live key value :: high) capacity := by
  intro new bytes used shifted
  have written := shift_laid fits_old fits_new
  have new_eq : (Record.live key value).size = new := rfl
  have used_eq : used = size low + (old.size + size high) := by rw [← size_cons, ← size_append]
  have copied : shifted = bytes.overwrite (size low + new) (encode high) := by
    have behind := copyWithin_laid (low ++ [old]) high capacity (size low + new)
    rw [List.append_assoc, size_append low] at behind
    exact behind
  have target_eq : size low + size (Record.live key value :: high)
      = used - (old.size - new) + (new - old.size) := by
    rw [size_cons, new_eq]
    omega
  have gap : size (old :: high) - size (Record.live key value :: high) = old.size - new := by
    rw [size_cons, size_cons, new_eq]
    omega
  rw [new_eq, gap, target_eq] at written
  by_cases larger : old.size ≤ new
  · rw [Nat.sub_eq_zero_of_le larger, Bytes.zeros, List.replicate_zero, Bytes.overwrite_nil] at written
    rw [← written, if_neg (Nat.not_lt.mpr larger)]
    by_cases same : old.size = new
    · -- The copy would put everything where it is.
      have fits : size (low ++ [old]) + size high ≤ capacity := by
        rw [size_append, Nat.add_assoc, ← size_append]
        exact fits_old
      have still := overwrite_laid_of_le (Nat.le_refl (size high)) fits
      rw [List.append_assoc, size_append low] at still
      rw [if_pos same, ← same]
      exact congrArg (Record.writeAt · (size low) key value) still.symm
    · rw [if_neg same]
      exact congrArg (Record.writeAt · (size low) key value) copied
  · have smaller := Nat.not_le.mp larger
    have cleared : used - (used - (old.size - new)) = old.size - new := by omega
    rw [Nat.sub_eq_zero_of_le (Nat.le_of_lt smaller), Nat.add_zero] at written
    rw [if_neg (Nat.ne_of_gt smaller), if_pos smaller, Bytes.clear, cleared, copied]
    exact written

theorem slide_down_laid (fits : size (low ++ high) ≤ capacity) :
    ((laid (low ++ high) capacity).copyWithin (size low) (size (low ++ high)) 0).clear
        (size high) (size (low ++ high))
      = laid high capacity := by
  have long : (laid (low ++ high) capacity).length = capacity := length_laid fits
  have sizes := size_append low high
  have room : 0 + (encode high).length ≤ (laid (low ++ high) capacity).length := by
    rw [length_encode, long]
    omega
  have cleared := Bytes.overwrite_overwrite_right room (Bytes.zeros (size (low ++ high) - size high))
  rw [length_encode, Nat.zero_add] at cleared
  have fits_whole : size [] + size (low ++ high) ≤ capacity := (Nat.zero_add _).symm ▸ fits
  have fits_high : size [] + size high ≤ capacity := by
    rw [size_append] at fits_whole
    omega
  rw [copyWithin_laid, Bytes.clear, cleared]
  exact overwrite_laid fits_whole fits_high

theorem slide_up_laid (fits : size (low ++ high) ≤ capacity) :
    ((laid high capacity).copyWithin 0 (size high) (size low)).overwrite 0 (encode low)
      = laid (low ++ high) capacity := by
  have sizes := size_append low high
  have long : (laid high capacity).length = capacity := length_laid (by omega)
  have copied := copyWithin_laid [] high capacity (size low)
  rw [List.nil_append] at copied
  have room : 0 + (encode low).length ≤ (laid high capacity).length := by
    rw [length_encode, long]
    omega
  have written := Bytes.overwrite_overwrite_left room (encode high)
  rw [length_encode, Nat.zero_add, ← encode_append] at written
  have larger : size high ≤ size (low ++ high) := by omega
  have fits_whole : size [] + size (low ++ high) ≤ capacity := (Nat.zero_add _).symm ▸ fits
  have edited := overwrite_laid_of_le larger fits_whole
  exact (congrArg (Bytes.overwrite · 0 (encode low)) copied).trans (written.trans edited)

theorem markAt_laid (described : r.Describable) :
    Record.markAt (laid (low ++ r :: high) capacity) (size low) true
      = laid (low ++ { r with deleted := true } :: high) capacity := by
  have same_size : size (low ++ { r with deleted := true } :: high) = size (low ++ r :: high) := by
    simp only [size_append, size_cons]
    rfl
  rw [laid, laid, same_size, encode_append, encode_append, encode_cons, encode_cons,
    List.append_assoc, List.append_assoc, List.append_assoc, List.append_assoc,
    ← length_encode low]
  exact described.markAt_append true (encode low) _

end

end Run

end OrderedStore
