import OrderedStore.Bytes

/-! # Edits within a buffer

A buffer is edited by writing over a stretch of it: with new bytes, with zeros, or with bytes that lie
elsewhere in it. Two edits of neighbouring stretches are one edit of both.
-/

namespace OrderedStore.Bytes

/-- That many zeros. -/
def zeros (count : Nat) : Bytes := List.replicate count 0

/-- `buf` with its bytes from `start` up to `stop` copied to `target`; the places may overlap. -/
def copyWithin (buf : Bytes) (start stop target : Nat) : Bytes :=
  buf.overwrite target ((buf.take stop).drop start)

/-- `buf` with zeros from `start` up to `stop`. -/
def clear (buf : Bytes) (start stop : Nat) : Bytes := buf.overwrite start (zeros (stop - start))

@[simp] theorem length_zeros (count : Nat) : (zeros count).length = count := List.length_replicate

theorem zeros_append (m n : Nat) : zeros m ++ zeros n = zeros (m + n) := List.replicate_append_replicate

theorem drop_zeros (n count : Nat) : (zeros count).drop n = zeros (count - n) := List.drop_replicate

section

variable {old new : Bytes}

theorem overwrite_append (low high : Bytes) (same : new.length = old.length) :
    overwrite (low ++ (old ++ high)) low.length new = low ++ (new ++ high) := by
  have behind : (low ++ (old ++ high)).drop (low.length + new.length) = high := by
    rw [same, ← List.append_assoc]
    exact List.drop_left' List.length_append
  rw [overwrite, List.take_left, behind, List.append_assoc]

@[simp] theorem overwrite_nil (buf : Bytes) (off : Nat) : overwrite buf off [] = buf := by
  simp [overwrite]

theorem overwrite_overwrite_right {buf : Bytes} {off : Nat} (room : off + new.length ≤ buf.length)
    (more : Bytes) :
    overwrite (overwrite buf off new) (off + new.length) more = overwrite buf off (new ++ more) := by
  have front : (buf.take off ++ new).length = off + new.length := by
    rw [List.length_append, List.length_take_of_le (by omega)]
  have behind : (buf.take off ++ new ++ buf.drop (off + new.length)).drop
      (off + new.length + more.length) = buf.drop (off + (new ++ more).length) := by
    rw [List.drop_append, front, List.drop_eq_nil_of_le (by omega), List.drop_drop,
      List.length_append, List.nil_append]
    congr 1
    omega
  rw [overwrite, overwrite, List.take_left' front, behind, overwrite]
  simp only [List.append_assoc]

theorem overwrite_overwrite_left {buf : Bytes} {off : Nat} (room : off + new.length ≤ buf.length)
    (more : Bytes) :
    overwrite (overwrite buf (off + new.length) more) off new = overwrite buf off (new ++ more) := by
  have front : (buf.take (off + new.length)).length = off + new.length :=
    List.length_take_of_le room
  have kept : (buf.take (off + new.length) ++ more ++ buf.drop (off + new.length + more.length)).take
      off = buf.take off := by
    rw [List.append_assoc, List.take_append_of_le_length (by omega), List.take_take]
    congr 1
    omega
  have behind : (buf.take (off + new.length) ++ more
      ++ buf.drop (off + new.length + more.length)).drop (off + new.length)
      = more ++ buf.drop (off + new.length + more.length) := by
    rw [List.append_assoc]
    exact List.drop_left' front
  rw [overwrite, overwrite, kept, behind, overwrite, List.length_append, Nat.add_assoc]
  simp only [List.append_assoc]

theorem copyWithin_down (low gap moved high : Bytes) :
    (low ++ (gap ++ (moved ++ high))).copyWithin (low.length + gap.length)
        (low.length + gap.length + moved.length) low.length
      = low ++ (moved ++ ((gap ++ moved).drop moved.length ++ high)) := by
  have source : ((low ++ (gap ++ (moved ++ high))).take
      (low.length + gap.length + moved.length)).drop (low.length + gap.length) = moved := by
    have front : low ++ (gap ++ (moved ++ high)) = (low ++ gap ++ moved) ++ high := by
      simp only [List.append_assoc]
    rw [front, List.take_left' (by simp only [List.length_append])]
    exact List.drop_left' List.length_append
  have old_length : ((gap ++ moved).take moved.length).length = moved.length :=
    List.length_take_of_le (by rw [List.length_append]; exact Nat.le_add_left _ _)
  have split : low ++ (gap ++ (moved ++ high))
      = low ++ ((gap ++ moved).take moved.length ++ ((gap ++ moved).drop moved.length ++ high)) := by
    rw [← List.append_assoc gap, ← List.append_assoc (List.take _ _), List.take_append_drop]
  rw [copyWithin, source, split]
  exact overwrite_append low _ old_length.symm

end

end OrderedStore.Bytes
