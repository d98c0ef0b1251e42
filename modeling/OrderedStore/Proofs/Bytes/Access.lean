import OrderedStore.Bytes
import OrderedStore.Fault

/-! # Reads within bounds

What is read by its offset may not be there. A guarded read gives a byte only if the buffer has it,
and otherwise stops in a way that no malformed bytes can bring about. A reader that is told with
guarded reads and never stops like that stays within its buffer.
-/

namespace OrderedStore

/-- Why a reader stops. -/
inductive Halt where
  /-- It reached for a byte that the buffer does not have. -/
  | outside
  | corrupt (cause : Corruption)
deriving Repr, DecidableEq

namespace Bytes

def byteAt (buf : Bytes) (offset : Nat) : Except Halt UInt8 :=
  match buf[offset]? with
  | some byte => .ok byte
  | none => .error .outside

/-- The number in the two bytes at `offset`, least significant first. -/
def wordAt (buf : Bytes) (offset : Nat) : Except Halt Nat := do
  let low ← buf.byteAt offset
  let high ← buf.byteAt (offset + 1)
  return low.toNat + 256 * high.toNat

/-- The bytes from `start` up to `stop`. -/
def sliceAt (buf : Bytes) (start stop : Nat) : Except Halt Bytes :=
  if start ≤ stop ∧ stop ≤ buf.length then .ok ((buf.drop start).take (stop - start))
  else .error .outside

section

variable {buf : Bytes} {offset start stop : Nat}

theorem byteAt_of_lt (inside : offset < buf.length) : buf.byteAt offset = .ok buf[offset] := by
  rw [byteAt, List.getElem?_eq_getElem inside]

theorem wordAt_eq (inside : offset + 2 ≤ buf.length) :
    buf.wordAt offset = .ok (toU16 (buf.drop offset)) := by
  have first : offset < buf.length := by omega
  have second : offset + 1 < buf.length := by omega
  rw [wordAt, byteAt_of_lt first, byteAt_of_lt second, List.drop_eq_getElem_cons first,
    List.drop_eq_getElem_cons second]
  rfl

theorem sliceAt_eq (upto : start ≤ stop) (inside : stop ≤ buf.length) :
    buf.sliceAt start stop = .ok ((buf.drop start).take (stop - start)) := if_pos ⟨upto, inside⟩

end

end Bytes

end OrderedStore
