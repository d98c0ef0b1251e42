import OrderedStore.Bytes
import OrderedStore.Fault

/-! # Changes an operation asks for

An operation asks for at most two writes, which are then made together or not at all.
-/

namespace OrderedStore

inductive Change where
  | put (key value : Bytes)
  | delete (key : Bytes)
deriving Repr, DecidableEq

namespace Change

def key : Change → Bytes
  | put key _ => key
  | delete key => key

/-- The value to store, empty for a deletion. -/
def value : Change → Bytes
  | put _ value => value
  | delete _ => []

def isDelete : Change → Bool
  | put .. => false
  | delete _ => true

end Change

/-- The most writes one operation may ask for. -/
def maxChanges : Nat := 2

/-- Writes in the order they were asked for. -/
structure Changes where
  toList : List Change
  length_le : toList.length ≤ maxChanges
deriving Repr, DecidableEq

namespace Changes

def empty : Changes := ⟨[], Nat.zero_le _⟩

def size (c : Changes) : Nat := c.toList.length

def isEmpty (c : Changes) : Bool := c.toList.isEmpty

def hasPuts (c : Changes) : Bool := c.toList.any fun change => !change.isDelete

def push (c : Changes) (change : Change) : Except Misuse Changes :=
  if room : c.toList.length < maxChanges then
    .ok ⟨c.toList ++ [change], by simp only [List.length_append, List.length_singleton]; omega⟩
  else .error .tooManyChanges

end Changes

end OrderedStore
