import OrderedStore.Block

/-! # Latches

A latch guards a block that several parties use: any number may read it, or one may write it. Who
asks for it names the change stamp that they saw before. If the block has another stamp by the time
the latch is free, records have left it, and the asker has to look the block up anew.
-/

namespace OrderedStore

structure Latch where
  block : Block
  readers : Nat := 0
  writing : Bool := false
deriving Repr, DecidableEq

namespace Latch

inductive Answer where
  | granted (latch : Latch)
  /-- The block does not have the stamp that was seen. -/
  | changed
  /-- Somebody else holds the latch: the asker waits, or gives up. -/
  | taken
deriving Repr, DecidableEq

/-- What an asker is told about a block that has changed. -/
def changedMessage : String := "block changed concurrently, retry required"

def stamp (l : Latch) : Nat := l.block.stamp

def read (l : Latch) (seen : Nat) : Answer :=
  if l.writing then .taken
  else if l.stamp ≠ seen then .changed
  else .granted { l with readers := l.readers + 1 }

def write (l : Latch) (seen : Nat) : Answer :=
  if l.writing || 0 < l.readers then .taken
  else if l.stamp ≠ seen then .changed
  else .granted { l with writing := true }

def doneReading (l : Latch) : Latch := { l with readers := l.readers - 1 }

def doneWriting (l : Latch) : Latch := { l with writing := false }

/-- Who is granted a latch finds the block with the stamp that they saw. -/
theorem stamp_of_granted {l l' : Latch} {seen : Nat}
    (h : l.read seen = .granted l' ∨ l.write seen = .granted l') :
    l'.block = l.block ∧ l.stamp = seen := by
  simp only [read, write] at h
  grind

end Latch

end OrderedStore
