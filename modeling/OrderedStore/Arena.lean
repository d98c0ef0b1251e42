import OrderedStore.SearchTree

/-! # Memory accounts

An arena counts the bytes and the number of the regions that are in use. With tracking it also keeps
a table of them, so that a region given back twice, or with another size, is noticed. A detached
region belongs to no arena.
-/

namespace OrderedStore

/-- A region in use: its number, its size, and whether an arena counts it. -/
structure Lease where
  id : Nat
  size : Nat
  accounted : Bool
deriving Repr, DecidableEq

namespace Lease

/-- A region outside any arena. -/
def detached (size : Nat) : Lease := ⟨0, size, false⟩

def describe (l : Lease) : String :=
  s!"Region \x7b id: {l.id}, len: {l.size}, detached: {!l.accounted} \x7d"

end Lease

/-- What is in use. -/
structure Arena where
  allocated : Nat
  live : Nat
  nextId : Nat
  /-- Number and size of each region in use, when they are tracked. -/
  table : Option (SearchTree fun row : Nat × Nat => row.1)

namespace Arena

/-- An arena with nothing in use. Regions are numbered from one. -/
def create (track : Bool) : Arena := ⟨0, 0, 1, if track then some .empty else none⟩

def allocate (a : Arena) (size : Nat) : Lease × Arena :=
  (⟨a.nextId, size, true⟩,
    { allocated := a.allocated + size
      live := a.live + 1
      nextId := a.nextId + 1
      table := a.table.map (·.insert (a.nextId, size)) })

/-- A new region of `size` bytes, counted where `of` is counted. -/
def sibling (a : Arena) (of : Lease) (size : Nat) : Lease × Arena :=
  if of.accounted then a.allocate size else (.detached size, a)

/-- Whether giving back `lease` agrees with the table. -/
def agrees (a : Arena) (lease : Lease) : Bool :=
  !lease.accounted || a.table.all fun rows => rows.get? lease.id == some (lease.id, lease.size)

def release (a : Arena) (lease : Lease) : Arena :=
  if lease.accounted then
    { a with
      allocated := a.allocated - lease.size
      live := a.live - 1
      table := a.table.map (·.erase lease.id) }
  else a

def describe (a : Arena) : String :=
  s!"MemoryArena \x7b allocated: {a.allocated}, live: {a.live}, tracking: {a.table.isSome} \x7d"

end Arena

structure Region where
  lease : Lease
  bytes : Bytes
deriving Repr, DecidableEq

namespace Region

/-- A region starts out filled with zeros. -/
def zeroed (lease : Lease) : Region := ⟨lease, List.replicate lease.size 0⟩

/-- The region with `bytes` written at `offset`, where they must fit. -/
def write (r : Region) (offset : Nat) (bytes : Bytes) : Region :=
  { r with bytes := r.bytes.overwrite offset bytes }

end Region

end OrderedStore
