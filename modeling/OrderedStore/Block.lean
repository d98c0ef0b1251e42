import OrderedStore.Ascending
import OrderedStore.Ladder
import OrderedStore.Ledger
import OrderedStore.Run

/-! # Blocks

A block holds a run of records in a region of limited capacity. It keeps the number of its bytes, of
its records and of its tombstones beside them, and a change stamp that moves whenever records leave
the block or two blocks become one.
-/

namespace OrderedStore

/-- What all blocks of a store have in common. -/
structure Tuning where
  ladder : Ladder
  /-- The share of tombstones above which a block compacts by itself. -/
  compactionRatio : Float := 0.25
  /-- The share of the largest size that two neighbours must fit in to merge. -/
  mergeRatio : Float := 0.5
deriving Repr, DecidableEq

structure Block where
  lease : Lease
  /-- In the order of their keys, tombstones among them. -/
  records : Array Record
  used : Nat
  recordCount : Nat
  deletedCount : Nat
  tuning : Tuning
  stamp : Nat
  /-- Whether the block reports to the counters; a scratch block does not. -/
  counted : Bool
  /-- False once a neighbour has absorbed the block. -/
  valid : Bool
deriving Repr, DecidableEq

namespace Block

def create (lease : Lease) (tuning : Tuning) (counted : Bool) : Block where
  lease := lease
  records := #[]
  used := 0
  recordCount := 0
  deletedCount := 0
  tuning := tuning
  stamp := 0
  counted := counted
  valid := true

/-- An empty block that neither arena nor counters know of. -/
def scratch (capacity : Nat) (tuning : Tuning) : Block := create (.detached capacity) tuning false

def capacity (b : Block) : Nat := b.lease.size

def ladder (b : Block) : Ladder := b.tuning.ladder

def liveCount (b : Block) : Nat := b.recordCount - b.deletedCount

def isEmpty (b : Block) : Bool := b.recordCount = 0

def run (b : Block) : Run := b.records.toList

/-- The used bytes of the region. -/
def image (b : Block) : Bytes := Run.encode b.run

def firstKey? (b : Block) : Option Bytes := b.records[0]?.map (·.key)

def lastKey? (b : Block) : Option Bytes := b.records.back?.map (·.key)

/-- The offset of the first record at or above `key`, deleted or not, or the end of the run. -/
def search (b : Block) (key : Bytes) : Nat :=
  Run.size (b.run.take (Ascending.rank Record.key key b.records))

/-- The record stored under `key`, deleted or not. -/
def at? (b : Block) (key : Bytes) : Option Record := Ascending.find? Record.key key b.records

def liveAt? (b : Block) (key : Bytes) : Option Record := (b.at? key).filter (!·.deleted)

def get? (b : Block) (key : Bytes) : Option Bytes := (b.liveAt? key).map (·.value)

def find? (b : Block) (key : Bytes) : Option Nat := (b.liveAt? key).map fun _ => b.search key

def floor? (b : Block) (key : Bytes) : Option Record :=
  (b.run.take (Ascending.reach Record.key key b.records)).reverse.find? (!·.deleted)

def floorRow? (b : Block) (key : Bytes) : Option Record.Placed :=
  (b.floor? key).map fun r => ⟨b.search r.key, r⟩

/-- What the bytes from `offset` on decode to, be it the start of a record or not. -/
def recordAt (b : Block) (offset : Nat) : Except Corruption Record.Placed :=
  Record.readAt b.image offset

def rows (b : Block) : List Record.Placed := Run.place 0 b.run

def liveBytes (b : Block) : Nat := Run.liveSize b.run

def report (b : Block) (l : Ledger) (f : Counters → Counters) : Ledger :=
  if b.counted then l.count f else l

def ensureValid (b : Block) : Except Misuse Unit :=
  if b.valid then .ok () else .error .blockAbsorbed

end Block

end OrderedStore
