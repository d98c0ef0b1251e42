import OrderedStore.Arena

/-! # Accounts of a store

Counters follow what blocks do, step by step; nothing looks them up to find data.
-/

namespace OrderedStore

structure Counters where
  /-- Bytes of all records, tombstones included. -/
  dataBytes : Int := 0
  liveRecords : Int := 0
  blocks : Int := 0
  splits : Nat := 0
  merges : Nat := 0
  compactions : Nat := 0
  expansions : Nat := 0
  /-- Calls that had to start again because a block changed while they waited for it. -/
  retries : Nat := 0
  /-- Writes refused at the memory ceiling. -/
  rejectedWrites : Nat := 0
deriving Repr, DecidableEq

namespace Counters

/-- Records grew by `bytes`, and `records` more of them are live. -/
def addData (c : Counters) (bytes records : Int) : Counters :=
  { c with dataBytes := c.dataBytes + bytes, liveRecords := c.liveRecords + records }

def addBlocks (c : Counters) (blocks : Int) : Counters := { c with blocks := c.blocks + blocks }

def addCompaction (c : Counters) (bytes : Nat) : Counters :=
  { c with dataBytes := c.dataBytes - bytes, compactions := c.compactions + 1 }

def addExpansion (c : Counters) : Counters := { c with expansions := c.expansions + 1 }

def addSplit (c : Counters) : Counters := { c with splits := c.splits + 1 }

def addMerge (c : Counters) : Counters := { c with merges := c.merges + 1 }

def addRejected (c : Counters) : Counters := { c with rejectedWrites := c.rejectedWrites + 1 }

end Counters

/-- The arena blocks take their regions from, and the counters they report to. -/
structure Ledger where
  arena : Arena
  counters : Counters

namespace Ledger

def create (track : Bool) : Ledger := ⟨.create track, {}⟩

def count (l : Ledger) (f : Counters → Counters) : Ledger := { l with counters := f l.counters }

def release (l : Ledger) (lease : Lease) : Ledger := { l with arena := l.arena.release lease }

end Ledger

end OrderedStore
