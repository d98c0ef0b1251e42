import OrderedStore.Block.Write
import OrderedStore.Directory
import OrderedStore.Options

/-! # Stores

A store is an ordered map from keys to values. Its records lie in blocks, and a directory publishes
each block under an anchor: the empty key for the leftmost block, the key of the first record for
every other. A block holds the keys from its anchor to the next one.
-/

namespace OrderedStore

/-- A block and the number that it has for life. -/
structure Published where
  id : Nat
  block : Block
deriving Repr, DecidableEq

structure Store where
  options : Options
  directory : Directory Published
  ledger : Ledger
  nextId : Nat

namespace Store

/-- An empty store: one block without records. -/
def create (o : Options) : Except BadSetting Store := do
  o.check
  let (lease, arena) := (Arena.create o.tracked).allocate o.newBlock
  return {
    options := o
    directory := .root ⟨0, .create lease o.tuning true⟩
    ledger := ⟨arena, ({} : Counters).addBlocks 1⟩
    nextId := 1 }

def blocks (s : Store) : List Block := s.directory.toList.map (·.value.block)

def blockCount (s : Store) : Nat := s.directory.size

/-- Bytes of all capacities together. -/
def allocated (s : Store) : Nat := s.ledger.arena.allocated

/-- Live records, counted block by block. -/
def size (s : Store) : Nat := total Block.liveCount s.blocks

def isEmpty (s : Store) : Bool := s.size = 0

/-- Bytes of all records, tombstones included. -/
def usedBytes (s : Store) : Nat := total (·.used) s.blocks

/-- The entry of the block responsible for `key`. -/
def owner? (s : Store) (key : Bytes) : Except Fault (Entry Published) :=
  match s.directory.floor? key with
  | none => .error (.corruption .keyWithoutOwner)
  | some e => .ok e

def get (s : Store) (key : Bytes) : Except Fault (Option Bytes) := do
  (Record.checkKey key).mapError .misuse
  let e ← s.owner? key
  return e.value.block.get? key

/-- The length of the value stored under `key`, and the buffer with the value at its head. A value
longer than the buffer leaves it as it was. -/
def getInto (s : Store) (key buffer : Bytes) : Except Fault (Option Nat × Bytes) := do
  match ← s.get key with
  | none => return (none, buffer)
  | some value =>
    let filled := if value.length ≤ buffer.length then buffer.overwrite 0 value else buffer
    return (some value.length, filled)

def contains (s : Store) (key : Bytes) : Except Fault Bool := do
  (Record.checkKey key).mapError .misuse
  let e ← s.owner? key
  return (e.value.block.liveAt? key).isSome

/-- Compacts every block, and counts those that shrank. -/
def compactAll (s : Store) : Nat × Store :=
  let compact (state : Nat × Ledger) (p : Published) : Published × Nat × Ledger :=
    let (shrank, b, l) := p.block.compact state.2 true
    ({ p with block := b }, if shrank then state.1 + 1 else state.1, l)
  let (directory, count, ledger) := s.directory.mapState compact (0, s.ledger)
  (count, { s with directory := directory, ledger := ledger })

def describe (s : Store) : String :=
  s!"BigSortedMap \x7b blocks: {s.blockCount}, allocated: {s.allocated} \x7d"

end Store

end OrderedStore
