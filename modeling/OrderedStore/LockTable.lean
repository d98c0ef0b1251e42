import OrderedStore.Hash.Xxh64
import OrderedStore.Prime

/-! # Locks on keys

Keys share the locks of a table: a hash picks the shard of a key. Who locks several keys takes their
shards in ascending order, each one once, so that no two parties wait for each other.
-/

namespace OrderedStore

structure LockTable where
  /-- How many there are, a prime. -/
  shards : Nat
deriving Repr, DecidableEq

namespace LockTable

def defaultShards : Nat := 4099

/-- A table of at least `size` locks. -/
def create (size : Nat := defaultShards) : LockTable := ⟨Prime.leastFrom (max size 2)⟩

/-- The shard of a key, picked by any hash. -/
def shardBy (hash : Bytes → UInt64) (t : LockTable) (key : Bytes) : Nat :=
  (hash key).toNat % t.shards

def shardOf : LockTable → Bytes → Nat := shardBy Xxh64.hash

/-- The first of each run of equal neighbours. -/
def dedup : List Nat → List Nat
  | [] => []
  | [n] => [n]
  | m :: n :: rest => if m = n then dedup (n :: rest) else m :: dedup (n :: rest)

/-- The shards that guard `keys`, in the order in which they are locked. -/
def orderBy (hash : Bytes → UInt64) (t : LockTable) (keys : List Bytes) : List Nat :=
  dedup ((keys.mergeSort.map (t.shardBy hash)).mergeSort)

def order : LockTable → List Bytes → List Nat := orderBy Xxh64.hash

/-- How many locks a party holds that has locked `keys`, to read or to write. -/
def held (t : LockTable) (keys : List Bytes) : Nat := (t.order keys).length

def describe (t : LockTable) : String := s!"KeysLocker \x7b shards: {t.shards} \x7d"

end LockTable

end OrderedStore
