import OrderedStore.Record.Layout
import OrderedStore.Total

/-! # Runs of records

A run is the content of one block: records in strictly ascending key order, tombstones among them.
-/

namespace OrderedStore

/-- Records in key order. -/
abbrev Run := List Record

namespace Run

def size (run : Run) : Nat := total Record.size run

def encode (run : Run) : Bytes := run.flatMap Record.encode

/-- Each record with its offset, the first one at `offset`. -/
def place (offset : Nat) : Run → List Record.Placed
  | [] => []
  | r :: rest => ⟨offset, r⟩ :: place (offset + r.size) rest

/-- The tombstones a compaction removes: all but a first one. -/
def removable (run : Run) : Run := run.tail.filter (·.deleted)

/-- The run without them. -/
def compact : Run → Run
  | [] => []
  | first :: rest => first :: rest.filter (!·.deleted)

def liveSize (run : Run) : Nat := size (run.filter (!·.deleted))

def tombstones (run : Run) : Nat := run.countP (·.deleted)

theorem size_append (a b : Run) : size (a ++ b) = size a + size b := by
  simp [size]

theorem size_cons (r : Record) (run : Run) : size (r :: run) = r.size + size run := by
  simp [size]

end Run

end OrderedStore
