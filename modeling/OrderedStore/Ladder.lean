/-! # Capacities of blocks

A block grows through nine capacities, fixed sixteenths of the largest one.
-/

namespace OrderedStore

/-- The capacities of blocks of at most `max` bytes. -/
structure Ladder where
  max : Nat
deriving Repr, DecidableEq

namespace Ladder

/-- The capacities, as sixteenths of the largest. -/
def sixteenths : List Nat := [1, 2, 4, 6, 8, 10, 12, 14, 16]

def classes (l : Ladder) : List Nat := sixteenths.map fun s => l.max * s / 16

def contains (l : Ladder) (size : Nat) : Bool := l.classes.contains size

def above? (l : Ladder) (size : Nat) : Option Nat := l.classes.find? (size < ·)

def holding? (l : Ladder) (bytes : Nat) : Option Nat := l.classes.find? (bytes ≤ ·)

theorem le_max_of_mem {l : Ladder} {c : Nat} (h : c ∈ l.classes) : c ≤ l.max := by
  simp only [classes, sixteenths, List.mem_map, List.mem_cons, List.not_mem_nil, or_false] at h
  rcases h with ⟨s, rfl | rfl | rfl | rfl | rfl | rfl | rfl | rfl | rfl, rfl⟩ <;> omega

theorem max_mem_classes (l : Ladder) : l.max ∈ l.classes :=
  List.mem_map.2 ⟨16, by decide, by omega⟩

theorem lt_of_above? {l : Ladder} {size c : Nat} (h : l.above? size = some c) : size < c := by
  simpa using List.find?_some h

theorem le_of_holding? {l : Ladder} {bytes c : Nat} (h : l.holding? bytes = some c) :
    bytes ≤ c := by
  simpa using List.find?_some h

end Ladder

end OrderedStore
