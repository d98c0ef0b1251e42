import OrderedStore.Bytes.Varint
import OrderedStore.Total

/-! # Fields of a packed value

A packed value holds fields with their values, sorted by field. An element is one of them.
-/

namespace OrderedStore.Packed

structure Element where
  field : Bytes
  value : Bytes
deriving Repr, DecidableEq

namespace Element

/-- Bytes taken by an element: two varints, the field and the value. -/
def size (e : Element) : Nat :=
  Varint.size e.field.length + Varint.size e.value.length + e.field.length + e.value.length

/-- Fields and values whose lengths have a varint. -/
def check (field value : Bytes) : Except Misuse Unit :=
  if Varint.limit ≤ field.length then .error .packedFieldTooLong
  else if Varint.limit ≤ value.length then .error .packedValueTooLong
  else .ok ()

theorem size_pos (e : Element) : 0 < e.size := by
  have : 0 < Varint.size e.field.length := by
    unfold Varint.size
    repeat' split
    all_goals omega
  unfold size
  omega

end Element

/-- The value of `field` among elements sorted by field. -/
def lookup (field : Bytes) : List Element → Option Bytes
  | [] => none
  | e :: rest =>
    if e.field = field then some e.value
    else if field < e.field then none
    else lookup field rest

/-- Sorted elements with `new` in its place, instead of an element with the same field. -/
def insert (new : Element) : List Element → List Element
  | [] => [new]
  | e :: rest =>
    if e.field < new.field then e :: insert new rest
    else if e.field = new.field then new :: rest
    else new :: e :: rest

/-- Sorted elements without the one of `field`. -/
def erase (field : Bytes) : List Element → List Element
  | [] => []
  | e :: rest => if e.field = field then rest else e :: erase field rest

/-- Walks along the boundaries between elements while the two sides come nearer to each other in
size. `left` bytes lie before `boundary`, and `best` is the difference there. -/
def balance (all : Nat) (left best boundary : Nat) : List Nat → Nat
  | [] => boundary
  | size :: rest =>
    let left := left + size
    let difference := (left - (all - left)) + ((all - left) - left)
    if difference ≤ best then balance all left difference (boundary + 1) rest else boundary

/-- How many elements belong into the left part when a value splits in two: the boundary with the
two parts nearest in size, the later one of two that are equally near. -/
def splitPoint (elements : List Element) : Option Nat :=
  match elements.map Element.size with
  | first :: second :: rest =>
    let all := total Element.size elements
    let difference := (first - (all - first)) + ((all - first) - first)
    some (balance all first difference 1 ((second :: rest).dropLast))
  | _ => none

end OrderedStore.Packed
