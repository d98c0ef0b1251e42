import OrderedStore.Operation
import OrderedStore.Packed.Value
import OrderedStore.Packed.Chunk

/-! # Operations on one field

The chunk that holds a field has the greatest chunk key at or below the user key's common part
followed by the field. A record found there that is no chunk of the user key counts as none.
-/

namespace OrderedStore.Packed

/-- The common part of a user key's chunks, for looking up a field that is not empty. -/
def lookupPrefix (user field : Bytes) : Except Misuse Bytes :=
  if field.isEmpty then .error .packedFieldMissing else chunkPrefix user

structure SetReport where
  /-- The field was not there before. -/
  inserted : Bool
  /-- The numbers of elements on the two sides, when the chunk was split. -/
  split : Option (Nat × Nat)
deriving Repr, DecidableEq

/-- Asks for `elements` to be stored as the chunk `key`. The write is asked for before its value is
known to have a written form. -/
def pushChunk (changes : Changes) (key : Bytes) (elements : List Element) :
    Except Misuse Unit × Changes :=
  let encoded := encode elements
  match changes.push (.put key (encoded.toOption.getD [])) with
  | .error cause => (.error cause, changes)
  | .ok changes => (encoded.map fun _ => (), changes)

/-- The found record, if it is a chunk. -/
def chunkOf? (common : Bytes) (found : Option Found) : Option Found :=
  found.filter fun record => isChunkOf record.key common

/-- A chunk's key and elements; the first chunk, without elements, when there is none. -/
def openChunk (common : Bytes) (found : Option Found) :
    Except Corruption (Bytes × List Element) :=
  match chunkOf? common found with
  | some record => (parse record.value).map (record.key, ·)
  | none => .ok (common ++ firstMarker, [])

/-- Where to split elements, when they take more than `threshold` bytes. -/
def splitAbove? (threshold : Nat) (elements : List Element) : Option Nat :=
  if threshold < encodedSize elements then splitPoint elements else none

def runSet (common field value : Bytes) (threshold : Nat) (report : SetReport)
    (found : Option Found) (changes : Changes) : Outcome SetReport :=
  match openChunk common found with
  | .error cause => ⟨.error (.corruption cause), changes, report⟩
  | .ok (key, old) =>
    let inserted := (lookup field old).isNone
    let elements := insert ⟨field, value⟩ old
    match splitAbove? threshold elements with
    | none =>
      match pushChunk changes key elements with
      | (.error cause, changes) => ⟨.error (.misuse cause), changes, report⟩
      | (.ok (), changes) => ⟨.ok true, changes, ⟨inserted, none⟩⟩
    | some boundary =>
      let left := elements.take boundary
      let right := elements.drop boundary
      match pushChunk changes key left with
      | (.error cause, changes) => ⟨.error (.misuse cause), changes, report⟩
      | (.ok (), changes) =>
        let marker := (right.head?.map (·.field)).getD []
        match pushChunk changes (common ++ marker) right with
        | (.error cause, changes) => ⟨.error (.misuse cause), changes, report⟩
        | (.ok (), changes) => ⟨.ok true, changes, ⟨inserted, some (left.length, right.length)⟩⟩

/-- Stores `value` under `field`; a chunk that outgrows `threshold` bytes becomes two. -/
def setField (user field value : Bytes) (threshold : Nat) :
    Except Misuse (Operation SetReport) := do
  Element.check field value
  let common ← lookupPrefix user field
  return {
    key := common ++ field
    floor := true
    readOnly := false
    initial := ⟨false, none⟩
    run := runSet common field value threshold }

def runGet (common field : Bytes) (report : Option Bytes) (found : Option Found)
    (changes : Changes) : Outcome (Option Bytes) :=
  match chunkOf? common found with
  | none => ⟨.ok false, changes, none⟩
  | some record =>
    match parse record.value with
    | .error cause => ⟨.error (.corruption cause), changes, report⟩
    | .ok elements =>
      let value? := lookup field elements
      ⟨.ok value?.isSome, changes, value?⟩

/-- Reports the value of `field`, and refuses when there is none. -/
def getField (user field : Bytes) : Except Misuse (Operation (Option Bytes)) := do
  let common ← lookupPrefix user field
  return {
    key := common ++ field
    floor := true
    readOnly := true
    initial := none
    run := runGet common field }

def runDelete (common field : Bytes) (found : Option Found) (changes : Changes) : Outcome Bool :=
  match chunkOf? common found with
  | none => ⟨.ok false, changes, false⟩
  | some record =>
    match parse record.value with
    | .error cause => ⟨.error (.corruption cause), changes, false⟩
    | .ok elements =>
      if (lookup field elements).isNone then ⟨.ok false, changes, false⟩
      else
        let rest := erase field elements
        if rest.isEmpty then
          match changes.push (.delete record.key) with
          | .error cause => ⟨.error (.misuse cause), changes, false⟩
          | .ok changes => ⟨.ok true, changes, true⟩
        else
          match pushChunk changes record.key rest with
          | (.error cause, changes) => ⟨.error (.misuse cause), changes, false⟩
          | (.ok (), changes) => ⟨.ok true, changes, false⟩

/-- Removes `field`, and refuses when it is not there; a chunk left without fields goes with it,
which is what the report says. -/
def deleteField (user field : Bytes) : Except Misuse (Operation Bool) := do
  let common ← lookupPrefix user field
  return {
    key := common ++ field
    floor := true
    readOnly := false
    initial := false
    run := fun _ => runDelete common field }

end OrderedStore.Packed
