import OrderedStore.Block
import OrderedStore.Fault
import OrderedStore.Toml.Document

/-! # Options of a store

Options that pass `check` describe a store that can be opened. A document of settings changes the
options that it names and leaves the rest at their defaults.
-/

namespace OrderedStore

structure Options where
  largestBlock : Nat := 4096
  newBlock : Nat := 256
  /-- Writes are refused while this many bytes or more are in use. -/
  memoryCeiling : Option Nat := none
  compactionRatio : Float := 0.25
  mergeRatio : Float := 0.5
  /-- Whether the arena keeps a table of its regions. -/
  tracked : Bool := false
deriving Repr, DecidableEq

namespace Options

def leastBlock : Nat := 64

def mostBlock : Nat := 65536

def ladder (o : Options) : Ladder := ⟨o.largestBlock⟩

def tuning (o : Options) : Tuning := ⟨o.ladder, o.compactionRatio, o.mergeRatio⟩

/-- Ratios lie above zero and do not exceed one. -/
def checkRatio (name : String) (value : Float) : Except BadSetting Unit :=
  if 0 < value && value ≤ 1 then .ok () else .error (.ratio name value)

/-- Names the first setting that no store can have. -/
def check (o : Options) : Except BadSetting Unit := do
  if o.largestBlock < leastBlock ∨ mostBlock < o.largestBlock ∨ o.largestBlock % 16 ≠ 0 then
    throw (.blockSize o.largestBlock leastBlock mostBlock)
  if !o.ladder.contains o.newBlock then throw (.initialSize o.newBlock o.largestBlock)
  checkRatio "compaction_ratio" o.compactionRatio
  checkRatio "merge_ratio" o.mergeRatio

/-- The options with one of them set; unknown names and values of another type give none. -/
def set? (o : Options) (setting : Toml.Setting) : Option Options :=
  let (name, value) := setting
  match name with
  | "max_block_size" => value.size?.map fun n => { o with largestBlock := n }
  | "initial_block_size" => value.size?.map fun n => { o with newBlock := n }
  | "max_memory" => value.size?.map fun n => { o with memoryCeiling := some n }
  | "compaction_ratio" => value.ratio?.map fun x => { o with compactionRatio := x }
  | "merge_ratio" => value.ratio?.map fun x => { o with mergeRatio := x }
  | "track_allocations" => value.flag?.map fun b => { o with tracked := b }
  | _ => none

def ofDocument (text : String) : Except BadSetting Options := do
  match Toml.configure? set? {} text with
  | none => throw .document
  | some o =>
    o.check
    return o

/-- The options in a file of the given content, if there is a file. -/
def ofFile (content : Option Bytes) : Except Fault Options :=
  match content.bind fun bytes => String.fromUTF8? ⟨bytes.toArray⟩ with
  | none => .error .unreadable
  | some text => (ofDocument text).mapError .setting

end Options

end OrderedStore
