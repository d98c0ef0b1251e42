import OrderedStore.Fault
import OrderedStore.Packed.Value
import OrderedStore.Toml.Document

/-! # Options of a packed map -/

namespace OrderedStore.Packed

structure Options where
  /-- A chunk that takes more bytes than this splits in two. -/
  maxValueSize : Nat := 512
deriving Repr, DecidableEq

namespace Options

/-- The least size of a chunk that holds an element: its count, two varints and a field. -/
def leastSize : Nat := countSize + 3

def check (o : Options) : Except BadSetting Unit :=
  if o.maxValueSize < leastSize then .error (.packedSize o.maxValueSize) else .ok ()

def set? (o : Options) (setting : Toml.Setting) : Option Options :=
  if setting.1 = "max_value_size" then
    setting.2.size?.map fun n => { o with maxValueSize := n }
  else none

def ofDocument (text : String) : Except BadSetting Options := do
  match Toml.configure? set? {} text with
  | none => throw .document
  | some o =>
    o.check
    return o

def describe (o : Options) : String :=
  s!"PackedOptions \x7b max_value_size: {o.maxValueSize} \x7d"

end Options

end OrderedStore.Packed
