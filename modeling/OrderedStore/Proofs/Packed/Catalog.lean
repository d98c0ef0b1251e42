import OrderedStore.Packed.Map
import OrderedStore.Proofs.Packed.Chunks
import OrderedStore.Proofs.Store.Contents

/-! # The reference catalog

What a packed map is for is told by a map from fields to values for every user key. It cannot tell
whether a set is granted, since that depends on the sizes of the chunks that the set writes: for
them the layout keeps the chunks of every user key beside the fields. What is set and deleted
determines both, and no store occurs in either.
-/

namespace OrderedStore

namespace Packed

/-- The calls on a packed map. -/
inductive Map.Call where
  | set (user field value : Bytes)
  | get (user field : Bytes)
  | delete (user field : Bytes)
  | size (user : Bytes)
  | fields (user : Bytes)
deriving Repr, DecidableEq

/-- The user key and the field that a call is about. -/
def Map.Call.address? : Call → Option (Bytes × Bytes)
  | set user field _ | get user field | delete user field => some (user, field)
  | size _ | fields _ => none

/-- What a call that did not fail answers. -/
inductive Map.Answer where
  | set (result : SetResult)
  | value (stored : Option Bytes)
  | flag (holds : Bool)
  | number (n : Nat)
  | fields (fields : List Bytes)
deriving Repr, DecidableEq

/-- A field and its value. -/
def Element.row (e : Element) : Bytes × Bytes := (e.field, e.value)

/-- What belongs to each user key. -/
def PerUser (α : Type) := Bytes → α

namespace PerUser

variable {α : Type}

/-- What belongs to one user key is replaced. -/
def update (f : PerUser α) (user : Bytes) (a : α) : PerUser α :=
  fun other => if other = user then a else f other

theorem update_self (f : PerUser α) (user : Bytes) (a : α) : f.update user a user = a := if_pos rfl

theorem update_of_ne (f : PerUser α) {user other : Bytes} (different : other ≠ user) (a : α) :
    f.update user a other = f other := if_neg different

theorem update_eq_self (f : PerUser α) (user : Bytes) : f.update user (f user) = f := by
  funext other
  by_cases same : other = user
  · rw [same, update_self]
  · exact f.update_of_ne same _

end PerUser

/-- A map from fields to values for every user key. -/
abbrev Catalog := PerUser Contents

namespace Catalog

def empty : Catalog := fun _ => .empty

def set (c : Catalog) (user field value : Bytes) : Catalog :=
  c.update user ((c user).insert field value)

def erase (c : Catalog) (user field : Bytes) : Catalog :=
  c.update user ((c user).erase field)

theorem erase_of_absent {c : Catalog} {user field : Bytes} (absent : (c user).get? field = none) :
    c.erase user field = c := by
  rw [erase, Contents.erase_of_absent absent]
  exact c.update_eq_self user

theorem get?_erase (c : Catalog) (user field : Bytes) :
    (c.erase user field user).get? field = none := by
  rw [erase, PerUser.update_self, Contents.get?_erase, if_pos rfl]

theorem get?_erase_of_ne (c : Catalog) {user field other field' : Bytes}
    (different : (other, field') ≠ (user, field)) :
    (c.erase user field other).get? field' = (c other).get? field' := by
  by_cases same : other = user
  · subst same
    have elsewhere : field' ≠ field := fun same => different (same ▸ rfl)
    rw [erase, PerUser.update_self, Contents.get?_erase, if_neg elsewhere]
  · rw [erase, c.update_of_ne same]

end Catalog

/-- Whether chunks can be written: each has to fit a record, and its record a block of at most
`largest` bytes. The first that does not decides. -/
def admission (largest : Nat) : List Chunk → Except Misuse Bool
  | [] => .ok true
  | d :: ds =>
    if Record.maxValue < encodedSize d.elements then .error .valueTooLong
    else if largest < Record.sizeOf d.key.length (encodedSize d.elements) then .ok false
    else admission largest ds

theorem admission_eq_ok_true_iff {largest : Nat} {cs : List Chunk} :
    admission largest cs = .ok true ↔ ∀ d ∈ cs, encodedSize d.elements ≤ Record.maxValue
      ∧ Record.sizeOf d.key.length (encodedSize d.elements) ≤ largest := by
  induction cs with
  | nil => simp [admission]
  | cons d cs ih =>
      rw [admission, List.forall_mem_cons, ← ih]
      by_cases long : Record.maxValue < encodedSize d.elements
      · simp [long, Nat.not_le.mpr long]
      · by_cases large : largest < Record.sizeOf d.key.length (encodedSize d.elements)
        · simp [long, large, Nat.not_le.mpr large]
        · simp [long, large, Nat.not_lt.mp long, Nat.not_lt.mp large]

/-- The chunks of every user key. -/
abbrev Layout := PerUser (List Chunk)

namespace Layout

def empty : Layout := fun _ => []

/-- The chunks that a set writes: the one found for the field, with the field in its place, whole or
in two. -/
def renewed (l : Layout) (p : Options) (user field value : Bytes) : List Chunk :=
  divided (stem user) p.maxValueSize
    ((opened (stem user) (chunkAt? (stem user ++ field) (l user))).including ⟨field, value⟩)

def set (l : Layout) (p : Options) (user field value : Bytes) : Layout :=
  l.update user (chunksBefore (stem user ++ field) (l user)
    ++ (l.renewed p user field value ++ chunksBehind (stem user ++ field) (l user)))

def erase (l : Layout) (user field : Bytes) : Layout :=
  l.update user ((l user).flatMap (remaining field))

/-- Whether a set is granted. -/
def grants (l : Layout) (o : OrderedStore.Options) (p : Options) (user field value : Bytes) :
    Except Misuse Bool :=
  if Varint.limit ≤ value.length then .error .packedValueTooLong
  else admission o.largestBlock (l.renewed p user field value)

end Layout

namespace Catalog

/-- The answers that a catalog gives to a call, and the catalog after it. The layout tells whether a
set is granted, and changes with the catalog. -/
inductive Step (o : OrderedStore.Options) (p : Options) (c : Catalog) (l : Layout) :
    Map.Call → Except Fault Map.Answer → Catalog → Layout → Prop where
  | outside {call : Map.Call} {user field : Bytes} (cause : Misuse) :
      call.address? = some (user, field) → ¬Addressable user field →
      Step o p c l call (.error (.misuse cause)) c l
  | inserted {user field value : Bytes} : Addressable user field →
      l.grants o p user field value = .ok true → (c user).get? field = none →
      Step o p c l (.set user field value) (.ok (.set .inserted)) (c.set user field value)
        (l.set p user field value)
  | replaced {user field value old : Bytes} : Addressable user field →
      l.grants o p user field value = .ok true → (c user).get? field = some old →
      Step o p c l (.set user field value) (.ok (.set .replaced)) (c.set user field value)
        (l.set p user field value)
  /-- A chunk that would be written takes more than a block has. -/
  | refused {user field value : Bytes} : Addressable user field →
      l.grants o p user field value = .ok false →
      Step o p c l (.set user field value) (.ok (.set .refused)) c l
  /-- The value, or a chunk that would be written, takes more than a record can have. -/
  | failed {user field value : Bytes} {cause : Misuse} : Addressable user field →
      l.grants o p user field value = .error cause →
      Step o p c l (.set user field value) (.error (.misuse cause)) c l
  | get {user field : Bytes} : Addressable user field →
      Step o p c l (.get user field) (.ok (.value ((c user).get? field))) c l
  | delete {user field : Bytes} : Addressable user field →
      Step o p c l (.delete user field) (.ok (.flag ((c user).get? field).isSome))
        (c.erase user field) (l.erase user field)
  | size {user : Bytes} : user.length < 4294967296 →
      Step o p c l (.size user) (.ok (.number (c user).size)) c l
  | fields {user : Bytes} : user.length < 4294967296 →
      Step o p c l (.fields user) (.ok (.fields ((c user).rows.map (·.1)))) c l
  | sizeOutside {user : Bytes} : 4294967296 ≤ user.length →
      Step o p c l (.size user) (.error (.misuse .userKeyTooLong)) c l
  | fieldsOutside {user : Bytes} : 4294967296 ≤ user.length →
      Step o p c l (.fields user) (.error (.misuse .userKeyTooLong)) c l

/-- The answers that a catalog gives to calls in their order, and the catalog after them. -/
inductive Runs (o : OrderedStore.Options) (p : Options) : Catalog → Layout → List Map.Call →
    List (Except Fault Map.Answer) → Catalog → Layout → Prop where
  | nil {c : Catalog} {l : Layout} : Runs o p c l [] [] c l
  | cons {c c' c'' : Catalog} {l l' l'' : Layout} {call : Map.Call} {calls : List Map.Call}
      {answer : Except Fault Map.Answer} {answers : List (Except Fault Map.Answer)} :
      c.Step o p l call answer c' l' → Runs o p c' l' calls answers c'' l'' →
      Runs o p c l (call :: calls) (answer :: answers) c'' l''

end Catalog

end Packed

end OrderedStore
