import OrderedStore.SearchTree

/-! # Directories

A directory maps anchors to what is published under them, in the order of the anchors. Published
under an anchor is whatever is responsible for the keys from there to the next anchor, so the one
responsible for a key has the greatest anchor at or below it.
-/

namespace OrderedStore

/-- Something published, with its anchor. -/
structure Entry (α : Type) where
  anchor : Bytes
  value : α
deriving Repr, DecidableEq

/-- What is published, in the order of the anchors. -/
abbrev Directory (α : Type) := SearchTree fun e : Entry α => e.anchor

namespace Directory

variable {α β : Type} (d : Directory α)

/-- A directory with one entry, responsible for every key. -/
def root (value : α) : Directory α := .singleton ⟨[], value⟩

/-- The entry responsible for `key`. -/
def floor? (key : Bytes) : Option (Entry α) := (d.around key).1

def lower? (key : Bytes) : Option (Entry α) := d.below? key

def higher? (key : Bytes) : Option (Entry α) := (d.around key).2

/-- The first answer to be had from the entry responsible for `key` and those above it, from the
least of them on. -/
def findOnward? (key : Bytes) (f : Entry α → Option β) : Option β :=
  (d.floor? key).bind f <|> d.findAbove? key f

def published? (anchor : Bytes) : Option α := (d.get? anchor).map (·.value)

/-- Publishes `value` under `anchor`, instead of what was published there. -/
def publish (anchor : Bytes) (value : α) : Directory α := d.insert ⟨anchor, value⟩

/-- Removes `anchor` if it names what is wanted, and tells whether it did. -/
def retire (anchor : Bytes) (wanted : α → Bool) : Bool × Directory α :=
  if (d.published? anchor).any wanted then (true, d.erase anchor) else (false, d)

/-- The directory with `f` done to its values from the first to the last, and the state after it. -/
def mapState {σ : Type} (f : σ → α → β × σ) (state : σ) : Directory β × σ :=
  SearchTree.mapState d
    (fun state e =>
      let (value, state) := f state e.value
      (⟨e.anchor, value⟩, state))
    (fun _ _ => rfl) state

def describe : String := s!"BlockIndex \x7b blocks: {d.size} \x7d"

@[simp] theorem toList_root (value : α) : (root value).toList = [⟨[], value⟩] := rfl

@[simp] theorem toList_publish (anchor : Bytes) (value : α) :
    (d.publish anchor value).toList =
      Ascending.inserted (fun e : Entry α => e.anchor) ⟨anchor, value⟩ d.toList :=
  SearchTree.toList_insert d ⟨anchor, value⟩

theorem floor?_eq (key : Bytes) : d.floor? key = (d.toList.filter (·.anchor ≤ key)).getLast? := by
  rw [floor?, SearchTree.around_eq]

theorem lower?_eq (key : Bytes) : d.lower? key = (d.toList.filter (·.anchor < key)).getLast? :=
  SearchTree.below?_eq d key

theorem higher?_eq (key : Bytes) : d.higher? key = (d.toList.filter (key < ·.anchor)).head? := by
  rw [higher?, SearchTree.around_eq]

theorem findOnward?_eq (key : Bytes) (f : Entry α → Option β) :
    d.findOnward? key f =
      ((d.floor? key).toList ++ d.toList.filter (key < ·.anchor)).findSome? f := by
  rw [findOnward?, SearchTree.findAbove?_eq]
  cases d.floor? key with
  | none => simp
  | some e => cases answer : f e <;> simp [answer]

theorem published?_eq (anchor : Bytes) :
    d.published? anchor = (d.toList.find? (·.anchor = anchor)).map (·.value) := by
  rw [published?, SearchTree.get?_eq]

theorem mapState_eq_self {σ : Type} {f : σ → α → α × σ} {state : σ}
    (fixed : ∀ e ∈ d.toList, f state e.value = (e.value, state)) :
    d.mapState f state = (d, state) :=
  SearchTree.mapState_eq_self _ fun e member => by simp only [fixed e member]

end Directory

end OrderedStore
