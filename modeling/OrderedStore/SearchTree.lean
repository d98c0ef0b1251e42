import OrderedStore.Tree

/-! # Members found by their keys

The members of a search tree lie in strictly ascending order of their keys, so that there is at most
one for each key. What an operation finds or leaves is said in terms of the list of the members.
-/

namespace OrderedStore

structure SearchTree {α κ : Type} [LT κ] (key : α → κ) where
  tree : Tree α
  sized : tree.Sized
  ascending : Ascending key tree.toList

namespace SearchTree

variable {α β σ κ : Type} [LT κ] {key : α → κ}

def empty : SearchTree key := ⟨.empty, trivial, .nil⟩

def singleton (a : α) : SearchTree key := ⟨.join .empty a .empty, ⟨rfl, trivial, trivial⟩, by
  simp [Tree.toList, Ascending]⟩

def toList (t : SearchTree key) : List α := t.tree.toList

def size (t : SearchTree key) : Nat := t.tree.size

def isEmpty (t : SearchTree key) : Bool := t.size = 0

@[simp] theorem toList_empty : (empty : SearchTree key).toList = [] := rfl

@[simp] theorem toList_singleton (a : α) : (singleton a : SearchTree key).toList = [a] := rfl

@[simp] theorem length_toList (t : SearchTree key) : t.toList.length = t.size :=
  t.sized.size_eq.symm

/-- The tree with `f` done to its members from the first to the last, and the state after it. What
it does to a member leaves the key. -/
def mapState {key' : β → κ} (t : SearchTree key) (f : σ → α → β × σ)
    (keeps : ∀ state a, key' (f state a).1 = key a) (state : σ) : SearchTree key' × σ :=
  let mapped := t.tree.mapState f state
  ({ tree := mapped.1
     sized := Tree.sized_mapState f state t.sized
     ascending := by
      have members : (t.tree.mapState f state).1.toList = _ :=
        congrArg Prod.fst (Tree.mapState_eq f state t.tree)
      rw [Ascending, ← List.pairwise_map, members, Tree.map_mapMembers keeps]
      exact List.pairwise_map.2 t.ascending }, mapped.2)

def first? (t : SearchTree key) : Option α := (t.tree.around (fun _ => false) none none).2

def last? (t : SearchTree key) : Option α := (t.tree.around (fun _ => true) none none).1

/-- The first answer to be had from any member, from the least of them on. -/
def findSome? (t : SearchTree key) (f : α → Option β) : Option β :=
  t.tree.findUp? (fun _ => false) f

/-- The first answer to be had from any member, from the greatest of them on. -/
def findSomeRev? (t : SearchTree key) (f : α → Option β) : Option β :=
  t.tree.findDown? (fun _ => true) f

theorem first?_eq (t : SearchTree key) : t.first? = t.toList.head? := by
  rw [first?, Tree.around_eq (List.pairwise_of_forall (by simp)), Option.or_none, Option.or_none]
  exact congrArg List.head? (List.filter_eq_self.2 (by simp))

theorem last?_eq (t : SearchTree key) : t.last? = t.toList.getLast? := by
  rw [last?, Tree.around_eq (List.pairwise_of_forall (by simp)), Option.or_none, Option.or_none]
  exact congrArg List.getLast? (List.filter_eq_self.2 (by simp))

theorem findSome?_eq (t : SearchTree key) (f : α → Option β) :
    t.findSome? f = t.toList.findSome? f := by
  rw [findSome?, Tree.findUp?_eq (List.pairwise_of_forall (by simp)),
    List.filter_eq_self.2 (by simp), toList]

theorem findSomeRev?_eq (t : SearchTree key) (f : α → Option β) :
    t.findSomeRev? f = t.toList.reverse.findSome? f := by
  rw [findSomeRev?, Tree.findDown?_eq (List.pairwise_of_forall (by simp)),
    List.filter_eq_self.2 (by simp), toList]

theorem mapState_eq {key' : β → κ} (t : SearchTree key) (f : σ → α → β × σ)
    (keeps : ∀ state a, key' (f state a).1 = key a) (state : σ) :
    ((t.mapState f keeps state).1.toList, (t.mapState f keeps state).2) =
      Tree.mapMembers f state t.toList := Tree.mapState_eq f state t.tree

theorem mapState_eq_self {t : SearchTree key} {f : σ → α → α × σ}
    (keeps : ∀ state a, key (f state a).1 = key a) {state : σ}
    (fixed : ∀ a ∈ t.toList, f state a = (a, state)) : t.mapState f keeps state = (t, state) := by
  have same : t.tree.mapState f state = (t.tree, state) := Tree.mapState_eq_self fixed
  simp only [mapState, same]

variable [DecidableLT κ]

def below? (t : SearchTree key) (k : κ) : Option α := (t.tree.around (key · < k) none none).1

/-- The greatest member at or below `k` and the least one above it. -/
def around (t : SearchTree key) (k : κ) : Option α × Option α :=
  t.tree.around (¬k < key ·) none none

def get? (t : SearchTree key) (k : κ) : Option α :=
  (t.tree.around (key · < k) none none).2.filter (¬k < key ·)

/-- The first answer to be had from the members below `k`, from the greatest of them on. -/
def findBelow? (t : SearchTree key) (k : κ) (f : α → Option β) : Option β :=
  t.tree.findDown? (key · < k) f

/-- The first answer to be had from the members at or below `k`, from the greatest of them on. -/
def findUpTo? (t : SearchTree key) (k : κ) (f : α → Option β) : Option β :=
  t.tree.findDown? (¬k < key ·) f

/-- The first answer to be had from the members above `k`, from the least of them on. -/
def findAbove? (t : SearchTree key) (k : κ) (f : α → Option β) : Option β :=
  t.tree.findUp? (¬k < key ·) f

variable [LE κ] [Std.IsLinearOrder κ] [Std.LawfulOrderLT κ]

def insert (t : SearchTree key) (a : α) : SearchTree key where
  tree := t.tree.insert key a
  sized := Tree.sized_insert a t.sized
  ascending := by
    rw [Tree.toList_insert t.ascending]
    exact t.ascending.ascending_inserted a

def erase (t : SearchTree key) (k : κ) : SearchTree key where
  tree := t.tree.erase key k
  sized := Tree.sized_erase k t.sized
  ascending := by
    classical
    rw [Tree.toList_erase t.ascending]
    exact t.ascending.filter _

@[simp] theorem toList_insert (t : SearchTree key) (a : α) :
    (t.insert a).toList = Ascending.inserted key a t.toList := Tree.toList_insert t.ascending a

@[simp] theorem toList_erase [DecidableEq κ] (t : SearchTree key) (k : κ) :
    (t.erase k).toList = t.toList.filter (key · ≠ k) := Tree.toList_erase t.ascending k

variable (t : SearchTree key) (k : κ) (f : α → Option β)

theorem below?_eq : t.below? k = (t.toList.filter (key · < k)).getLast? := by
  rw [below?, Tree.around_eq (t.ascending.imp fun {a b} less => by grind), Option.or_none]
  rfl

theorem around_eq [DecidableLE κ] :
    t.around k =
      ((t.toList.filter (key · ≤ k)).getLast?, (t.toList.filter (k < key ·)).head?) := by
  rw [around, Tree.around_eq (t.ascending.imp fun {a b} less => by grind), Option.or_none,
    Option.or_none]
  congr 3 <;> grind

theorem get?_eq [DecidableEq κ] : t.get? k = t.toList.find? (key · = k) := by
  obtain ⟨low, same, high, eq, below, equal, above⟩ := Ascending.exists_eq_append t.ascending k
  have none_low : low.filter (fun a => !decide (key a < k)) = [] := by simpa using below
  have all_high : (same.toList ++ high).filter (fun a => !decide (key a < k))
      = same.toList ++ high := List.filter_eq_self.2 (by simp; grind)
  have not_low : low.find? (key · = k) = none := by simp; grind
  have not_high : high.find? (key · = k) = none := by simp; grind
  rw [get?, Tree.around_eq (t.ascending.imp fun {a b} less => by grind), Option.or_none,
    Option.or_none]
  dsimp only
  rw [toList, eq, List.filter_append, none_low, all_high, List.find?_append, List.find?_append,
    not_low, not_high]
  cases same with
  | some a => simp_all
  | none => cases high <;> simp_all

theorem findBelow?_eq : t.findBelow? k f = (t.toList.filter (key · < k)).reverse.findSome? f :=
  Tree.findDown?_eq (t.ascending.imp fun {a b} less => by grind) f

theorem findUpTo?_eq [DecidableLE κ] :
    t.findUpTo? k f = (t.toList.filter (key · ≤ k)).reverse.findSome? f := by
  rw [findUpTo?, Tree.findDown?_eq (t.ascending.imp fun {a b} less => by grind)]
  congr 3
  grind

theorem findAbove?_eq : t.findAbove? k f = (t.toList.filter (k < key ·)).findSome? f := by
  rw [findAbove?, Tree.findUp?_eq (t.ascending.imp fun {a b} less => by grind)]
  congr 2
  grind

end SearchTree

end OrderedStore
