import OrderedStore.Ascending

/-! # Search trees

A tree holds members in an order, each with those before it on one side and those after it on the
other. Every node knows how many members it has, and where one side would have more than three times
as many as the other, a rotation moves some of them over, so that no member lies deep. The lemmas
say what each operation does to the list of the members.
-/

namespace OrderedStore

inductive Tree (α : Type) where
  | empty
  | node (size : Nat) (low : Tree α) (member : α) (high : Tree α)

namespace Tree

section

variable {α β σ : Type}

def size : Tree α → Nat
  | empty => 0
  | node n .. => n

def toList : Tree α → List α
  | empty => []
  | node _ low a high => low.toList ++ a :: high.toList

/-- Every node knows how many members it has. -/
def Sized : Tree α → Prop
  | empty => True
  | node n low _ high => n = low.size + high.size + 1 ∧ low.Sized ∧ high.Sized

def join (low : Tree α) (a : α) (high : Tree α) : Tree α :=
  node (low.size + high.size + 1) low a high

/-- A member between two trees, where members of the second move to the side of the first. -/
def joinLow (low : Tree α) (a : α) : Tree α → Tree α
  | empty => join low a empty
  | node _ (node m inner b outer) c high =>
    if m < 2 * high.size then join (join low a (node m inner b outer)) c high
    else join (join low a inner) b (join outer c high)
  | node _ empty c high => join (join low a empty) c high

/-- A member between two trees, where members of the first move to the side of the second. -/
def joinHigh (a : α) (high : Tree α) : Tree α → Tree α
  | empty => join empty a high
  | node _ low b (node m outer c inner) =>
    if m < 2 * low.size then join low b (join (node m outer c inner) a high)
    else join (join low b outer) c (join inner a high)
  | node _ low b empty => join low b (join empty a high)

/-- A member between two trees, neither of which outweighs the other by much. -/
def balance (low : Tree α) (a : α) (high : Tree α) : Tree α :=
  if low.size + high.size ≤ 1 then join low a high
  else if 3 * low.size < high.size then joinLow low a high
  else if 3 * high.size < low.size then joinHigh a high low
  else join low a high

/-- The first of the members of `low`, `a` and `high`, and the others. -/
def uncons (a : α) (high : Tree α) : Tree α → α × Tree α
  | empty => (a, high)
  | node _ low b inner =>
    let (first, rest) := uncons b inner low
    (first, balance rest a high)

def append (low : Tree α) : Tree α → Tree α
  | empty => low
  | node _ inner a high =>
    let (first, rest) := uncons a high inner
    balance low first rest

/-- The last of the members that pass a test and the first of those that fail, if those that pass
come first. Where there is none, it is the given one. -/
def around (test : α → Bool) (last first : Option α) : Tree α → Option α × Option α
  | empty => (last, first)
  | node _ low a high =>
    if test a then high.around test (some a) first else low.around test last (some a)

/-- The first answer to be had from the members that pass a test, from the last of them on, if they
come before those that fail. -/
def findDown? (test : α → Bool) (f : α → Option β) : Tree α → Option β
  | empty => none
  | node _ low a high =>
    if test a then high.findDown? test f <|> f a <|> low.findDown? test f
    else low.findDown? test f

/-- The first answer to be had from the members that fail a test, from the first of them on, if they
come behind those that pass. -/
def findUp? (test : α → Bool) (f : α → Option β) : Tree α → Option β
  | empty => none
  | node _ low a high =>
    if test a then high.findUp? test f
    else low.findUp? test f <|> f a <|> high.findUp? test f

/-- The list with `f` done to its members from the first to the last, and the state after it. -/
def mapMembers (f : σ → α → β × σ) (state : σ) : List α → List β × σ
  | [] => ([], state)
  | a :: rest =>
    let (b, state) := f state a
    let (rest, state) := mapMembers f state rest
    (b :: rest, state)

/-- The tree with `f` done to its members from the first to the last, and the state after it. -/
def mapState (f : σ → α → β × σ) (state : σ) : Tree α → Tree β × σ
  | empty => (empty, state)
  | node n low a high =>
    let (low, state) := mapState f state low
    let (b, state) := f state a
    let (high, state) := mapState f state high
    (node n low b high, state)

@[simp] theorem toList_join (low : Tree α) (a : α) (high : Tree α) :
    (join low a high).toList = low.toList ++ a :: high.toList := rfl

@[simp] theorem toList_joinLow (low : Tree α) (a : α) (high : Tree α) :
    (joinLow low a high).toList = low.toList ++ a :: high.toList := by
  unfold joinLow
  repeat' split
  all_goals simp [toList]

@[simp] theorem toList_joinHigh (low : Tree α) (a : α) (high : Tree α) :
    (joinHigh a high low).toList = low.toList ++ a :: high.toList := by
  unfold joinHigh
  repeat' split
  all_goals simp [toList]

@[simp] theorem toList_balance (low : Tree α) (a : α) (high : Tree α) :
    (balance low a high).toList = low.toList ++ a :: high.toList := by
  unfold balance
  repeat' split
  all_goals simp

@[simp] theorem toList_uncons (a : α) (high low : Tree α) :
    (uncons a high low).1 :: (uncons a high low).2.toList = low.toList ++ a :: high.toList := by
  induction low generalizing a high with
  | empty => rfl
  | node n low b inner ih _ => simp [uncons, toList, ← ih]

@[simp] theorem toList_append (low high : Tree α) :
    (append low high).toList = low.toList ++ high.toList := by
  cases high with
  | empty => simp [append, toList]
  | node n inner a high => simp [append, toList]

theorem Sized.size_eq {t : Tree α} (h : t.Sized) : t.size = t.toList.length := by
  induction t with
  | empty => rfl
  | node n low a high ihl ihh =>
    obtain ⟨rfl, hl, hh⟩ := h
    rw [size, ihl hl, ihh hh, toList]
    simp [Nat.add_assoc]

theorem sized_join {low high : Tree α} (a : α) (hl : low.Sized) (hh : high.Sized) :
    (join low a high).Sized := ⟨rfl, hl, hh⟩

theorem sized_joinLow {low high : Tree α} (a : α) (hl : low.Sized) (hh : high.Sized) :
    (joinLow low a high).Sized := by
  unfold joinLow
  repeat' split
  all_goals simp_all [Sized, join]

theorem sized_joinHigh {low high : Tree α} (a : α) (hl : low.Sized) (hh : high.Sized) :
    (joinHigh a high low).Sized := by
  unfold joinHigh
  repeat' split
  all_goals simp_all [Sized, join]

theorem sized_balance {low high : Tree α} (a : α) (hl : low.Sized) (hh : high.Sized) :
    (balance low a high).Sized := by
  unfold balance
  repeat' split
  all_goals simp [sized_join, sized_joinLow, sized_joinHigh, hl, hh]

theorem sized_uncons {low high : Tree α} (a : α) (hl : low.Sized) (hh : high.Sized) :
    (uncons a high low).2.Sized := by
  induction low generalizing a high with
  | empty => exact hh
  | node n low b inner ih _ => exact sized_balance a (ih b hl.2.1 hl.2.2) hh

theorem sized_append {low high : Tree α} (hl : low.Sized) (hh : high.Sized) :
    (append low high).Sized := by
  cases high with
  | empty => exact hl
  | node n inner a high => exact sized_balance _ hl (sized_uncons a hh.2.1 hh.2.2)

theorem around_eq {test : α → Bool} {t : Tree α}
    (passing : t.toList.Pairwise fun a b => test b → test a) (last first : Option α) :
    t.around test last first =
      ((t.toList.filter test).getLast?.or last, (t.toList.filter (!test ·)).head?.or first) := by
  induction t generalizing last first with
  | empty => simp [around, toList]
  | node n low a high ihl ihh =>
    obtain ⟨pl, ph, across⟩ := List.pairwise_append.1 passing
    obtain ⟨head, ph⟩ := List.pairwise_cons.1 ph
    cases pass : test a with
    | true =>
      have none_below : low.toList.filter (!test ·) = [] := by simp; grind
      simp [around, toList, ihh ph, pass, none_below, List.getLast?_cons]
    | false =>
      have none_above : high.toList.filter test = [] := by simp; grind
      simp [around, toList, ihl pl, pass, none_above]

theorem findDown?_eq {test : α → Bool} {t : Tree α}
    (first : t.toList.Pairwise fun a b => test b → test a) (f : α → Option β) :
    t.findDown? test f = (t.toList.filter test).reverse.findSome? f := by
  induction t with
  | empty => rfl
  | node n low a high ihl ihh =>
    obtain ⟨pl, ph, across⟩ := List.pairwise_append.1 first
    obtain ⟨head, ph⟩ := List.pairwise_cons.1 ph
    cases pass : test a with
    | true =>
      cases answer : f a <;>
        simp [findDown?, toList, ihl pl, ihh ph, pass, answer, List.findSome?_append]
    | false =>
      have none_above : high.toList.filter test = [] := by simp; grind
      simp [findDown?, toList, ihl pl, pass, none_above]

theorem findUp?_eq {test : α → Bool} {t : Tree α}
    (first : t.toList.Pairwise fun a b => test b → test a) (f : α → Option β) :
    t.findUp? test f = (t.toList.filter (!test ·)).findSome? f := by
  induction t with
  | empty => rfl
  | node n low a high ihl ihh =>
    obtain ⟨pl, ph, across⟩ := List.pairwise_append.1 first
    obtain ⟨head, ph⟩ := List.pairwise_cons.1 ph
    cases pass : test a with
    | true =>
      have none_below : low.toList.filter (!test ·) = [] := by simp; grind
      simp [findUp?, toList, ihh ph, pass, none_below]
    | false =>
      cases answer : f a <;>
        simp [findUp?, toList, ihl pl, ihh ph, pass, answer, List.findSome?_append]

theorem mapMembers_cons (f : σ → α → β × σ) (state : σ) (a : α) (l : List α) :
    mapMembers f state (a :: l) =
      ((f state a).1 :: (mapMembers f (f state a).2 l).1, (mapMembers f (f state a).2 l).2) := rfl

theorem mapMembers_append (f : σ → α → β × σ) (state : σ) (l m : List α) :
    mapMembers f state (l ++ m) =
      ((mapMembers f state l).1 ++ (mapMembers f (mapMembers f state l).2 m).1,
        (mapMembers f (mapMembers f state l).2 m).2) := by
  induction l generalizing state with
  | nil => rfl
  | cons a l ih => simp [mapMembers, ih]

theorem map_mapMembers {κ : Type} {key : α → κ} {key' : β → κ} {f : σ → α → β × σ}
    (keeps : ∀ state a, key' (f state a).1 = key a) (state : σ) (l : List α) :
    (mapMembers f state l).1.map key' = l.map key := by
  induction l generalizing state with
  | nil => rfl
  | cons a l ih => simp [mapMembers, keeps, ih]

theorem mapState_eq (f : σ → α → β × σ) (state : σ) (t : Tree α) :
    ((mapState f state t).1.toList, (mapState f state t).2) = mapMembers f state t.toList := by
  induction t generalizing state with
  | empty => rfl
  | node n low a high ihl ihh =>
    simp [mapState, toList, mapMembers_append, mapMembers, ← ihl, ← ihh]

theorem mapState_eq_self {f : σ → α → α × σ} {state : σ} {t : Tree α}
    (fixed : ∀ a ∈ t.toList, f state a = (a, state)) : mapState f state t = (t, state) := by
  induction t with
  | empty => rfl
  | node n low a high ihl ihh =>
    obtain ⟨fixed_low, here, fixed_high⟩ : (∀ b ∈ low.toList, f state b = (b, state))
        ∧ f state a = (a, state) ∧ ∀ b ∈ high.toList, f state b = (b, state) := by
      simpa [toList, or_imp, forall_and] using fixed
    simp only [mapState, ihl fixed_low, here, ihh fixed_high]

theorem size_mapState (f : σ → α → β × σ) (state : σ) (t : Tree α) :
    (mapState f state t).1.size = t.size := by
  cases t <;> rfl

theorem sized_mapState (f : σ → α → β × σ) (state : σ) {t : Tree α} (h : t.Sized) :
    (mapState f state t).1.Sized := by
  induction t generalizing state with
  | empty => trivial
  | node n low a high ihl ihh =>
    exact ⟨by simpa [size_mapState] using h.1, ihl _ h.2.1, ihh _ h.2.2⟩

end

section

variable {α κ : Type} [LT κ] [DecidableLT κ] (key : α → κ)

/-- The tree with `new` in its place, instead of a member with the same key. -/
def insert (new : α) : Tree α → Tree α
  | empty => join empty new empty
  | node n low a high =>
    if key a < key new then balance low a (high.insert new)
    else if key new < key a then balance (low.insert new) a high
    else node n low new high

/-- The tree without the member whose key is `k`. -/
def erase (k : κ) : Tree α → Tree α
  | empty => empty
  | node _ low a high =>
    if key a < k then balance low a (high.erase k)
    else if k < key a then balance (low.erase k) a high
    else append low high

variable {key}

theorem sized_insert (new : α) {t : Tree α} (h : t.Sized) : (t.insert key new).Sized := by
  induction t with
  | empty => exact sized_join new trivial trivial
  | node n low a high ihl ihh =>
    unfold insert
    repeat' split
    · exact sized_balance a h.2.1 (ihh h.2.2)
    · exact sized_balance a (ihl h.2.1) h.2.2
    · exact h

theorem sized_erase (k : κ) {t : Tree α} (h : t.Sized) : (t.erase key k).Sized := by
  induction t with
  | empty => trivial
  | node n low a high ihl ihh =>
    unfold erase
    repeat' split
    · exact sized_balance a h.2.1 (ihh h.2.2)
    · exact sized_balance a (ihl h.2.1) h.2.2
    · exact sized_append h.2.1 h.2.2

variable [LE κ] [Std.IsLinearOrder κ] [Std.LawfulOrderLT κ]

theorem toList_insert {t : Tree α} (h : Ascending key t.toList) (new : α) :
    (t.insert key new).toList = Ascending.inserted key new t.toList := by
  induction t with
  | empty => rfl
  | node n low a high ihl ihh =>
    obtain ⟨hl, hh, across⟩ := List.pairwise_append.1 h
    obtain ⟨least, hh⟩ := List.pairwise_cons.1 hh
    have below : ∀ b ∈ low.toList, key b < key a := fun b hb => across b hb a (by simp)
    by_cases greater : key a < key new
    · rw [insert, if_pos greater, toList_balance, ihh hh, toList,
        Ascending.inserted_of_gt greater below]
    · by_cases less : key new < key a
      · rw [insert, if_neg greater, if_pos less, toList_balance, ihl hl, toList,
          Ascending.inserted_of_lt less least]
      · rw [insert, if_neg greater, if_neg less, toList, toList,
          Ascending.inserted_of_eq (by grind) below least]

theorem toList_erase [DecidableEq κ] {t : Tree α} (h : Ascending key t.toList) (k : κ) :
    (t.erase key k).toList = t.toList.filter (key · ≠ k) := by
  induction t with
  | empty => rfl
  | node n low a high ihl ihh =>
    obtain ⟨hl, hh, across⟩ := List.pairwise_append.1 h
    obtain ⟨least, hh⟩ := List.pairwise_cons.1 hh
    have below : ∀ b ∈ low.toList, key b < key a := fun b hb => across b hb a (by simp)
    rw [toList, List.filter_append, List.filter_cons]
    by_cases greater : key a < k
    · have kept : low.toList.filter (key · ≠ k) = low.toList := by simp; grind
      rw [erase, if_pos greater, toList_balance, ihh hh, kept, if_pos (by grind)]
    · have kept : high.toList.filter (key · ≠ k) = high.toList := by simp; grind
      by_cases less : k < key a
      · rw [erase, if_neg greater, if_pos less, toList_balance, ihl hl, kept, if_pos (by grind)]
      · have kept_below : low.toList.filter (key · ≠ k) = low.toList := by simp; grind
        rw [erase, if_neg greater, if_neg less, toList_append, kept, kept_below, if_neg (by grind)]

end

end Tree

end OrderedStore
