/-! # Totals -/

namespace OrderedStore

/-- What `f` gives for the members of a list, added up. -/
def total {α : Type} (f : α → Nat) (l : List α) : Nat := l.foldr (fun a sum => f a + sum) 0

section

variable {α : Type} (f : α → Nat)

@[simp] theorem total_nil : total f [] = 0 := rfl

@[simp] theorem total_cons (a : α) (l : List α) : total f (a :: l) = f a + total f l := rfl

@[simp] theorem total_append (l m : List α) : total f (l ++ m) = total f l + total f m := by
  induction l with
  | nil => simp
  | cons a l ih => simp [ih, Nat.add_assoc]

theorem total_map {β : Type} (g : β → α) (l : List β) :
    total f (l.map g) = total (fun b => f (g b)) l := List.foldr_map

theorem total_le_of_sublist {l l' : List α} (part : l'.Sublist l) : total f l' ≤ total f l := by
  induction part with
  | slnil => exact Nat.le_refl 0
  | cons a _ ih =>
      rw [total_cons]
      omega
  | cons_cons a _ ih =>
      rw [total_cons, total_cons]
      omega

variable {f}

theorem total_le_length {l : List α} (small : ∀ a ∈ l, f a ≤ 1) : total f l ≤ l.length := by
  induction l with
  | nil => exact Nat.le_refl 0
  | cons a l ih =>
      obtain ⟨here, later⟩ := List.forall_mem_cons.mp small
      have rest := ih later
      rw [total_cons, List.length_cons]
      omega

end

end OrderedStore
