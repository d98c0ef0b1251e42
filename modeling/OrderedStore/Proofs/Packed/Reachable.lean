import OrderedStore.Proofs.Packed.Deletions

/-! # Reachable packed maps

A store that was opened and then written to through packed maps alone holds a catalog, whatever its
options are and whatever was refused.
-/

namespace OrderedStore.Packed

namespace Map

/-- The maps that calls lead to on a freshly opened store. A map may be followed by another one over
the same store, with options of its own. -/
inductive Reachable (o : OrderedStore.Options) : Map → Prop where
  | created {s : Store} {p : Options} {m : Map} :
      Store.create o = .ok s → create s p = .ok m → Reachable o m
  | set {m : Map} (user field value : Bytes) : Reachable o m → Reachable o (m.set user field value).2
  | delete {m : Map} (user field : Bytes) : Reachable o m → Reachable o (m.delete user field).2
  | another {m m' : Map} {p : Options} :
      Reachable o m → create m.store p = .ok m' → Reachable o m'

theorem eq_of_create {s : Store} {p : Options} {m : Map} (created : create s p = .ok m) :
    m = ⟨s, p, 0⟩ := by
  simp only [create, bind, Except.bind, pure, Except.pure] at created
  split at created
  · contradiction
  · exact (Except.ok.inj created).symm

theorem store_of_create {s : Store} {p : Options} {m : Map} (created : create s p = .ok m) :
    m.store = s := by
  rw [eq_of_create created]

end Map

namespace Holds

variable {m : Map} {c : Catalog}

theorem rejected (holds : Holds m.store c) : Holds m.store.reject c :=
  holds.same holds.wellFormed.yields_reject

theorem exists_after_set (holds : Holds m.store c) (user field value : Bytes) :
    ∃ c', Holds (m.set user field value).2.store c' := by
  by_cases addressable : Addressable user field
  · obtain ⟨l, lays⟩ := holds.exists_lays
    have outcome := lays.set addressable value
    generalize m.set user field value = result at outcome ⊢
    cases outcome with
    | stored s splits _ after _ => exact ⟨_, after.holds⟩
    | ceiling _ => exact ⟨c, holds.rejected⟩
    | large _ => exact ⟨c, holds⟩
    | failed _ => exact ⟨c, holds⟩
  · obtain ⟨_, refused⟩ := Map.set_of_not_addressable (m := m) addressable value
    rw [refused]
    exact ⟨c, holds⟩

theorem exists_after_delete (holds : Holds m.store c) (user field : Bytes) :
    ∃ c', Holds (m.delete user field).2.store c' := by
  by_cases addressable : Addressable user field
  · obtain ⟨l, lays⟩ := holds.exists_lays
    have outcome := lays.delete addressable
    generalize m.delete user field = result at outcome ⊢
    cases outcome with
    | absent _ => exact ⟨c, holds⟩
    | deleted s _ _ after _ => exact ⟨_, after.holds⟩
    | ceiling _ _ _ => exact ⟨c, holds.rejected⟩
  · obtain ⟨_, refused⟩ := Map.delete_of_not_addressable (m := m) addressable
    rw [refused]
    exact ⟨c, holds⟩

end Holds

namespace Map

variable {o : OrderedStore.Options} {m : Map}

theorem Reachable.exists_holds (reachable : Reachable o m) : ∃ c, Holds m.store c := by
  induction reachable with
  | created opened made =>
      obtain ⟨wf, _, nothing⟩ := Store.WellFormed.of_create opened
      rw [store_of_create made]
      exact ⟨.empty, (lays_empty wf nothing).holds⟩
  | set user field value _ ih =>
      obtain ⟨_, holds⟩ := ih
      exact holds.exists_after_set user field value
  | delete user field _ ih =>
      obtain ⟨_, holds⟩ := ih
      exact holds.exists_after_delete user field
  | another _ made ih =>
      rw [store_of_create made]
      exact ih

end Map

end OrderedStore.Packed
