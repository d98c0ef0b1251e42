import OrderedStore.Proofs.Packed.Reachable

/-! # Deletions at the ceiling

A deletion tells whether there was a field, and leaves none, as long as the store is below its
ceiling or the field has a chunk of its own. At the ceiling one that shares its chunk with others
stays, since the chunk would have to be stored again.
-/

namespace OrderedStore.Packed.Map

variable {o : OrderedStore.Options} {m : Map}

/-- What deleting a field gives: it tells that there was one, and there is none after it, unless the
store is at its ceiling and other fields lie in the same chunk. A deletion that tells that there was
none changes nothing but the count of refusals, and no other field is ever changed. -/
structure Deletes (m : Map) (user field : Bytes) (result : Except Fault Bool × Map) : Prop where
  verdict : result.1 = .ok true ↔ (∃ value, m.get user field = .ok (some value))
    ∧ ¬(m.store.atCeiling = true ∧ m.Crowded user field)
  gone : result.1 = .ok true → result.2.get user field = .ok none
  kept : result.1 ≠ .ok true → result.1 = .ok false
    ∧ (result.2 = m ∨ result.2 = { m with store := m.store.reject })
    ∧ result.2.get user field = m.get user field
  others : ∀ other field', Addressable other field' → (other, field') ≠ (user, field) →
    result.2.get other field' = m.get other field'

theorem exists_get_iff {c : Catalog} (holds : Holds m.store c) {user field : Bytes}
    (addressable : Addressable user field) :
    (∃ value, m.get user field = .ok (some value)) ↔ ((c user).get? field).isSome := by
  rw [holds.get_eq addressable, Option.isSome_iff_exists]
  simp

theorem get_eq_get {m' : Map} {c : Catalog} (holds : Holds m.store c) (holds' : Holds m'.store c)
    {user field : Bytes} (addressable : Addressable user field) :
    m'.get user field = m.get user field := by
  rw [holds.get_eq addressable, holds'.get_eq addressable]

section

variable {c : Catalog} {user field : Bytes}

theorem deletes_absent (holds : Holds m.store c) (addressable : Addressable user field)
    (found : (c user).get? field = none) : m.Deletes user field (.ok false, m) := by
  have missing : ¬∃ value, m.get user field = .ok (some value) := by
    rw [exists_get_iff holds addressable, found]
    exact Bool.false_ne_true
  exact
    { verdict := ⟨by simp, fun deletable => absurd deletable.1 missing⟩
      gone := by simp
      kept := fun _ => ⟨rfl, .inl rfl, rfl⟩
      others := fun _ _ _ _ => rfl }

theorem deletes_present (holds : Holds m.store c) (addressable : Addressable user field)
    (there : ((c user).get? field).isSome)
    (deletable : ¬(m.store.atCeiling = true ∧ m.Crowded user field)) {s : Store}
    (after : Holds s (c.erase user field)) :
    m.Deletes user field (.ok true, { m with store := s }) := by
  have present := (exists_get_iff holds addressable).mpr there
  have read : ∀ {other field'}, Addressable other field' →
      Map.get { m with store := s } other field' = .ok ((c.erase user field other).get? field') :=
    Holds.get_eq (m := { m with store := s }) after
  refine
    { verdict := ⟨fun _ => ⟨present, deletable⟩, fun _ => rfl⟩
      gone := ?_
      kept := fun other => absurd rfl other
      others := ?_ }
  · intro _
    rw [read addressable, c.get?_erase]
  · intro other field' addressable' different
    rw [read addressable', holds.get_eq addressable', c.get?_erase_of_ne different]

theorem deletes_refused (holds : Holds m.store c) (addressable : Addressable user field)
    (full : m.store.atCeiling = true) (crowded : m.Crowded user field) :
    m.Deletes user field (.ok false, { m with store := m.store.reject }) := by
  have same : ∀ {other field'}, Addressable other field' →
      Map.get { m with store := m.store.reject } other field' = m.get other field' :=
    get_eq_get holds holds.rejected
  exact
    { verdict := ⟨by simp, fun deletable => absurd ⟨full, crowded⟩ deletable.2⟩
      gone := by simp
      kept := fun _ => ⟨rfl, .inr rfl, same addressable⟩
      others := fun _ _ addressable' _ => same addressable' }

end

theorem Reachable.deletes (reachable : Reachable o m) {user field : Bytes}
    (addressable : Addressable user field) : m.Deletes user field (m.delete user field) := by
  obtain ⟨c, holds⟩ := reachable.exists_holds
  obtain ⟨l, lays⟩ := holds.exists_lays
  have outcome := lays.delete addressable
  generalize m.delete user field = result at outcome ⊢
  cases outcome with
  | absent found => exact deletes_absent holds addressable found
  | deleted s there deletable after _ =>
      exact deletes_present holds addressable there deletable after.holds
  | ceiling _ full crowded => exact deletes_refused holds addressable full crowded

/-- A store that is at its ceiling once its first block has grown. -/
def lowCeiling : OrderedStore.Options :=
  { largestBlock := 64, newBlock := 16, memoryCeiling := some 17 }

/-- The map with two fields of one user key, which lie in one chunk. -/
def withTwoFields (m : Map) : Map := ((m.set [117] [97] [49]).2.set [117] [98] [50]).2

theorem Reachable.withTwoFields (reachable : Reachable o m) : Reachable o m.withTwoFields := by
  apply Reachable.set
  apply Reachable.set
  exact reachable

theorem Reachable.deletes_at_ceiling : ∃ s m, Store.create lowCeiling = .ok s
    ∧ create s {} = .ok m ∧ m.withTwoFields.store.atCeiling = true ∧ Addressable [117] [97]
    ∧ m.withTwoFields.Deletes [117] [97] (m.withTwoFields.delete [117] [97]) := by
  refine ⟨_, _, rfl, rfl, by decide +kernel, ⟨by decide, by decide⟩, ?_⟩
  exact deletes (o := lowCeiling) (.withTwoFields (.created (p := {}) rfl rfl))
    ⟨by decide, by decide⟩

/-- A field is stored, its deletion tells that it was not, and it is stored after that. -/
theorem exists_field_kept_at_ceiling : ∃ s m, Store.create lowCeiling = .ok s
    ∧ create s {} = .ok m ∧ Reachable lowCeiling m.withTwoFields ∧ Addressable [117] [97]
    ∧ m.withTwoFields.get [117] [97] = .ok (some [49])
    ∧ (m.withTwoFields.delete [117] [97]).1 = .ok false
    ∧ (m.withTwoFields.delete [117] [97]).2.get [117] [97] = .ok (some [49]) := by
  refine ⟨_, _, rfl, rfl, .withTwoFields (.created (p := {}) rfl rfl), ⟨by decide, by decide⟩, ?_⟩
  decide +kernel

end OrderedStore.Packed.Map
