import OrderedStore.Proofs.Store.Reachable

/-! # Executions are all or nothing

An operation that is carried out changes the content by all the writes it asked for, in their order,
and nothing else. One that is not carried out leaves every block, every record and every count as
they were, but for the count of writes refused at the ceiling.
-/

namespace OrderedStore

namespace Store

/-- The operation is carried out as a whole: the content changes by its writes, in their order. -/
structure CarriesOut {ρ : Type} (s : Store) (op : Operation ρ) : Prop where
  accepted : (s.outcome op).verdict = .ok true
  content : (s.execute op).store.liveRecords
    = (s.outcome op).changes.toList.foldl Run.change s.liveRecords
  others : ∀ key, (∀ c ∈ (s.outcome op).changes.toList, c.key ≠ key) →
    (s.execute op).store.liveRecords.at? key = s.liveRecords.at? key

theorem WellFormed.carriesOut {s : Store} (wf : s.WellFormed) {ρ : Type} {op : Operation ρ}
    (carried : (s.execute op).verdict = .ok true) : s.CarriesOut op := by
  rcases wf.execute_cases op with ⟨_, accepted, yields⟩ | ⟨refused, _⟩ | ⟨other, _⟩
  · refine ⟨accepted, yields.liveRecords, ?_⟩
    intro key other
    rw [yields.liveRecords, Run.at?_foldl_change other]
  · rw [refused] at carried
    exact absurd (Except.ok.inj carried) Bool.false_ne_true
  · exact absurd carried other

theorem Reachable.execute_all_or_nothing {o : Options} {s : Store} (reachable : Reachable o s)
    {ρ : Type} (op : Operation ρ) :
    ((s.execute op).verdict = .ok true → s.CarriesOut op)
      ∧ ((s.execute op).verdict ≠ .ok true → (s.execute op).store = s
        ∨ (s.execute op).verdict = .ok false ∧ (s.execute op).store = s.reject)
      ∧ (op.readOnly = true → (s.execute op).store = s
        ∧ ((s.outcome op).changes.toList ≠ [] →
          ∃ fault, (s.execute op).verdict = .error fault)) := by
  have wf := reachable.wellFormed
  refine ⟨wf.carriesOut, ?_, wf.execute_readOnly⟩
  intro not_carried
  rcases wf.execute_cases op with ⟨carried, _⟩ | refused | ⟨_, kept⟩
  · exact absurd carried not_carried
  · exact .inr refused
  · exact .inl kept

/-- Moves the value under one key to another. -/
def moving (key target : Bytes) : Operation Unit where
  key := key
  floor := false
  readOnly := false
  initial := ()
  run _ found _ :=
    let value := (found.map (·.value)).getD []
    ⟨.ok found.isSome, ⟨[.delete key, .put target value], Nat.le_refl 2⟩, ()⟩

/-- A value is moved between blocks. -/
theorem Reachable.moving_carried_out : ∃ s, create smallBlocks = .ok s
    ∧ ((s.filled fiveRows).directory.floor? [1]).map (·.anchor)
      ≠ ((s.filled fiveRows).directory.floor? [6]).map (·.anchor)
    ∧ ((s.filled fiveRows).execute (moving [1] [6])).verdict = .ok true
    ∧ (s.filled fiveRows).CarriesOut (moving [1] [6])
    ∧ ((s.filled fiveRows).execute (moving [1] [6])).store.liveRecords
      = [.live [2] (.replicate 20 2), .live [3] (.replicate 20 3), .live [4] (.replicate 20 4),
        .live [5] (.replicate 20 5), .live [6] (.replicate 20 1)] := by
  obtain ⟨s, opened, reachable, _⟩ := exists_filled_fiveRows
  have carried : ((s.filled fiveRows).execute (moving [1] [6])).verdict = .ok true := by
    cases opened
    decide +kernel
  refine ⟨s, opened, ?_, carried, (execute_all_or_nothing reachable _).1 carried, ?_⟩
  · cases opened
    decide +kernel
  · cases opened
    decide +kernel

end Store

end OrderedStore
