import OrderedStore.Proofs.Store.Commits
import OrderedStore.Proofs.Store.Ranges

/-! # Reachable stores

A store that was opened and then written to by any calls in any order is well-formed. Reads and
scans give no store back, so that they cannot reach another one.
-/

namespace OrderedStore.Store

namespace WellFormed

variable {s : Store}

theorem put_cases (wf : s.WellFormed) (key value : Bytes) :
    (∃ cause, s.put key value = (.error (.misuse cause), s)
        ∧ ¬(Record.live key value).Describable)
      ∨ s.put key value = (.ok false, s) ∧ (Record.live key value).Describable
        ∧ s.options.largestBlock < (Record.live key value).size
      ∨ s.put key value = (.ok false, s.reject) ∧ (Record.live key value).Describable
        ∧ (Record.live key value).size ≤ s.options.largestBlock ∧ s.atCeiling = true
      ∨ (Record.live key value).Describable ∧ ∃ s', s.put key value = (.ok true, s')
        ∧ s.Yields s' (Ascending.inserted Record.key (Record.live key value) s.liveRecords) := by
  by_cases fits : Record.KeyFits key
  · by_cases short : value.length ≤ Record.maxValue
    · have describable : (Record.live key value).Describable := ⟨fits, short⟩
      by_cases small : (Record.live key value).size ≤ s.options.largestBlock
      · cases ceiling : s.atCeiling with
        | true =>
            have refused := put_of_ceiling describable small ceiling
            exact .inr (.inr (.inl ⟨refused, describable, small, rfl⟩))
        | false => exact .inr (.inr (.inr ⟨describable, wf.exists_put describable small ceiling⟩))
      · have large := Nat.not_le.mp small
        exact .inr (.inl ⟨put_of_large describable large, describable, large⟩)
    · exact .inl ⟨.valueTooLong, put_of_long fits (Nat.not_le.mp short), fun h => short h.value⟩
  · exact .inl ⟨Record.keyFault key, put_of_not_fits fits value, fun h => fits h.key⟩

theorem yields_put (wf : s.WellFormed) (key value : Bytes) :
    ∃ live, s.Yields (s.put key value).2 live := by
  rcases wf.put_cases key value with
    ⟨_, kept, _⟩ | ⟨kept, _⟩ | ⟨refused, _⟩ | ⟨_, s', stored, yields⟩
  · rw [kept]
    exact ⟨_, wf.yields_self⟩
  · rw [kept]
    exact ⟨_, wf.yields_self⟩
  · rw [refused]
    exact ⟨_, wf.yields_reject⟩
  · rw [stored]
    exact ⟨_, yields⟩

theorem yields_delete (wf : s.WellFormed) (key : Bytes) :
    ∃ live, s.Yields (s.delete key).2 live := by
  by_cases fits : Record.KeyFits key
  · obtain ⟨s', deleted, yields⟩ := wf.exists_delete fits
    rw [deleted]
    exact ⟨_, yields⟩
  · rw [delete_of_not_fits fits]
    exact ⟨_, wf.yields_self⟩

theorem yields_execute (wf : s.WellFormed) {ρ : Type} (op : Operation ρ) :
    ∃ live, s.Yields (s.execute op).store live := by
  rcases wf.execute_cases op with ⟨_, _, yields⟩ | ⟨_, refused⟩ | ⟨_, kept⟩
  · exact ⟨_, yields⟩
  · rw [refused]
    exact ⟨_, wf.yields_reject⟩
  · rw [kept]
    exact ⟨_, wf.yields_self⟩

end WellFormed

/-- The stores that calls lead to from a freshly opened one. -/
inductive Reachable (o : Options) : Store → Prop where
  | opened {s : Store} : create o = .ok s → Reachable o s
  | put {s : Store} (key value : Bytes) : Reachable o s → Reachable o (s.put key value).2
  | delete {s : Store} (key : Bytes) : Reachable o s → Reachable o (s.delete key).2
  | deleteRange {s : Store} (start stop : Option Bytes) :
      Reachable o s → Reachable o (s.deleteRange start stop).2
  | compactAll {s : Store} : Reachable o s → Reachable o s.compactAll.2
  | execute {s : Store} {ρ : Type} (op : Operation ρ) :
      Reachable o s → Reachable o (s.execute op).store

theorem check_of_create {o : Options} {s : Store} (opened : create o = .ok s) :
    o.check = .ok () := by
  cases checked : o.check with
  | ok _ => rfl
  | error cause =>
      simp only [create, checked] at opened
      contradiction

theorem WellFormed.of_create {o : Options} {s : Store} (opened : create o = .ok s) :
    s.WellFormed ∧ s.options = o ∧ s.liveRecords = [] := by
  obtain ⟨s', opened', known⟩ := WellFormed.of_check (check_of_create opened)
  obtain rfl := Except.ok.inj (opened.symm.trans opened')
  exact known

namespace Reachable

variable {o : Options} {s : Store}

theorem wellFormed_and_options (reachable : Reachable o s) : s.WellFormed ∧ s.options = o := by
  induction reachable with
  | opened opened =>
      obtain ⟨wf, options, _⟩ := WellFormed.of_create opened
      exact ⟨wf, options⟩
  | put key value _ ih =>
      obtain ⟨_, yields⟩ := ih.1.yields_put key value
      exact ⟨yields.wellFormed, yields.options.trans ih.2⟩
  | delete key _ ih =>
      obtain ⟨_, yields⟩ := ih.1.yields_delete key
      exact ⟨yields.wellFormed, yields.options.trans ih.2⟩
  | deleteRange start stop _ ih =>
      obtain ⟨s', deleted, yields⟩ := ih.1.exists_deleteRange start stop
      rw [deleted]
      exact ⟨yields.wellFormed, yields.options.trans ih.2⟩
  | compactAll _ ih =>
      have yields := ih.1.yields_compactAll
      exact ⟨yields.wellFormed, yields.options.trans ih.2⟩
  | execute op _ ih =>
      obtain ⟨_, yields⟩ := ih.1.yields_execute op
      exact ⟨yields.wellFormed, yields.options.trans ih.2⟩

theorem wellFormed (reachable : Reachable o s) : s.WellFormed := reachable.wellFormed_and_options.1

theorem options_eq (reachable : Reachable o s) : s.options = o := reachable.wellFormed_and_options.2

end Reachable

/-- The store after rows are put into it in their order. -/
def filled (s : Store) (rows : List (Bytes × Bytes)) : Store :=
  rows.foldl (fun s row => (s.put row.1 row.2).2) s

theorem Reachable.filled {o : Options} {s : Store} (reachable : Reachable o s)
    (rows : List (Bytes × Bytes)) : Reachable o (s.filled rows) := by
  induction rows generalizing s with
  | nil => exact reachable
  | cons row rows ih => exact ih (.put row.1 row.2 reachable)

/-- Options under which no block has room for three of the `fiveRows`. -/
def smallBlocks : Options := { largestBlock := 64, newBlock := 16 }

def fiveRows : List (Bytes × Bytes) :=
  [([1], .replicate 20 1), ([2], .replicate 20 2), ([3], .replicate 20 3), ([4], .replicate 20 4),
    ([5], .replicate 20 5)]

/-- The rows lie in several blocks. -/
theorem exists_filled_fiveRows : ∃ s, create smallBlocks = .ok s
    ∧ Reachable smallBlocks (s.filled fiveRows) ∧ (s.filled fiveRows).blocks.length = 4
    ∧ (s.filled fiveRows).liveRecords = fiveRows.map fun row => .live row.1 row.2 := by
  refine ⟨_, rfl, .filled (.opened rfl) fiveRows, ?_⟩
  decide +kernel

end OrderedStore.Store
