import OrderedStore.Proofs.Writer.Puts

/-! # What writers do with changes

A deletion takes its key out of the live records and tells whether it was there. Changes whose
values can be stored, under keys that the writer covers, are all made: no step of one change can
leave the writer unable to make the next.
-/

namespace OrderedStore

/-- The value of the change can be stored; a deletion is always possible. -/
def Change.Storable (o : Options) : Change → Prop
  | .put key value => (Record.live key value).Describable
      ∧ (Record.live key value).size ≤ o.largestBlock
  | .delete _ => True

namespace Run

theorem filter_of_at?_eq_none {run : Run} {key : Bytes} (absent : at? run key = none) :
    run.filter (·.key ≠ key) = run :=
  List.filter_eq_self.mpr fun r member => decide_eq_true (at?_eq_none.mp absent r member)

end Run

namespace Writer

variable {w : Writer} {low high : List (Entry Published)} {e : Entry Published} {key : Bytes}

theorem Ready.follows_marked (ready : w.Ready) (owns : w.store.directory.Owns key low e high)
    {r : Record} {b : Block} {l : Ledger}
    (found : e.value.block.liveAt? key = some r) (enrolled : b.Enrolled w.store.options.tuning)
    (prunes : Run.Prunes (e.value.block.marked r).run b.run)
    (balanced : l.Balanced w.store.directory.size (b :: blocksOf (low ++ high))) :
    w.Follows (w.replace (.ofEntry e high) b l) (w.store.liveRecords.filter (·.key ≠ key)) := by
  obtain ⟨_, fits, _⟩ := ready.wellFormed.fits owns.eq
  have sound := fits.enrolled.sound
  obtain ⟨low_below, high_above⟩ := ready.wellFormed.apart owns
  obtain ⟨_, _, at_key⟩ := sound.mem_of_liveAt? found
  have entry : (e.withBlock b).Fits w.store.options.tuning (high.head?.map (·.anchor)) :=
    (fits.marked found).pruned prunes enrolled
  have follows := ready.follows_replace owns.eq entry balanced
  have live : liveOf low ++ (Run.live b.run ++ liveOf high)
      = w.store.liveRecords.filter (·.key ≠ key) := by
    rw [prunes.live, sound.run_marked, Run.live_inserted_tombstone sound.ascending rfl,
      Store.liveRecords_at owns.eq, Ascending.filter_ne_between low_below high_above, at_key]
  exact live ▸ follows

theorem Ready.exists_delete (ready : w.Ready) (covered : w.covers key = true) :
    ∃ w', w.delete key = (.ok (w.store.liveRecords.at? key).isSome, w')
      ∧ w.Follows w' (w.store.liveRecords.filter (·.key ≠ key)) := by
  obtain ⟨low, e, high, owns⟩ := ready.wellFormed.exists_owner key
  obtain ⟨owner, _⟩ := target_eq ready.marked covered owns
  obtain ⟨_, fits, _⟩ := ready.wellFormed.fits owns.eq
  have balanced := ready.wellFormed.balanced_at owns.eq
  rw [← ready.wellFormed.liveAt?_eq owns]
  rcases Block.delete_cases fits.enrolled key balanced with
    ⟨absent, kept⟩ | ⟨r, l, found, marked, balanced'⟩
  · refine ⟨w.replace (.ofEntry e high) e.value.block w.store.ledger, ?_, ?_⟩
    · simp only [delete, owner, kept, absent, Option.isSome_none]
    · have follows := ready.follows_replace owns.eq fits balanced
      rw [ready.wellFormed.liveAt?_eq owns] at absent
      rw [Run.filter_of_at?_eq_none absent, Store.liveRecords_at owns.eq]
      exact follows
  · refine ⟨w.replace (.ofEntry e high) ((e.value.block.marked r).compact l false).2.1
      ((e.value.block.marked r).compact l false).2.2, ?_, ?_⟩
    · simp only [delete, owner, marked, found, Option.isSome_some]
    · have enrolled := fits.enrolled.marked found
      exact ready.follows_marked owns found (enrolled.compact l false)
        (Block.prunes_compact l false) (Block.balanced_compact false enrolled balanced')

/-- A writer makes changes that are possible under keys that it covers, in their order. -/
theorem Ready.exists_apply (ready : w.Ready) (changes : List Change)
    (covered : ∀ c ∈ changes, w.covers c.key = true)
    (possible : ∀ c ∈ changes, c.Storable w.store.options) :
    ∃ gone w', w.apply changes = (.ok gone, w')
      ∧ w.Follows w' (changes.foldl Run.change w.store.liveRecords) := by
  induction changes generalizing w with
  | nil => exact ⟨false, w, rfl, ready, fun _ covers => covers, rfl, rfl⟩
  | cons c changes ih =>
      obtain ⟨here, later⟩ := List.forall_mem_cons.mp covered
      obtain ⟨fits, rest⟩ := List.forall_mem_cons.mp possible
      have go_on : ∀ w', w.Follows w' (Run.change w.store.liveRecords c) →
          ∃ gone w'', w'.apply changes = (.ok gone, w'')
            ∧ w.Follows w'' (changes.foldl Run.change (Run.change w.store.liveRecords c)) := by
        intro w' follows
        obtain ⟨gone, w'', applied, follows'⟩ := ih follows.ready
          (fun c member => follows.covers c.key (later c member))
          (fun c member => follows.options.symm ▸ rest c member)
        rw [follows.liveRecords] at follows'
        exact ⟨gone, w'', applied, follows.trans follows'⟩
      cases c with
      | put key value =>
          have covers : w.covers key = true := here
          obtain ⟨w', done, follows⟩ := ready.exists_put covers fits.1 fits.2
          obtain ⟨gone, w'', applied, follows'⟩ := go_on w' follows
          exact ⟨gone, w'', by simp only [apply, done, applied], follows'⟩
      | delete key =>
          have covers : w.covers key = true := here
          obtain ⟨w', done, follows⟩ := ready.exists_delete covers
          obtain ⟨gone, w'', applied, follows'⟩ := go_on w' follows
          exact ⟨_, w'', by simp only [apply, done, applied, Except.map]; rfl, follows'⟩

end Writer

end OrderedStore
