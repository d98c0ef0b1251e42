import OrderedStore.Proofs.Store.Merging
import OrderedStore.Proofs.Writer.Changes

/-! # Single calls on a store

Every call on a well-formed store has one of few outcomes, and which one it is depends on its
arguments, the live records and the memory ceiling alone. A call that fails or is refused leaves the
store as it was, but for the count of refusals at the ceiling.
-/

namespace OrderedStore

namespace Store

section

variable {s : Store} {key value : Bytes}

theorem admits_of_describable (describable : (Record.live key value).Describable) :
    s.admits key value = .ok (decide ((Record.live key value).size ≤ s.options.largestBlock)) := by
  rw [admits, Record.measure_of_describable describable]
  rfl

theorem put_of_not_fits (out : ¬Record.KeyFits key) (value : Bytes) :
    s.put key value = (.error (.misuse (Record.keyFault key)), s) := by
  have admits_eq : s.admits key value = .error (Record.keyFault key) := by
    rw [admits, Record.measure_of_not_fits out]
    rfl
  simp only [put, admits_eq]

theorem put_of_long (fits : Record.KeyFits key) (long : Record.maxValue < value.length) :
    s.put key value = (.error (.misuse .valueTooLong), s) := by
  have admits_eq : s.admits key value = .error .valueTooLong := by
    rw [admits, Record.measure_of_long fits long]
    rfl
  simp only [put, admits_eq]

theorem put_of_large (describable : (Record.live key value).Describable)
    (large : s.options.largestBlock < (Record.live key value).size) :
    s.put key value = (.ok false, s) := by
  have admits_eq : s.admits key value = .ok false := by
    rw [admits_of_describable describable, decide_eq_false (Nat.not_le.mpr large)]
  simp only [put, admits_eq]

theorem put_of_ceiling (describable : (Record.live key value).Describable)
    (small : (Record.live key value).size ≤ s.options.largestBlock) (reached : s.atCeiling = true) :
    s.put key value = (.ok false, s.reject) := by
  have admits_eq : s.admits key value = .ok true := by
    rw [admits_of_describable describable, decide_eq_true small]
  simp only [put, admits_eq, reached, if_true]

theorem delete_of_not_fits (out : ¬Record.KeyFits key) :
    s.delete key = (.error (.misuse (Record.keyFault key)), s) := by
  simp only [delete, Record.checkKey_of_not_fits out]

theorem get_of_not_fits (out : ¬Record.KeyFits key) :
    s.get key = .error (.misuse (Record.keyFault key)) := by
  simp only [get, Record.checkKey_of_not_fits out]
  rfl

theorem getInto_of_not_fits (out : ¬Record.KeyFits key) (buffer : Bytes) :
    s.getInto key buffer = .error (.misuse (Record.keyFault key)) := by
  simp only [getInto, get_of_not_fits out]
  rfl

theorem contains_of_not_fits (out : ¬Record.KeyFits key) :
    s.contains key = .error (.misuse (Record.keyFault key)) := by
  simp only [contains, Record.checkKey_of_not_fits out]
  rfl

end

namespace WellFormed

variable {s : Store} {key value : Bytes}

theorem exists_put (wf : s.WellFormed) (describable : (Record.live key value).Describable)
    (small : (Record.live key value).size ≤ s.options.largestBlock) (room : s.atCeiling = false) :
    ∃ s', s.put key value = (.ok true, s')
      ∧ s.Yields s' (Ascending.inserted Record.key (Record.live key value) s.liveRecords) := by
  obtain ⟨span, held, marked, covered⟩ := Writer.exists_hold wf key
  have ready : (⟨s, [span]⟩ : Writer).Ready := ⟨wf, marked⟩
  obtain ⟨w, done, follows⟩ := ready.exists_put covered describable small
  have admits_eq : s.admits key value = .ok true := by
    rw [admits_of_describable describable, decide_eq_true small]
  refine ⟨w.store, ?_, follows.ready.wellFormed, follows.options, follows.liveRecords⟩
  simp only [put, admits_eq, room, held, done]
  rfl

theorem yields_reject (wf : s.WellFormed) : s.Yields s.reject s.liveRecords :=
  ⟨⟨wf.options, wf.tiles, wf.distinct, wf.numbered, wf.balanced.allocated, wf.balanced.dataBytes,
    wf.balanced.liveRecords, wf.balanced.published⟩, rfl, rfl⟩

theorem exists_delete (wf : s.WellFormed) (fits : Record.KeyFits key) :
    ∃ s', s.delete key = (.ok (s.liveRecords.at? key).isSome, s')
      ∧ s.Yields s' (s.liveRecords.filter (·.key ≠ key)) := by
  obtain ⟨span, held, marked, covered⟩ := Writer.exists_hold wf key
  have ready : (⟨s, [span]⟩ : Writer).Ready := ⟨wf, marked⟩
  obtain ⟨w, done, follows⟩ := ready.exists_delete covered
  obtain ⟨s', released, yields⟩ :=
    exists_release follows.ready.wellFormed (s.liveRecords.at? key).isSome
  refine ⟨s', ?_, yields.wellFormed, yields.options.trans follows.options,
    yields.liveRecords.trans follows.liveRecords⟩
  simp only [delete, Record.checkKey_of_fits fits, held, done, released]
  rfl

theorem exists_deleteAll (wf : s.WellFormed) {keys : List Bytes}
    (fit : ∀ key ∈ keys, Record.KeyFits key) (distinct : keys.Nodup)
    (present : ∀ key ∈ keys, (s.liveRecords.at? key).isSome) :
    ∃ s', s.deleteAll keys = (.ok keys.length, s')
      ∧ s.Yields s' (s.liveRecords.filter (·.key ∉ keys)) := by
  induction keys generalizing s with
  | nil => exact ⟨s, rfl, wf, rfl, (List.filter_eq_self.mpr (by simp)).symm⟩
  | cons key keys ih =>
      obtain ⟨fits, fit⟩ := List.forall_mem_cons.mp fit
      obtain ⟨here, present⟩ := List.forall_mem_cons.mp present
      obtain ⟨other, distinct⟩ := List.nodup_cons.mp distinct
      obtain ⟨s₁, deleted, yields⟩ := wf.exists_delete fits
      have still : ∀ k ∈ keys, (s₁.liveRecords.at? k).isSome := by
        intro k member
        obtain ⟨r, found⟩ := Option.isSome_iff_exists.mp (present k member)
        obtain ⟨inside, at_key⟩ := Run.at?_eq_some found
        have different : r.key ≠ key := fun same => other (same ▸ at_key ▸ member)
        rw [yields.liveRecords, Run.at?, List.find?_isSome]
        exact ⟨r, List.mem_filter.mpr ⟨inside, decide_eq_true different⟩, decide_eq_true at_key⟩
      obtain ⟨s', rest, yields'⟩ := ih yields.wellFormed fit distinct still
      refine ⟨s', ?_, yields'.wellFormed, yields'.options.trans yields.options, ?_⟩
      · rw [here] at deleted
        simp only [deleteAll, deleted, rest, Except.map, if_true, List.length_cons]
      · rw [yields'.liveRecords, yields.liveRecords, List.filter_filter]
        apply List.filter_congr
        intro r _
        simp [Bool.and_comm]

theorem owner?_eq (wf : s.WellFormed) (key : Bytes) :
    ∃ e, s.owner? key = .ok e ∧ e.value.block.liveAt? key = s.liveRecords.at? key := by
  obtain ⟨low, e, high, owns⟩ := wf.exists_owner key
  refine ⟨e, ?_, wf.liveAt?_eq owns⟩
  simp only [owner?, owns.floor?_eq]

theorem get_eq (wf : s.WellFormed) (fits : Record.KeyFits key) :
    s.get key = .ok ((s.liveRecords.at? key).map (·.value)) := by
  obtain ⟨e, owner, found⟩ := wf.owner?_eq key
  rw [← found]
  simp only [get, Record.checkKey_of_fits fits, owner]
  rfl

theorem getInto_eq (wf : s.WellFormed) (fits : Record.KeyFits key) (buffer : Bytes) :
    s.getInto key buffer = .ok (match (s.liveRecords.at? key).map (·.value) with
      | none => (none, buffer)
      | some value => (some value.length,
          if value.length ≤ buffer.length then buffer.overwrite 0 value else buffer)) := by
  rw [getInto, wf.get_eq fits]
  cases s.liveRecords.at? key <;> rfl

theorem contains_eq (wf : s.WellFormed) (fits : Record.KeyFits key) :
    s.contains key = .ok (s.liveRecords.at? key).isSome := by
  obtain ⟨e, owner, found⟩ := wf.owner?_eq key
  rw [← found]
  simp only [contains, Record.checkKey_of_fits fits, owner]
  rfl

theorem size_eq (wf : s.WellFormed) : s.size = s.liveRecords.length := wf.tiles.total_liveCount

end WellFormed

end Store

end OrderedStore
