import OrderedStore.Proofs.Store.Audits
import OrderedStore.Proofs.Store.Reachable

/-! # The layout of reachable stores

What holds of the blocks of every store that calls can lead to, said of the entries one by one:
where a block starts and ends, that its bytes read back as its records, and that its counts and its
capacity are right. An audit checks a part of it and never finds fault.
-/

namespace OrderedStore.Store

/-- The blocks of a store are as they should be. -/
structure LaidOut (s : Store) : Prop where
  /-- There is a leftmost block, under the empty key. -/
  leftmost : ∃ root rest, s.directory.toList = root :: rest ∧ root.anchor = []
  anchors : Ascending Entry.anchor s.directory.toList
  /-- Every other block starts with a record, tombstone or not, at its anchor. -/
  anchored : ∀ low e high, s.directory.toList = low ++ e :: high → low ≠ [] →
    e.value.block.firstKey? = some e.anchor
  /-- The keys of a block lie between its anchor and the next. -/
  between : ∀ low e high, s.directory.toList = low ++ e :: high → ∀ r ∈ e.value.block.run,
    e.anchor ≤ r.key ∧ ∀ next ∈ high.head?, r.key < next.anchor
  ordered : ∀ e ∈ s.directory.toList, Ascending Record.key e.value.block.run
  /-- The used bytes read back as records, as many and with as many tombstones as are counted. -/
  decoded : ∀ e ∈ s.directory.toList,
    Record.readRun 0 e.value.block.image = (e.value.block.rows, none)
      ∧ e.value.block.image.length = e.value.block.used
      ∧ e.value.block.rows.length = e.value.block.recordCount
      ∧ e.value.block.rows.countP (·.record.deleted) = e.value.block.deletedCount
  sized : ∀ e ∈ s.directory.toList, e.value.block.used ≤ e.value.block.capacity
    ∧ e.value.block.capacity ≤ s.options.largestBlock
    ∧ e.value.block.capacity ∈ s.options.ladder.classes
  valid : ∀ e ∈ s.directory.toList, e.value.block.valid = true
  /-- No block is published twice. -/
  distinct : (s.directory.toList.map (·.value.id)).Nodup

namespace WellFormed

variable {s : Store}

theorem laidOut (wf : s.WellFormed) : s.LaidOut where
  leftmost := by
    have start := wf.tiles.start_eq
    cases entries : s.directory.toList with
    | nil =>
        rw [entries] at start
        contradiction
    | cons root rest =>
        rw [entries] at start
        exact ⟨root, rest, rfl, (Option.some.inj start).symm⟩
  anchors := s.directory.ascending
  anchored := by
    intro low e high eq inner
    obtain ⟨_, fits, _⟩ := wf.fits eq
    rw [Block.firstKey?_eq]
    rcases fits.starts with leftmost | head
    · cases low with
      | nil => contradiction
      | cons before low =>
          have less := (Directory.anchors_around eq).1 before List.mem_cons_self
          rw [leftmost] at less
          exact absurd less (List.not_lt_nil _)
    · exact head
  between := by
    intro low e high eq r member
    obtain ⟨_, fits, _⟩ := wf.fits eq
    refine ⟨fits.above r member, fun next head => ?_⟩
    exact fits.below r member next.anchor (Option.mem_map_of_mem _ head)
  ordered e member := (wf.enrolled member).sound.ascending
  decoded e member := (wf.enrolled member).sound.decoded
  sized := by
    intro e member
    have enrolled := wf.enrolled member
    refine ⟨enrolled.sound.room, ?_, ?_⟩
    · rw [← enrolled.ladder_max]
      exact enrolled.sound.capacity_le
    · have classes := enrolled.sound.capacity
      rw [Block.ladder, enrolled.tuning] at classes
      exact classes
  valid e member := (wf.enrolled member).sound.valid
  distinct := wf.distinct

end WellFormed

namespace Reachable

variable {o : Options} {s : Store}

/-- Whatever calls led to a store, its blocks are as they should be, and an audit finds no fault. -/
theorem laidOut_and_audited (reachable : Reachable o s) :
    s.LaidOut ∧ ∃ totals, s.audit = .ok totals :=
  ⟨reachable.wellFormed.laidOut, _, reachable.wellFormed.audit_eq⟩

theorem laidOut_after_delete : ∃ s, create {} = .ok s
    ∧ (((s.put [1] [2]).2.put [3] []).2.delete [1]).2.LaidOut
    ∧ ∃ totals, (((s.put [1] [2]).2.put [3] []).2.delete [1]).2.audit = .ok totals :=
  ⟨_, rfl, laidOut_and_audited (o := {}) (.delete [1] (.put [3] [] (.put [1] [2] (.opened rfl))))⟩

end Reachable

end OrderedStore.Store
