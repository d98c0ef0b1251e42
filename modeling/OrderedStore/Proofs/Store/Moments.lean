import OrderedStore.Proofs.Store.Puts
import OrderedStore.Proofs.Writer.Moments

/-! # Spans through whole calls

A put, a deletion and an execution start from one held block and run through the moments of a
writer. At each of these moments the held spans say what the directory says, so that the owner of
every key still to be written to is found among them, whatever was split before.
-/

namespace OrderedStore

namespace Store

/-- A call on `s` that has passed its checks, before its first step, and the store that it leaves. A
call that fails a check or is refused holds no block. -/
inductive Writes (s : Store) : Moment → Store → Prop where
  | put {w : Writer} (key value : Bytes) : s.admits key value = .ok true → s.atCeiling = false →
      Writer.hold s key = .ok w →
      Writes s ⟨w, [], [.put key value], none⟩ (s.put key value).2
  | delete {w : Writer} (key : Bytes) : Record.checkKey key = .ok () →
      Writer.hold s key = .ok w → Writes s ⟨w, [], [.delete key], none⟩ (s.delete key).2
  | execute {ρ : Type} {w : Writer} {anchor : Bytes} {record : Option Record} {changes : Changes}
      {report : ρ} (op : Operation ρ) : Record.checkKey op.key = .ok () → op.readOnly = false →
      s.locate op.key op.floor = .ok (anchor, record) →
      op.run op.initial (record.map fun r => ⟨r.key, r.value⟩) .empty
        = ⟨.ok true, changes, report⟩ →
      changes.isEmpty = false → s.admitsAll changes.toList = .ok true →
      (changes.hasPuts && s.atCeiling) = false → Writer.hold s anchor = .ok w →
      Writes s ⟨w, changes.toList.map Change.key, changes.toList, none⟩ (s.execute op).store

/-- The moments of a call on `s` that leaves `s'`. -/
def Within (s s' : Store) (m : Moment) : Prop := ∃ m₀, s.Writes m₀ s' ∧ Moment.Steps m₀ m

end Store

namespace Moment

/-- A step that makes room for a put: it cuts the span of the block that the put found full. -/
def MakesRoom (m m' : Moment) : Prop := ∃ key full l low e lower upper high,
  m.changes.head?.map Change.key = some key ∧ m.touched = some (.ofEntry e high, full, l)
    ∧ m.writer.Cuts m'.writer low e lower upper high
    ∧ Writer.Parts key full m.writer.store.nextId e lower upper

/-- What holds at a moment of a call that leaves `s'`. -/
structure Sound (m : Moment) (s' : Store) : Prop where
  aligned : m.seen.Aligned
  /-- The owner of every key still to be written to is found, whatever was split before. -/
  targets : m.keys = [] → ∀ c ∈ m.changes, ∃ span b, m.seen.Finds c.key span b
  locks : ∀ m', Step .lock m m' →
    ∃ key span, m.keys.head? = some key ∧ m.writer.Extends m'.writer key span
  splits : ∀ m', Step .split m m' → m.MakesRoom m'
  /-- Only a lock changes what is covered. -/
  covers : ∀ a m', Step a m m' → a ≠ .lock → ∀ k, m'.seen.covers k = m.seen.covers k
  /-- No step of the call fails. -/
  ends : ∃ w deleted, Steps m (last w) ∧ Store.release w deleted = (.ok (), s')

variable {m m' : Moment}

theorem Poised.targets (poised : Poised m) (charted : m.seen.Charted) (held : m.keys = [])
    {c : Change} (ahead : c ∈ m.changes) : ∃ span b, m.seen.Finds c.key span b := by
  have covered := poised.covers held ahead
  rw [← covers_seen] at covered
  exact charted.exists_finds covered

theorem Poised.locks (poised : Poised m) (charted : m.writer.Charted) (step : Step .lock m m') :
    ∃ key span, m.keys.head? = some key ∧ m.writer.Extends m'.writer key span := by
  cases step with
  | @lock w key keys changes span uncovered found =>
      cases poised with
      | ready ready _ =>
          obtain ⟨low, e, high, owns⟩ := ready.wellFormed.exists_owner key
          obtain rfl := Except.ok.inj (found.symm.trans (Writer.spanAt_eq owns))
          exact ⟨key, _, rfl, charted.extends_insert owns uncovered⟩

theorem Poised.makesRoom (poised : Poised m) (step : Step .split m m') : m.MakesRoom m' := by
  cases step with
  | split parted =>
      cases poised with
      | full ready _ owns enrolled prunes balanced filled other =>
          obtain ⟨lower, upper, cuts, parts⟩ :=
            ready.split_cuts owns enrolled prunes balanced filled other parted
          exact ⟨_, _, _, _, _, lower, upper, _, rfl, rfl, cuts, parts⟩

theorem Poised.covers_eq (poised : Poised m) {a : Action} (step : Step a m m') (other : a ≠ .lock)
    (k : Bytes) : m'.seen.covers k = m.seen.covers k := by
  rw [covers_seen, covers_seen]
  cases step with
  | lock => contradiction
  | split parted =>
      obtain ⟨_, _, _, _, _, _, _, _, _, _, cuts, _⟩ := poised.makesRoom (.split parted)
      exact cuts.covers_eq k
  | skip | stored | full | absent | marked | compact => rfl

end Moment

namespace Store

variable {s s' : Store} {m : Moment}

theorem WellFormed.of_hold (wf : s.WellFormed) {w : Writer} {key : Bytes}
    (held : Writer.hold s key = .ok w) :
    w.Ready ∧ w.Charted ∧ w.store = s ∧ w.covers key = true := by
  obtain ⟨span, held', marked, covered⟩ := Writer.exists_hold wf key
  obtain rfl := Except.ok.inj (held.symm.trans held')
  have charted : Writer.Charted ⟨s, [span]⟩ :=
    ⟨marked, List.pairwise_singleton _ _, wf.distinct, wf.numbered⟩
  exact ⟨⟨wf, marked⟩, charted, rfl, covered⟩

theorem WellFormed.of_writes (wf : s.WellFormed) (writes : s.Writes m s') :
    Moment.Poised m ∧ m.writer.Charted
      ∧ ∃ w deleted, Moment.Steps m (.last w) ∧ release w deleted = (.ok (), s') := by
  cases writes with
  | @put w key value admitted room held =>
      obtain ⟨ready, charted, store, covered⟩ := wf.of_hold held
      have all : s.admitsAll [.put key value] = .ok true := by simp only [admitsAll, admitted]
      have feasible : w.Feasible [] [.put key value] :=
        ⟨store ▸ storable_of_admitsAll all, by simpa [Change.key] using covered⟩
      obtain ⟨describable, small⟩ := feasible.storable _ List.mem_cons_self
      obtain ⟨w', done, _⟩ := ready.exists_put covered describable small
      refine ⟨.ready ready feasible, charted, w', false, Moment.steps_of_put done, ?_⟩
      simp only [put, admitted, room, held, done]
      rfl
  | @delete w key fits held =>
      obtain ⟨ready, charted, _, covered⟩ := wf.of_hold held
      have feasible : w.Feasible [] [.delete key] :=
        ⟨by simp [Change.Storable], by simpa [Change.key] using covered⟩
      obtain ⟨w', done, follows⟩ := ready.exists_delete covered
      obtain ⟨s'', released, _⟩ :=
        exists_release follows.ready.wellFormed (w.store.liveRecords.at? key).isSome
      refine ⟨.ready ready feasible, charted, w', (w.store.liveRecords.at? key).isSome,
        Moment.steps_of_delete done, ?_⟩
      simp only [delete, fits, held, done, released]
  | @execute _ w anchor _ changes _ op fits writes located outcome asked admitted room held =>
      obtain ⟨ready, charted, store, _⟩ := wf.of_hold held
      obtain ⟨w₁, extended, store₁, marked, _, covered⟩ :=
        Writer.exists_extend ready.wellFormed ready.marked (changes.toList.map Change.key)
      have storable : ∀ c ∈ changes.toList, c.Storable s.options := storable_of_admitsAll admitted
      have feasible : w.Feasible (changes.toList.map Change.key) changes.toList :=
        ⟨store ▸ storable, fun c member => .inr (List.mem_map_of_mem member)⟩
      have ready₁ : w₁.Ready := ⟨store₁ ▸ ready.wellFormed, marked⟩
      obtain ⟨gone, w', applied, follows⟩ := ready₁.exists_apply changes.toList
        (fun c member => covered c.key (List.mem_map_of_mem member))
        (store₁ ▸ store ▸ storable)
      obtain ⟨s'', released, _⟩ := exists_release follows.ready.wellFormed gone
      refine ⟨.ready ready feasible, charted, w', gone,
        (Moment.steps_of_extend extended).trans (Moment.steps_of_apply applied), ?_⟩
      simp only [execute, fits, located, outcome, settle, writes, asked, commit, admitted, room,
        held, Except.bind, extended, applied, released]
      rfl

theorem Within.step {a : Action} {m' : Moment} (within : s.Within s' m)
    (step : Moment.Step a m m') : s.Within s' m' := by
  obtain ⟨m₀, writes, steps⟩ := within
  exact ⟨m₀, writes, steps.tail ⟨a, step⟩⟩

theorem WellFormed.exists_split (wf : s.WellFormed) (key value : Bytes)
    (describable : (Record.live key value).Describable)
    (small : (Record.live key value).size ≤ s.options.largestBlock) (room : s.atCeiling = false)
    (more : s.blockCount < (s.put key value).2.blockCount) :
    ∃ m m', s.Within (s.put key value).2 m ∧ Moment.Step .split m m' := by
  obtain ⟨_, w, w', n, _, held, store, rounds, _, ended⟩ :=
    wf.exists_rounds describable (not_refuses_iff.mpr ⟨small, room⟩)
  have admitted : s.admits key value = .ok true := by
    rw [admits_of_describable describable, decide_eq_true small]
  have start := Writes.put key value admitted room held
  cases rounds with
  | @done w _ _ b l found _ =>
      have blocks := Writer.blockCount_replace (b := b) (l := l)
        (Writer.isSome_published?_of_target found)
      rw [ended, blocks, store] at more
      exact absurd more (Nat.lt_irrefl _)
  | split found full parted _ =>
      exact ⟨_, _, ⟨_, start, .single ⟨_, .full found full⟩⟩, .split parted⟩

theorem WellFormed.of_within (wf : s.WellFormed) (within : s.Within s' m) :
    Moment.Poised m ∧ m.writer.Charted := by
  obtain ⟨m₀, writes, steps⟩ := within
  induction steps with
  | refl =>
      obtain ⟨poised, charted, _⟩ := wf.of_writes writes
      exact ⟨poised, charted⟩
  | tail _ step ih =>
      obtain ⟨a, step⟩ := step
      exact ⟨ih.1.step step, ih.1.charted_step ih.2 step⟩

/-- At every moment of every put, deletion and execution on a reachable store, the held spans agree
with the directory, and the steps of the call keep to them. -/
theorem Reachable.moments_sound {o : Options} (reachable : Reachable o s)
    (within : s.Within s' m) : m.Sound s' := by
  have wf := reachable.wellFormed
  obtain ⟨poised, charted⟩ := wf.of_within within
  have seen := poised.charted_seen charted
  obtain ⟨m₀, writes, steps⟩ := within
  obtain ⟨_, _, w, deleted, run, released⟩ := wf.of_writes writes
  exact
    { aligned := seen.aligned
      targets := fun held c ahead => poised.targets seen held ahead
      locks := fun m' step => poised.locks charted step
      splits := fun m' step => poised.makesRoom step
      covers := fun a m' step other => poised.covers_eq step other
      ends := ⟨w, deleted, steps.to_last run, released⟩ }

/-- Two records fill a block of 64 bytes, so that a put between them has to split it. -/
theorem moments_sound_around_split : ∃ s s₁ s₂ m m',
    create { largestBlock := 64, newBlock := 64 } = .ok s
      ∧ s₁ = ((s.put [1] (.replicate 20 0)).2.put [3] (.replicate 20 0)).2
      ∧ s₂ = (s₁.put [2] (.replicate 20 0)).2
      ∧ s₁.Within s₂ m ∧ Moment.Step .split m m' ∧ m.Sound s₂ ∧ m'.Sound s₂ := by
  have reachable : Reachable { largestBlock := 64, newBlock := 64 } _ :=
    .put [3] (.replicate 20 0) (.put [1] (.replicate 20 0) (.opened rfl))
  obtain ⟨m, m', within, step⟩ :=
    reachable.wellFormed.exists_split [2] (.replicate 20 0)
      ⟨by decide, by decide⟩ (by decide +kernel) (by decide +kernel) (by decide +kernel)
  exact ⟨_, _, _, m, m', rfl, rfl, rfl, within, step, reachable.moments_sound within,
    reachable.moments_sound (within.step step)⟩

end Store

end OrderedStore
