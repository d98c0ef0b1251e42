import OrderedStore.Proofs.Store.Searches

/-! # Commits of operations

Whether an operation's changes can be made is decided before the first of them: by the limits of
records, by the largest block and by the ceiling. What passes is made as a whole.
-/

namespace OrderedStore.Store

/-- What an operation answers to the record that the store shows it. -/
def outcome {ρ : Type} (s : Store) (op : Operation ρ) : Outcome ρ :=
  op.run op.initial
    ((s.liveRecords.shown? op.key op.floor).map fun r => ⟨r.key, r.value⟩) .empty

section

variable {s : Store}

/-- The answers to whether changes can be made, with what stands behind each: a record may be too
large for a block, or be none that the layout can describe. -/
inductive Admission (o : Options) (changes : List Change) : Except Misuse Bool → Prop where
  | admitted : (∀ c ∈ changes, c.Storable o) → Admission o changes (.ok true)
  | large {key value : Bytes} : .put key value ∈ changes →
      o.largestBlock < (Record.live key value).size → Admission o changes (.ok false)
  | indescribable {key value : Bytes} (cause : Misuse) : .put key value ∈ changes →
      ¬(Record.live key value).Describable → Admission o changes (.error cause)

theorem Admission.cons {o : Options} {c : Change} {changes : List Change}
    {answer : Except Misuse Bool} (storable : c.Storable o) (later : Admission o changes answer) :
    Admission o (c :: changes) answer := by
  cases later with
  | admitted rest => exact .admitted (List.forall_mem_cons.mpr ⟨storable, rest⟩)
  | large member size => exact .large (List.mem_cons_of_mem _ member) size
  | indescribable cause member out => exact .indescribable cause (List.mem_cons_of_mem _ member) out

theorem admission (s : Store) (changes : List Change) :
    Admission s.options changes (s.admitsAll changes) := by
  induction changes with
  | nil => exact .admitted (List.forall_mem_nil _)
  | cons c changes ih =>
      cases c with
      | delete key => exact .cons trivial ih
      | put key value =>
          cases measured : Record.measure key value with
          | error cause =>
              have out : ¬(Record.live key value).Describable := by
                intro describable
                rw [Record.measure_of_describable describable] at measured
                contradiction
              have refused : s.admits key value = .error cause := by
                rw [admits, measured]
                rfl
              rw [admitsAll, refused]
              exact .indescribable cause List.mem_cons_self out
          | ok size =>
              obtain ⟨describable, rfl⟩ := Record.describable_of_measure measured
              rw [admitsAll, admits_of_describable describable]
              by_cases small : (Record.live key value).size ≤ s.options.largestBlock
              · rw [decide_eq_true small]
                exact .cons ⟨describable, small⟩ ih
              · rw [decide_eq_false small]
                exact .large List.mem_cons_self (Nat.not_le.mp small)

theorem storable_of_admitsAll {changes : List Change} (admitted : s.admitsAll changes = .ok true) :
    ∀ c ∈ changes, c.Storable s.options := by
  have answered := admission s changes
  rw [admitted] at answered
  cases answered with
  | admitted storable => exact storable

theorem commit_of_misuse {changes : Changes} {cause : Misuse}
    (out : s.admitsAll changes.toList = .error cause) (anchor : Bytes) :
    s.commit anchor changes = (.error (.misuse cause), s) := by
  simp only [commit, out]

theorem commit_of_large {changes : Changes} (large : s.admitsAll changes.toList = .ok false)
    (anchor : Bytes) : s.commit anchor changes = (.ok false, s) := by
  simp only [commit, large]

end

namespace WellFormed

variable {s : Store}

theorem exists_commit (wf : s.WellFormed) (anchor : Bytes) {changes : Changes}
    (admitted : s.admitsAll changes.toList = .ok true)
    (room : (changes.hasPuts && s.atCeiling) = false) :
    ∃ s', s.commit anchor changes = (.ok true, s')
      ∧ s.Yields s' (changes.toList.foldl Run.change s.liveRecords) := by
  obtain ⟨span, held, marked, _⟩ := Writer.exists_hold wf anchor
  have ready : (⟨s, [span]⟩ : Writer).Ready := ⟨wf, marked⟩
  obtain ⟨w, extended, store, marked', _, covered⟩ :=
    Writer.exists_extend ready.wellFormed marked (changes.toList.map Change.key)
  have ready' : w.Ready := ⟨store ▸ wf, marked'⟩
  have covers : ∀ c ∈ changes.toList, w.covers c.key = true := fun c member =>
    covered c.key (List.mem_map_of_mem member)
  have possible : ∀ c ∈ changes.toList, c.Storable w.store.options := by
    rw [store]
    exact storable_of_admitsAll admitted
  obtain ⟨gone, w', applied, follows⟩ := ready'.exists_apply changes.toList covers possible
  obtain ⟨s', released, yields⟩ := exists_release follows.ready.wellFormed gone
  rw [store] at follows
  refine ⟨s', ?_, yields.wellFormed, ?_, yields.liveRecords.trans follows.liveRecords⟩
  · simp only [commit, admitted, room, held, Except.bind, extended, applied, released]
    rfl
  · exact (yields.options.trans follows.options).trans (congrArg Store.options store)

theorem commit_of_admitted (wf : s.WellFormed) (anchor : Bytes) {changes : Changes}
    (admitted : s.admitsAll changes.toList = .ok true) :
    ((changes.hasPuts && s.atCeiling) = false ∧ ∃ s', s.commit anchor changes = (.ok true, s')
        ∧ s.Yields s' (changes.toList.foldl Run.change s.liveRecords))
      ∨ (changes.hasPuts && s.atCeiling) = true
        ∧ s.commit anchor changes = (.ok false, s.reject) := by
  cases refused : changes.hasPuts && s.atCeiling with
  | false => exact .inl ⟨rfl, wf.exists_commit anchor admitted refused⟩
  | true => exact .inr ⟨rfl, by simp only [commit, admitted, refused, if_true]⟩

/-- A commit makes all changes, unless the store is at its ceiling and there is a value to store, or
one of the values cannot be stored in a block or at all. -/
theorem commit_verdicts (wf : s.WellFormed) (anchor : Bytes) (changes : Changes) :
    ((changes.hasPuts && s.atCeiling) = false ∧ ∃ s', s.commit anchor changes = (.ok true, s')
        ∧ s.Yields s' (changes.toList.foldl Run.change s.liveRecords))
      ∨ (changes.hasPuts && s.atCeiling) = true
        ∧ s.commit anchor changes = (.ok false, s.reject)
      ∨ s.commit anchor changes = (.ok false, s) ∧ (∃ key value, .put key value ∈ changes.toList
        ∧ s.options.largestBlock < (Record.live key value).size)
      ∨ ∃ cause, s.commit anchor changes = (.error (.misuse cause), s) ∧ ∃ key value,
        .put key value ∈ changes.toList ∧ ¬(Record.live key value).Describable := by
  have answered := admission s changes.toList
  cases answer : s.admitsAll changes.toList with
  | error cause =>
      rw [answer] at answered
      cases answered with
      | indescribable cause member out =>
          exact .inr (.inr (.inr ⟨cause, commit_of_misuse answer anchor, _, _, member, out⟩))
  | ok admits =>
      rw [answer] at answered
      cases answered with
      | large member size =>
          exact .inr (.inr (.inl ⟨commit_of_large answer anchor, _, _, member, size⟩))
      | admitted storable =>
          rcases wf.commit_of_admitted anchor answer with made | refused
          · exact .inl made
          · exact .inr (.inl refused)

theorem commit_of_storable (wf : s.WellFormed) (anchor : Bytes) {changes : Changes}
    (storable : ∀ c ∈ changes.toList, c.Storable s.options) :
    ((changes.hasPuts && s.atCeiling) = false ∧ ∃ s', s.commit anchor changes = (.ok true, s')
        ∧ s.Yields s' (changes.toList.foldl Run.change s.liveRecords))
      ∨ (changes.hasPuts && s.atCeiling) = true
        ∧ s.commit anchor changes = (.ok false, s.reject) := by
  rcases wf.commit_verdicts anchor changes with
    made | refused | ⟨_, key, value, member, large⟩ | ⟨_, _, key, value, member, out⟩
  · exact .inl made
  · exact .inr refused
  · have fits : (Change.put key value).Storable s.options := storable _ member
    exact absurd fits.2 (Nat.not_le.mpr large)
  · have fits : (Change.put key value).Storable s.options := storable _ member
    exact absurd fits.1 out

/-- A commit makes all changes, or the store stays as it was but for the count of refusals. -/
theorem commit_cases (wf : s.WellFormed) (anchor : Bytes) (changes : Changes) :
    (∃ s', s.commit anchor changes = (.ok true, s')
        ∧ s.Yields s' (changes.toList.foldl Run.change s.liveRecords))
      ∨ s.commit anchor changes = (.ok false, s.reject)
      ∨ ∃ verdict, verdict ≠ .ok true ∧ s.commit anchor changes = (verdict, s) := by
  rcases wf.commit_verdicts anchor changes with
    ⟨_, made⟩ | ⟨_, refused⟩ | ⟨kept, _⟩ | ⟨cause, kept, _⟩
  · exact .inl made
  · exact .inr (.inl refused)
  · exact .inr (.inr ⟨.ok false, by simp, kept⟩)
  · exact .inr (.inr ⟨.error (.misuse cause), by simp, kept⟩)

theorem settle_cases (wf : s.WellFormed) (anchor : Bytes) (readOnly : Bool)
    (verdict : Except Fault Bool) (changes : Changes) :
    (s.settle anchor readOnly verdict changes).1 = .ok true ∧ verdict = .ok true
        ∧ s.Yields (s.settle anchor readOnly verdict changes).2
          (changes.toList.foldl Run.change s.liveRecords)
      ∨ s.settle anchor readOnly verdict changes = (.ok false, s.reject)
      ∨ (s.settle anchor readOnly verdict changes).1 ≠ .ok true
        ∧ (s.settle anchor readOnly verdict changes).2 = s := by
  cases verdict with
  | error cause => exact .inr (.inr ⟨by simp [settle], rfl⟩)
  | ok accepted =>
      cases accepted with
      | false =>
          refine .inr (.inr ⟨?_, ?_⟩)
          · cases readOnly <;> cases empty : changes.isEmpty <;> simp [settle, empty]
          · cases readOnly <;> simp [settle]
      | true =>
          by_cases empty : changes.isEmpty = true
          · have nothing : changes.toList = [] := List.isEmpty_iff.mp empty
            left
            rw [nothing]
            cases readOnly with
            | false =>
                exact ⟨by simp [settle, empty], rfl, by simpa [settle, empty] using wf.yields_self⟩
            | true =>
                exact ⟨by simp [settle, empty], rfl, by simpa [settle, empty] using wf.yields_self⟩
          · cases readOnly with
            | true => exact .inr (.inr ⟨by simp [settle, empty], by simp [settle]⟩)
            | false =>
                have committed :
                    s.settle anchor false (.ok true) changes = s.commit anchor changes := by
                  simp [settle, empty]
                rw [committed]
                rcases wf.commit_cases anchor changes with
                  ⟨s', made, yields⟩ | refused | ⟨verdict, other, kept⟩
                · left
                  rw [made]
                  exact ⟨rfl, rfl, yields⟩
                · exact .inr (.inl refused)
                · right; right
                  rw [kept]
                  exact ⟨other, rfl⟩

theorem execute_of_not_fits {ρ : Type} {op : Operation ρ} (out : ¬Record.KeyFits op.key) :
    s.execute op = ⟨s, .error (.misuse (Record.keyFault op.key)), .empty, op.initial⟩ := by
  simp only [execute, Record.checkKey_of_not_fits out]

theorem execute_eq (wf : s.WellFormed) {ρ : Type} {op : Operation ρ}
    (fits : Record.KeyFits op.key) :
    ∃ anchor, s.execute op =
      ⟨(s.settle anchor op.readOnly (s.outcome op).verdict (s.outcome op).changes).2,
        (s.settle anchor op.readOnly (s.outcome op).verdict (s.outcome op).changes).1,
        (s.outcome op).changes, (s.outcome op).report⟩ := by
  obtain ⟨anchor, located⟩ := wf.exists_locate op.key op.floor
  refine ⟨anchor, ?_⟩
  simp only [execute, Record.checkKey_of_fits fits, located]
  rfl

theorem execute_of_accepts (wf : s.WellFormed) {ρ : Type} {op : Operation ρ}
    (fits : Record.KeyFits op.key) (writes : op.readOnly = false) {changes : Changes} {report : ρ}
    (outcome : s.outcome op = ⟨.ok true, changes, report⟩) (asked : changes.toList ≠ []) :
    ∃ anchor, s.execute op
      = ⟨(s.commit anchor changes).2, (s.commit anchor changes).1, changes, report⟩ := by
  obtain ⟨anchor, executed⟩ := wf.execute_eq fits
  have some_change : changes.isEmpty = false := by simpa [Changes.isEmpty] using asked
  have settled : s.settle anchor false (.ok true) changes = s.commit anchor changes := by
    simp [settle, some_change]
  rw [outcome, writes] at executed
  dsimp only at executed
  rw [settled] at executed
  exact ⟨anchor, executed⟩

theorem execute_of_asks_nothing (wf : s.WellFormed) {ρ : Type} {op : Operation ρ}
    (fits : Record.KeyFits op.key) {accepted : Bool} {report : ρ}
    (outcome : s.outcome op = ⟨.ok accepted, .empty, report⟩) :
    s.execute op = ⟨s, .ok accepted, .empty, report⟩ := by
  obtain ⟨anchor, executed⟩ := wf.execute_eq fits
  have settled : s.settle anchor op.readOnly (.ok accepted) .empty = (.ok accepted, s) := by
    cases op.readOnly <;> cases accepted <;> rfl
  rw [outcome] at executed
  dsimp only at executed
  rw [settled] at executed
  exact executed

/-- An execution makes all the changes that the operation asks for, or the store stays as it was but
for the count of refusals. -/
theorem execute_cases (wf : s.WellFormed) {ρ : Type} (op : Operation ρ) :
    (s.execute op).verdict = .ok true ∧ (s.outcome op).verdict = .ok true
        ∧ s.Yields (s.execute op).store
          ((s.outcome op).changes.toList.foldl Run.change s.liveRecords)
      ∨ (s.execute op).verdict = .ok false ∧ (s.execute op).store = s.reject
      ∨ (s.execute op).verdict ≠ .ok true ∧ (s.execute op).store = s := by
  by_cases fits : Record.KeyFits op.key
  · obtain ⟨anchor, executed⟩ := wf.execute_eq fits
    rw [executed]
    rcases wf.settle_cases anchor op.readOnly (s.outcome op).verdict (s.outcome op).changes with
      made | refused | kept
    · exact .inl made
    · rw [refused]
      exact .inr (.inl ⟨rfl, rfl⟩)
    · exact .inr (.inr kept)
  · rw [execute_of_not_fits fits]
    exact .inr (.inr ⟨by simp, rfl⟩)

theorem execute_readOnly (wf : s.WellFormed) {ρ : Type} {op : Operation ρ}
    (readOnly : op.readOnly = true) :
    (s.execute op).store = s
      ∧ ((s.outcome op).changes.toList ≠ [] → ∃ fault, (s.execute op).verdict = .error fault) := by
  by_cases fits : Record.KeyFits op.key
  · obtain ⟨anchor, executed⟩ := wf.execute_eq fits
    rw [executed, readOnly]
    cases (s.outcome op).verdict with
    | error cause => exact ⟨rfl, fun _ => ⟨cause, rfl⟩⟩
    | ok accepted =>
        refine ⟨by simp [settle], fun asked => ⟨.misuse .readOnlyWrote, ?_⟩⟩
        have some_change : (s.outcome op).changes.isEmpty = false := by
          simpa [Changes.isEmpty] using asked
        simp [settle, some_change]
  · rw [execute_of_not_fits fits]
    exact ⟨rfl, fun _ => ⟨_, rfl⟩⟩

end WellFormed

end OrderedStore.Store
