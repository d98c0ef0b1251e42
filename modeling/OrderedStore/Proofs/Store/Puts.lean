import OrderedStore.Proofs.Store.Reachable
import OrderedStore.Proofs.Writer.Rounds

/-! # Every way out of a put

A put on a reachable store always ends, in one of four ways, and its arguments, the largest block
and the memory ceiling decide which. Only one of them changes what is stored. It splits blocks until
there is room, and the records in the block that owned the key bound how often.
-/

namespace OrderedStore

theorem Record.not_describable_iff {key value : Bytes} :
    ¬(live key value).Describable
      ↔ key = [] ∨ maxKey < key.length ∨ maxValue < value.length := by
  have describable_iff : (live key value).Describable
      ↔ (key ≠ [] ∧ key.length ≤ maxKey) ∧ value.length ≤ maxValue :=
    ⟨fun h => ⟨h.key, h.value⟩, fun h => ⟨h.1, h.2⟩⟩
  rw [describable_iff, Decidable.not_and_iff_not_or_not, Decidable.not_and_iff_not_or_not,
    Decidable.not_not, Nat.not_le, Nat.not_le, or_assoc]

namespace Store

variable {s : Store} {key value : Bytes}

theorem atCeiling_iff :
    s.atCeiling = true ↔ ∃ limit, s.options.memoryCeiling = some limit ∧ limit ≤ s.allocated := by
  rw [atCeiling, Option.any_eq_true]
  simp only [decide_eq_true_eq]

/-- When a put of a describable record is refused. -/
def Refuses (s : Store) (key value : Bytes) : Prop :=
  s.options.largestBlock < Record.sizeOf key.length value.length
    ∨ ∃ limit, s.options.memoryCeiling = some limit ∧ limit ≤ s.allocated

theorem not_refuses_iff : ¬s.Refuses key value
    ↔ (Record.live key value).size ≤ s.options.largestBlock ∧ s.atCeiling = false := by
  rw [Refuses, ← atCeiling_iff, not_or, Nat.not_lt, Bool.not_eq_true]
  exact Iff.rfl

/-- A put stores its record after splits, no more of them than the block that owned the key had
records. -/
theorem WellFormed.exists_rounds (wf : s.WellFormed)
    (describable : (Record.live key value).Describable) (accepts : ¬s.Refuses key value) :
    ∃ (owner : Entry Published) (w w' : Writer) (n : Nat),
      s.owner? key = .ok owner ∧ Writer.hold s key = .ok w ∧ w.store = s
        ∧ Writer.Rounds key value w n w' ∧ n ≤ owner.value.block.run.length
        ∧ s.put key value = (.ok true, w'.store) := by
  obtain ⟨small, room⟩ := not_refuses_iff.mp accepts
  obtain ⟨span, held, marked, covered⟩ := Writer.exists_hold wf key
  have ready : (⟨s, [span]⟩ : Writer).Ready := ⟨wf, marked⟩
  obtain ⟨low, e, high, owns⟩ := wf.exists_owner key
  obtain ⟨found, _⟩ := Writer.target_eq marked covered owns
  obtain ⟨w', stored, _⟩ := ready.exists_putWithin e.value.block.run.length owns covered describable
    small (Nat.le_refl _)
  obtain ⟨n, bounded, rounds⟩ := Writer.rounds_of_putWithin found stored
  obtain ⟨_, fits, _⟩ := wf.fits owns.eq
  have count : e.value.block.recordCount = e.value.block.run.length :=
    fits.enrolled.sound.recordCount
  have admits_eq : s.admits key value = .ok true := by
    rw [admits_of_describable describable, decide_eq_true small]
  refine ⟨e, ⟨s, [span]⟩, w', n, ?_, held, rfl, rounds, bounded, ?_⟩
  · simp only [owner?, owns.floor?_eq]
  · simp only [put, admits_eq, room, held, Writer.put, found, count, stored]
    rfl

/-- Every way out of a put: when it is taken, and what it leaves. -/
structure PutEnds (s : Store) (key value : Bytes) : Prop where
  fails_iff : (∃ fault, (s.put key value).1 = .error fault)
    ↔ key = [] ∨ Record.maxKey < key.length ∨ Record.maxValue < value.length
  /-- It fails with what is wrong with the arguments, and never because blocks contradict each
  other. -/
  failed : ∀ fault, (s.put key value).1 = .error fault → (s.put key value).2 = s
    ∧ ∃ cause, fault = .misuse cause ∧ (cause = .keyEmpty ∧ key = []
      ∨ cause = .keyTooLong ∧ Record.maxKey < key.length
      ∨ cause = .valueTooLong ∧ Record.maxValue < value.length)
  refused_iff : (s.put key value).1 = .ok false
    ↔ (Record.live key value).Describable ∧ s.Refuses key value
  /-- The count of refusals grows if the record fits a block, so that only the ceiling is in its
  way, and nothing else changes. -/
  refused : (s.put key value).1 = .ok false → (s.put key value).2
    = if Record.sizeOf key.length value.length ≤ s.options.largestBlock then s.reject else s
  accepted_iff : (s.put key value).1 = .ok true
    ↔ (Record.live key value).Describable ∧ ¬s.Refuses key value
  accepted : (s.put key value).1 = .ok true →
    (s.put key value).2.liveRecords
        = Ascending.inserted Record.key (Record.live key value) s.liveRecords
      ∧ (s.put key value).2.get key = .ok (some value)
      ∧ ∀ other, other ≠ key → (s.put key value).2.get other = s.get other
  /-- It ends after splits that the records of the owner bound, and each adds at most a block. -/
  rounds : (s.put key value).1 = .ok true → ∃ (owner : Entry Published) (w w' : Writer) (n : Nat),
    s.owner? key = .ok owner ∧ Writer.hold s key = .ok w ∧ Writer.Rounds key value w n w'
      ∧ w'.store = (s.put key value).2 ∧ n ≤ owner.value.block.run.length
      ∧ (s.put key value).2.blockCount ≤ s.blockCount + n

theorem put_of_indescribable (out : ¬(Record.live key value).Describable) :
    ∃ cause, s.put key value = (.error (.misuse cause), s) ∧ (cause = .keyEmpty ∧ key = []
      ∨ cause = .keyTooLong ∧ Record.maxKey < key.length
      ∨ cause = .valueTooLong ∧ Record.maxValue < value.length) := by
  by_cases fits : Record.KeyFits key
  · have long : Record.maxValue < value.length := Nat.not_le.mp fun short => out ⟨fits, short⟩
    exact ⟨.valueTooLong, put_of_long fits long, .inr (.inr ⟨rfl, long⟩)⟩
  · refine ⟨Record.keyFault key, put_of_not_fits fits value, ?_⟩
    by_cases empty : key = []
    · exact .inl ⟨if_pos empty, empty⟩
    · have long : Record.maxKey < key.length := Nat.not_le.mp fun short => fits ⟨empty, short⟩
      exact .inr (.inl ⟨if_neg empty, long⟩)

theorem put_of_refuses (describable : (Record.live key value).Describable)
    (refuses : s.Refuses key value) : s.put key value = (.ok false,
      if Record.sizeOf key.length value.length ≤ s.options.largestBlock then s.reject else s) := by
  by_cases small : Record.sizeOf key.length value.length ≤ s.options.largestBlock
  · rw [if_pos small]
    rcases refuses with large | reached
    · exact absurd small (Nat.not_le.mpr large)
    · exact put_of_ceiling describable small (atCeiling_iff.mpr reached)
  · rw [if_neg small]
    exact put_of_large describable (Nat.not_le.mp small)

theorem Yields.get_inserted {s' : Store} (wf : s.WellFormed)
    (yields : s.Yields s' (Ascending.inserted Record.key (Record.live key value) s.liveRecords))
    (fits : Record.KeyFits key) :
    s'.get key = .ok (some value) ∧ ∀ other, other ≠ key → s'.get other = s.get other := by
  have found : ∀ k, s'.liveRecords.at? k
      = if key = k then some (Record.live key value) else s.liveRecords.at? k := by
    intro k
    rw [yields.liveRecords]
    exact Ascending.find?_inserted (Record.live key value) s.liveRecords k
  refine ⟨?_, fun other different => ?_⟩
  · rw [yields.wellFormed.get_eq fits, found, if_pos rfl]
    rfl
  · by_cases other_fits : Record.KeyFits other
    · rw [yields.wellFormed.get_eq other_fits, wf.get_eq other_fits, found,
        if_neg (Ne.symm different)]
    · rw [get_of_not_fits other_fits, get_of_not_fits other_fits]

theorem PutEnds.of_indescribable (out : ¬(Record.live key value).Describable) :
    s.PutEnds key value := by
  obtain ⟨cause, ended, why⟩ := s.put_of_indescribable out
  have answer : (s.put key value).1 = .error (.misuse cause) := by rw [ended]
  exact
    { fails_iff := iff_of_true ⟨_, answer⟩ (Record.not_describable_iff.mp out)
      failed := by
        intro fault failed
        rw [answer] at failed
        cases failed
        exact ⟨by rw [ended], cause, rfl, why⟩
      refused_iff := iff_of_false (by simp [answer]) fun h => out h.1
      refused := by simp [answer]
      accepted_iff := iff_of_false (by simp [answer]) fun h => out h.1
      accepted := by simp [answer]
      rounds := by simp [answer] }

theorem PutEnds.of_refuses (describable : (Record.live key value).Describable)
    (refuses : s.Refuses key value) : s.PutEnds key value := by
  have ended := put_of_refuses describable refuses
  have answer : (s.put key value).1 = .ok false := by rw [ended]
  exact
    { fails_iff := iff_of_false (by simp [answer])
        fun h => Record.not_describable_iff.mpr h describable
      failed := by simp [answer]
      refused_iff := iff_of_true answer ⟨describable, refuses⟩
      refused := fun _ => by rw [ended]
      accepted_iff := iff_of_false (by simp [answer]) fun h => h.2 refuses
      accepted := by simp [answer]
      rounds := by simp [answer] }

theorem WellFormed.putEnds (wf : s.WellFormed) (key value : Bytes) : s.PutEnds key value := by
  by_cases describable : (Record.live key value).Describable
  · by_cases refuses : s.Refuses key value
    · exact .of_refuses describable refuses
    · obtain ⟨small, room⟩ := not_refuses_iff.mp refuses
      obtain ⟨s', stored, yields⟩ := wf.exists_put describable small room
      obtain ⟨owner, w, w', n, owned, held, store, rounds, bounded, ended⟩ :=
        wf.exists_rounds describable refuses
      have answer : (s.put key value).1 = .ok true := by rw [ended]
      have blocks : w'.store.blockCount ≤ s.blockCount + n := store ▸ rounds.blockCount_le
      exact
        { fails_iff := iff_of_false (by simp [answer])
            fun h => Record.not_describable_iff.mpr h describable
          failed := by simp [answer]
          refused_iff := iff_of_false (by simp [answer]) fun h => refuses h.2
          refused := by simp [answer]
          accepted_iff := iff_of_true answer ⟨describable, refuses⟩
          accepted := by
            intro _
            rw [stored]
            exact ⟨yields.liveRecords, yields.get_inserted wf describable.key⟩
          rounds := by
            intro _
            rw [ended]
            exact ⟨owner, w, w', n, owned, held, rounds, rfl, bounded, blocks⟩ }
  · exact .of_indescribable describable

/-- Every put on a reachable store ends as its arguments, the largest block and the ceiling say. -/
theorem Reachable.put_ends {o : Options} (reachable : Reachable o s) (key value : Bytes) :
    s.PutEnds key value := reachable.wellFormed.putEnds key value

/-- Two records fill a block of 64 bytes, so that the third one splits it. -/
theorem put_ends_after_split : ∃ s, create { largestBlock := 64, newBlock := 64 } = .ok s
    ∧ ((s.put [1] (.replicate 20 0)).2.put [3] (.replicate 20 0)).2.PutEnds [2] (.replicate 20 0)
    ∧ ((s.put [1] (.replicate 20 0)).2.put [3] (.replicate 20 0)).2.blockCount = 1
    ∧ (((s.put [1] (.replicate 20 0)).2.put [3] (.replicate 20 0)).2.put [2]
        (.replicate 20 0)).2.blockCount = 2 :=
  ⟨_, rfl, Reachable.put_ends (o := { largestBlock := 64, newBlock := 64 })
    (.put [3] _ (.put [1] _ (.opened rfl))) [2] _, by decide +kernel, by decide +kernel⟩

end Store

end OrderedStore
