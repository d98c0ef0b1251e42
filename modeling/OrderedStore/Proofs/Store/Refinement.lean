import OrderedStore.Proofs.Store.Contents
import OrderedStore.Proofs.Store.Reachable

/-! # Stores refine the reference map

A store holds a map when its live records are the rows of the map. Every call on such a store gives
an answer that the map gives, and leaves a store that holds the map after it; calls on a freshly
opened store are therefore calls on the empty map, whatever the options and the blocks.
-/

namespace OrderedStore

namespace Store

/-- What a call answers, and the store after it. -/
def answer (s : Store) : Call → Except Fault Answer × Store
  | .put key value =>
    let (result, s) := s.put key value
    (result.map .flag, s)
  | .delete key =>
    let (result, s) := s.delete key
    (result.map .flag, s)
  | .deleteRange start stop =>
    let (result, s) := s.deleteRange start stop
    (result.map .number, s)
  | .compactAll =>
    let (shrank, s) := s.compactAll
    (.ok (.number shrank), s)
  | .get key => ((s.get key).map .value, s)
  | .getInto key buffer =>
    ((s.getInto key buffer).map fun r => .copied r.1 r.2, s)
  | .contains key => ((s.contains key).map .flag, s)
  | .size => (.ok (.number s.size), s)
  | .isEmpty => (.ok (.flag s.isEmpty), s)

/-- What calls in their order answer, and the store after them. -/
def answers (s : Store) : List Call → List (Except Fault Answer) × Store
  | [] => ([], s)
  | call :: calls =>
    let (answer, s) := s.answer call
    let (answers, s) := s.answers calls
    (answer :: answers, s)

/-- The live records are the rows of the map. -/
def Holds (s : Store) (m : Contents) : Prop := s.liveRecords.map Record.row = m.rows

namespace Holds

variable {s s' : Store} {m : Contents} {key value : Bytes}

theorem get?_eq (holds : s.Holds m) (key : Bytes) :
    m.get? key = (s.liveRecords.at? key).map (·.value) := Contents.get?_of_rows holds key

theorem isSome_get? (holds : s.Holds m) (key : Bytes) :
    (m.get? key).isSome = (s.liveRecords.at? key).isSome := by
  rw [holds.get?_eq, Option.isSome_map]

theorem length_eq (holds : s.Holds m) : s.liveRecords.length = m.size := by
  rw [Contents.size, ← holds, List.length_map]

theorem same (holds : s.Holds m) (yields : s.Yields s' s.liveRecords) : s'.Holds m := by
  rw [Holds, yields.liveRecords]
  exact holds

theorem insert (holds : s.Holds m)
    (yields : s.Yields s' (Ascending.inserted Record.key (Record.live key value) s.liveRecords)) :
    s'.Holds (m.insert key value) := by
  rw [Holds, yields.liveRecords]
  exact Contents.rows_insert holds

theorem without (holds : s.Holds m) {gone : Bytes → Bool}
    (yields : s.Yields s' (s.liveRecords.filter (!gone ·.key))) : s'.Holds (m.without gone) := by
  rw [Holds, yields.liveRecords]
  exact Contents.rows_without holds gone

theorem erase (holds : s.Holds m) (yields : s.Yields s' (s.liveRecords.filter (·.key ≠ key))) :
    s'.Holds (m.erase key) := by
  rw [Holds, yields.liveRecords]
  exact Contents.rows_erase holds key

theorem rangeSize_eq (holds : s.Holds m) (start stop : Option Bytes) :
    (s.liveRecords.filter (inRange start stop ·.key)).length = m.rangeSize start stop := by
  rw [Contents.rangeSize, ← holds, List.filter_map, List.length_map]
  rfl

end Holds

theorem answer_of_not_fits {s : Store} {call : Call} {key : Bytes} (named : call.key? = some key)
    (out : ¬Record.KeyFits key) :
    s.answer call = (.error (.misuse (Record.keyFault key)), s) := by
  cases call with
  | put k value =>
      obtain rfl : k = key := Option.some.inj named
      simp only [answer, put_of_not_fits out]
      rfl
  | delete k =>
      obtain rfl : k = key := Option.some.inj named
      simp only [answer, delete_of_not_fits out]
      rfl
  | get k =>
      obtain rfl : k = key := Option.some.inj named
      simp only [answer, get_of_not_fits out]
      rfl
  | getInto k buffer =>
      obtain rfl : k = key := Option.some.inj named
      simp only [answer, getInto_of_not_fits out]
      rfl
  | contains k =>
      obtain rfl : k = key := Option.some.inj named
      simp only [answer, contains_of_not_fits out]
      rfl
  | deleteRange start stop => contradiction
  | compactAll => contradiction
  | size => contradiction
  | isEmpty => contradiction

variable {s : Store} {m : Contents}

theorem answer_getInto (wf : s.WellFormed) (holds : s.Holds m) {key : Bytes}
    (fits : Record.KeyFits key) (buffer : Bytes) :
    s.answer (.getInto key buffer) = (.ok (m.copied key buffer), s) := by
  rw [answer, wf.getInto_eq fits, ← holds.get?_eq, Contents.copied]
  cases m.get? key with
  | none => rfl
  | some value => simp [Except.map, Bytes.overwrite]

/-- A put stores its record in the map, or is refused for its size or at a ceiling. -/
theorem exists_step_put (wf : s.WellFormed) (holds : s.Holds m) {key : Bytes}
    (fits : Record.KeyFits key) (value : Bytes) :
    ∃ m', m.Step s.options (.put key value) (s.answer (.put key value)).1 m'
      ∧ (s.answer (.put key value)).2.Holds m' := by
  by_cases short : value.length ≤ Record.maxValue
  · have describable : (Record.live key value).Describable := ⟨fits, short⟩
    by_cases small : (Record.live key value).size ≤ s.options.largestBlock
    · cases ceiling : s.atCeiling with
      | true =>
          have some_ceiling : s.options.memoryCeiling ≠ none := by
            intro no_ceiling
            rw [atCeiling, no_ceiling] at ceiling
            contradiction
          simp only [answer, put_of_ceiling describable small ceiling]
          exact ⟨m, .refused describable (.inr some_ceiling), holds.same wf.yields_reject⟩
      | false =>
          obtain ⟨s', stored, yields⟩ := wf.exists_put describable small ceiling
          simp only [answer, stored]
          exact ⟨m.insert key value, .put describable small, holds.insert yields⟩
    · have large := Nat.not_le.mp small
      simp only [answer, put_of_large describable large]
      exact ⟨m, .refused describable (.inl large), holds⟩
  · have long := Nat.not_le.mp short
    simp only [answer, put_of_long fits long]
    exact ⟨m, .valueTooLong fits long, holds⟩

theorem exists_step (wf : s.WellFormed) (holds : s.Holds m) (call : Call) :
    ∃ m', m.Step s.options call (s.answer call).1 m' ∧ (s.answer call).2.Holds m' := by
  by_cases out : ∃ key, call.key? = some key ∧ ¬Record.KeyFits key
  · obtain ⟨key, named, out⟩ := out
    rw [answer_of_not_fits named out]
    exact ⟨m, .misuse named out, holds⟩
  · have fits : ∀ key, call.key? = some key → Record.KeyFits key := fun key named =>
      Decidable.byContradiction fun bad => out ⟨key, named, bad⟩
    cases call with
    | put key value => exact exists_step_put wf holds (fits key rfl) value
    | delete key =>
        obtain ⟨s', deleted, yields⟩ := wf.exists_delete (fits key rfl)
        simp only [answer, deleted]
        rw [← holds.isSome_get?]
        exact ⟨m.erase key, .delete (fits key rfl), holds.erase yields⟩
    | deleteRange start stop =>
        obtain ⟨s', deleted, yields⟩ := wf.exists_deleteRange start stop
        simp only [answer, deleted]
        rw [holds.rangeSize_eq]
        exact ⟨m.eraseRange start stop, .deleteRange start stop, holds.without yields⟩
    | compactAll => exact ⟨m, .compactAll _, holds.same wf.yields_compactAll⟩
    | get key =>
        simp only [answer, wf.get_eq (fits key rfl)]
        rw [← holds.get?_eq]
        exact ⟨m, .get (fits key rfl), holds⟩
    | getInto key buffer =>
        rw [answer_getInto wf holds (fits key rfl)]
        exact ⟨m, .getInto buffer (fits key rfl), holds⟩
    | contains key =>
        simp only [answer, wf.contains_eq (fits key rfl)]
        rw [← holds.isSome_get?]
        exact ⟨m, .contains (fits key rfl), holds⟩
    | size =>
        simp only [answer, wf.size_eq]
        rw [holds.length_eq]
        exact ⟨m, .size, holds⟩
    | isEmpty =>
        simp only [answer, isEmpty, wf.size_eq]
        rw [holds.length_eq]
        exact ⟨m, .isEmpty, holds⟩

theorem Reachable.answer {o : Options} (reachable : Reachable o s) (call : Call) :
    Reachable o (s.answer call).2 := by
  cases call with
  | put key value => exact .put key value reachable
  | delete key => exact .delete key reachable
  | deleteRange start stop => exact .deleteRange start stop reachable
  | compactAll => exact .compactAll reachable
  | get key => exact reachable
  | getInto key buffer => exact reachable
  | contains key => exact reachable
  | size => exact reachable
  | isEmpty => exact reachable

theorem exists_runs {o : Options} (reachable : Reachable o s) (holds : s.Holds m)
    (calls : List Call) : ∃ m', m.Runs o calls (s.answers calls).1 m'
      ∧ (s.answers calls).2.Holds m' := by
  induction calls generalizing s m with
  | nil => exact ⟨m, .nil, holds⟩
  | cons call calls ih =>
      obtain ⟨m', step, holds'⟩ := exists_step reachable.wellFormed holds call
      obtain ⟨m'', runs, holds''⟩ := ih (reachable.answer call) holds'
      exact ⟨m'', .cons (reachable.options_eq ▸ step) runs, holds''⟩

/-- A store opened with options that pass the check answers every run of calls as a map that was
empty at first, and holds that map after them. -/
theorem answers_refine_contents {o : Options} (accepted : o.check = .ok ()) :
    ∃ s, create o = .ok s ∧ ∀ calls : List Call,
      ∃ m, Contents.empty.Runs o calls (s.answers calls).1 m ∧ (s.answers calls).2.Holds m := by
  obtain ⟨s, opened, _, _, nothing⟩ := WellFormed.of_check accepted
  have holds : s.Holds .empty := by
    rw [Holds, nothing]
    rfl
  exact ⟨s, opened, fun calls => exists_runs (.opened opened) holds calls⟩

/-- Calls on records in several blocks: one is replaced and four are deleted, one by its key and
three by a range, and two puts fail. -/
def someCalls : List Call :=
  [.put [97] [1], .put [98] (.replicate 20 2), .put [99] (.replicate 20 3),
    .put [100] (.replicate 20 4), .put [101] (.replicate 20 5), .put [97] [6, 7],
    .put [102] (.replicate 60 0), .put [] [], .get [97], .getInto [97] [0], .getInto [97] [0, 0, 0],
    .delete [98], .contains [98], .delete [98], .size, .deleteRange (some [99]) none, .compactAll,
    .isEmpty, .size]

theorem answers_refine_contents_small : ∃ s, create smallBlocks = .ok s
    ∧ (s.answers someCalls).1 = [.ok (.flag true), .ok (.flag true), .ok (.flag true),
      .ok (.flag true), .ok (.flag true), .ok (.flag true), .ok (.flag false),
      .error (.misuse .keyEmpty), .ok (.value (some [6, 7])), .ok (.copied (some 2) [0]),
      .ok (.copied (some 2) [6, 7, 0]), .ok (.flag true), .ok (.flag false), .ok (.flag false),
      .ok (.number 4), .ok (.number 3), .ok (.number 0), .ok (.flag false), .ok (.number 1)]
    ∧ (s.answers (someCalls.take 6)).2.blocks.length = 3
    ∧ ∃ m, Contents.empty.Runs smallBlocks someCalls (s.answers someCalls).1 m
      ∧ (s.answers someCalls).2.Holds m := by
  obtain ⟨s, opened, refines⟩ := answers_refine_contents (o := smallBlocks) rfl
  refine ⟨s, opened, ?_, ?_, refines someCalls⟩
  · cases opened
    decide +kernel
  · cases opened
    decide +kernel

end Store

end OrderedStore
