import OrderedStore.Proofs.Operation.Decimals
import OrderedStore.Proofs.Scan.Histories
import OrderedStore.Proofs.Store.Puts

/-! # Counters in a store

An increment succeeds exactly if what is stored under its key is the text of a number in range, or
nothing, and the sum is in range as well; then the canonical text of the sum is stored. Otherwise it
fails and leaves the store and its own report as they were. Whatever else is written between the
increments of a counter that was missing at first, it stands at the sum of those that succeeded.
-/

namespace OrderedStore

/-- The operation with the report that an earlier run has left. -/
def Operation.resume {ρ : Type} (op : Operation ρ) (report : ρ) : Operation ρ :=
  { op with initial := report }

def Changes.single (c : Change) : Changes := ⟨[c], Nat.le_succ 1⟩

namespace Counter

/-- A counter stands at the number that is stored as its text, or at zero if it is missing. -/
inductive Stands : Option Bytes → Int → Prop where
  | missing : Stands none 0
  | stored {text : Bytes} {n : Int} : Denotes text n → inRange n = true → Stands (some text) n

/-- Adding `delta` takes a counter to `next`. -/
structure Advances (stored : Option Bytes) (delta next : Int) : Prop where
  stands : ∃ n, Stands stored n ∧ next = n + delta
  inside : inRange next = true

/-- Where a counter stands, read from what is stored. -/
def current? : Option Bytes → Option Int
  | none => some 0
  | some text => decode text

theorem current?_eq_some_iff {stored : Option Bytes} {n : Int} :
    current? stored = some n ↔ Stands stored n := by
  cases stored with
  | none =>
      constructor
      · intro zero
        obtain rfl := Option.some.inj zero
        exact .missing
      · rintro ⟨⟩
        rfl
  | some text =>
      rw [current?, decode_eq_some_iff]
      constructor
      · rintro ⟨denotes, inside⟩
        exact .stored denotes inside
      · rintro ⟨⟩
        exact ⟨‹_›, ‹_›⟩

/-- What may happen to a store that has a counter. -/
inductive Event : Type 1 where
  | increment (delta : Int)
  | write (write : Store.Write)

def sum (deltas : List Int) : Int := deltas.foldr (· + ·) 0

/-- What is stored of a counter that was missing before increments by `deltas`. -/
def summed (deltas : List Int) : Option Bytes :=
  if deltas = [] then none else some (encode (sum deltas))

theorem sum_concat (deltas : List Int) (delta : Int) :
    sum (deltas ++ [delta]) = sum deltas + delta := by
  induction deltas with
  | nil => exact Int.add_comm delta 0
  | cons d deltas ih =>
      have first : sum (d :: deltas ++ [delta]) = d + sum (deltas ++ [delta]) := rfl
      rw [first, ih, ← Int.add_assoc]
      rfl

theorem summed_concat (deltas : List Int) (delta : Int) :
    summed (deltas ++ [delta]) = some (encode (sum (deltas ++ [delta]))) :=
  if_neg (List.append_ne_nil_of_right_ne_nil deltas (List.cons_ne_nil delta []))

theorem current?_summed {deltas : List Int} (inside : inRange (sum deltas) = true) :
    current? (summed deltas) = some (sum deltas) := by
  rw [summed]
  split
  · rename_i none_made
    rw [none_made]
    rfl
  · exact decode_encode inside

end Counter

/-- The operation was carried out. -/
def Execution.succeeded {ρ : Type} (e : Execution ρ) : Bool :=
  match e.verdict with
  | .ok success => success
  | .error _ => false

theorem Execution.succeeded_iff {ρ : Type} {e : Execution ρ} :
    e.succeeded = true ↔ e.verdict = .ok true := by
  rw [succeeded]
  split <;> simp [*]

namespace Store

/-- The write has nothing to do with `key`. -/
def Write.Spares (key : Bytes) : Write → Prop
  | .put k _ | .delete k => k ≠ key
  | .deleteRange start stop => inRange start stop key = false
  | .compactAll => True
  | .execute op => ∀ report found, ∀ c ∈ (op.run report found .empty).changes.toList, c.key ≠ key

/-- One run of an increment that reported `before` last. -/
def count (s : Store) (key : Bytes) (delta before : Int) : Execution Int :=
  s.execute ((Operation.increment key delta).resume before)

/-- What is stored under `key`. -/
def stored (s : Store) (key : Bytes) : Option Bytes := (s.liveRecords.at? key).map (·.value)

/-- The increments of a counter among events that succeed, in their order, and the store after all
events. -/
def tally (s : Store) (key : Bytes) : List Counter.Event → List Int × Store
  | [] => ([], s)
  | .increment delta :: events =>
    let e := s.execute (.increment key delta)
    let later := e.store.tally key events
    (if e.succeeded then delta :: later.1 else later.1, later.2)
  | .write write :: events => (s.written write).tally key events

/-- What becomes of one increment: it succeeds or fails by what is `stored` under its key. -/
structure Counts (s : Store) (key : Bytes) (stored : Option Bytes) (delta before : Int) : Prop where
  succeeds_iff : (s.count key delta before).verdict = .ok true
    ↔ ∃ next, Counter.Advances stored delta next
  counted : ∀ next, Counter.Advances stored delta next →
    (s.count key delta before).report = next
      ∧ (∃ text, Counter.Canonical text next
        ∧ (s.count key delta before).store.get key = .ok (some text))
      ∧ ∀ other, other ≠ key → (s.count key delta before).store.get other = s.get other
  failed : (¬∃ next, Counter.Advances stored delta next) →
    (∃ cause, (s.count key delta before).verdict = .error (.misuse cause)
        ∧ cause = if (Counter.current? stored).isSome then .incrementOverflow else .notAnInteger)
      ∧ (s.count key delta before).store = s ∧ (s.count key delta before).report = before

section

variable {s : Store} {key : Bytes} {delta before next : Int}

theorem Yields.stored_eq {s' : Store} {live : Run} (yields : s.Yields s' live) (key : Bytes) :
    s'.stored key = (live.at? key).map (·.value) := by rw [stored, yields.liveRecords]

theorem outcome_increment (s : Store) (key : Bytes) (delta before : Int) :
    s.outcome ((Operation.increment key delta).resume before)
      = match Counter.current? (s.stored key) with
        | none => ⟨.error (.misuse .notAnInteger), .empty, before⟩
        | some n =>
          if Counter.inRange (n + delta) = true
          then ⟨.ok true, .single (.put key (Counter.encode (n + delta))), n + delta⟩
          else ⟨.error (.misuse .incrementOverflow), .empty, before⟩ := by
  have shown : s.liveRecords.shown? key false = s.liveRecords.at? key := if_neg Bool.false_ne_true
  have found : s.outcome ((Operation.increment key delta).resume before)
      = (Operation.increment key delta).run before
        ((s.liveRecords.at? key).map fun r => ⟨r.key, r.value⟩) .empty := by
    rw [← shown]
    rfl
  rw [found, stored]
  cases s.liveRecords.at? key with
  | none => rfl
  | some r =>
      simp only [Operation.increment, Option.map_some, Counter.current?]
      cases Counter.decode r.value <;> rfl

theorem outcome_of_advances (before : Int) (advances : Counter.Advances (s.stored key) delta next) :
    s.outcome ((Operation.increment key delta).resume before)
      = ⟨.ok true, .single (.put key (Counter.encode next)), next⟩ := by
  obtain ⟨⟨n, stands, rfl⟩, inside⟩ := advances
  rw [outcome_increment, Counter.current?_eq_some_iff.mpr stands]
  exact if_pos inside

theorem outcome_of_not_advances (before : Int)
    (stuck : ¬∃ next, Counter.Advances (s.stored key) delta next) :
    ∃ cause, s.outcome ((Operation.increment key delta).resume before)
        = ⟨.error (.misuse cause), .empty, before⟩
      ∧ cause = if (Counter.current? (s.stored key)).isSome then .incrementOverflow
        else .notAnInteger := by
  rw [outcome_increment]
  cases current : Counter.current? (s.stored key) with
  | none => exact ⟨.notAnInteger, rfl, rfl⟩
  | some n =>
      have stands := Counter.current?_eq_some_iff.mp current
      have outside : ¬Counter.inRange (n + delta) = true := fun inside =>
        stuck ⟨n + delta, ⟨n, stands, rfl⟩, inside⟩
      exact ⟨.incrementOverflow, if_neg outside, rfl⟩

theorem describable_encode (fits : Record.KeyFits key) (inside : Counter.inRange next = true) :
    (Record.live key (Counter.encode next)).Describable :=
  ⟨fits, Nat.le_trans (Counter.length_encode_le inside) (by decide)⟩

namespace WellFormed

theorem get_stored (wf : s.WellFormed) (fits : Record.KeyFits key) :
    s.get key = .ok (s.stored key) := wf.get_eq fits

theorem exists_count (wf : s.WellFormed) (fits : Record.KeyFits key) (before : Int)
    (advances : Counter.Advances (s.stored key) delta next)
    (accepts : ¬s.Refuses key (Counter.encode next)) :
    ∃ s', s.count key delta before
        = ⟨s', .ok true, .single (.put key (Counter.encode next)), next⟩
      ∧ s.Yields s' (Ascending.inserted Record.key (Record.live key (Counter.encode next))
        s.liveRecords) := by
  obtain ⟨small, room⟩ := not_refuses_iff.mp accepts
  obtain ⟨anchor, executed⟩ := wf.execute_of_accepts (s := s) fits rfl
    (outcome_of_advances before advances) (List.cons_ne_nil _ _)
  have storable : ∀ c ∈ (Changes.single (.put key (Counter.encode next))).toList,
      c.Storable s.options :=
    List.forall_mem_singleton.mpr ⟨describable_encode fits advances.inside, small⟩
  rcases wf.commit_of_storable anchor storable with ⟨_, s', committed, yields⟩ | ⟨refused, _⟩
  · rw [committed] at executed
    exact ⟨s', executed, yields⟩
  · rw [room, Bool.and_false] at refused
    contradiction

theorem count_of_not_advances (wf : s.WellFormed) (fits : Record.KeyFits key) (before : Int)
    (stuck : ¬∃ next, Counter.Advances (s.stored key) delta next) :
    ∃ cause, s.count key delta before = ⟨s, .error (.misuse cause), .empty, before⟩
      ∧ cause = if (Counter.current? (s.stored key)).isSome then .incrementOverflow
        else .notAnInteger := by
  obtain ⟨cause, outcome, why⟩ := outcome_of_not_advances before stuck
  have named : Record.KeyFits ((Operation.increment key delta).resume before).key := fits
  obtain ⟨anchor, executed⟩ := wf.execute_eq named
  refine ⟨cause, ?_, why⟩
  rw [count, executed, outcome]
  rfl

/-- What is stored decides how an increment ends, unless the store has no room for the sum. -/
theorem counts (wf : s.WellFormed) (fits : Record.KeyFits key)
    (accepts : ∀ next, Counter.Advances (s.stored key) delta next →
      ¬s.Refuses key (Counter.encode next)) : s.Counts key (s.stored key) delta before where
  succeeds_iff := by
    constructor
    · intro success
      apply Classical.byContradiction
      intro stuck
      obtain ⟨cause, failed, _⟩ := wf.count_of_not_advances fits before stuck
      rw [failed] at success
      contradiction
    · rintro ⟨next, advances⟩
      obtain ⟨_, counted, _⟩ := wf.exists_count fits before advances (accepts next advances)
      rw [counted]
  counted := by
    intro next advances
    obtain ⟨_, counted, yields⟩ := wf.exists_count fits before advances (accepts next advances)
    obtain ⟨there, others⟩ := yields.get_inserted wf fits
    rw [counted]
    exact ⟨rfl, ⟨Counter.encode next, Counter.canonical_encode _, there⟩, others⟩
  failed := by
    intro stuck
    obtain ⟨cause, failed, why⟩ := wf.count_of_not_advances fits before stuck
    rw [failed]
    exact ⟨⟨cause, rfl, why⟩, rfl, rfl⟩

theorem stored_written (wf : s.WellFormed) {write : Write} (spares : write.Spares key) :
    (s.written write).stored key = s.stored key := by
  have of_at? {live : Run} (yields : s.Yields (s.written write) live)
      (same : live.at? key = s.liveRecords.at? key) :
      (s.written write).stored key = s.stored key := by
    rw [yields.stored_eq, same, stored]
  cases write with
  | put k value =>
      rcases wf.put_cases k value with
        ⟨_, kept, _⟩ | ⟨kept, _⟩ | ⟨refused, _⟩ | ⟨_, s', done, yields⟩
      · rw [written, kept]
      · rw [written, kept]
      · rw [written, refused]
        exact wf.yields_reject.stored_eq key
      · rw [written, done, yields.stored_eq]
        exact congrArg _ (Run.at?_change_of_ne (c := .put k value) spares)
  | delete k =>
      by_cases fits : Record.KeyFits k
      · obtain ⟨s', done, yields⟩ := wf.exists_delete fits
        rw [written, done, yields.stored_eq]
        exact congrArg _ (Run.at?_change_of_ne (c := .delete k) spares)
      · rw [written, delete_of_not_fits fits]
  | deleteRange start stop =>
      obtain ⟨s', done, yields⟩ := wf.exists_deleteRange start stop
      have outside : inRange start stop key = false := spares
      have kept := Ascending.find?_filter_key Record.key s.liveRecords (!inRange start stop ·) key
      rw [outside] at kept
      rw [written, done, yields.stored_eq]
      exact congrArg _ kept
  | compactAll => exact wf.yields_compactAll.stored_eq key
  | execute op =>
      rcases wf.execute_cases op with ⟨_, _, yields⟩ | ⟨_, refused⟩ | ⟨_, kept⟩
      · rw [written, yields.stored_eq]
        exact congrArg _ (Run.at?_foldl_change (spares _ _) _)
      · rw [written, refused]
        exact wf.yields_reject.stored_eq key
      · rw [written, kept]

theorem stored_increment (wf : s.WellFormed) (delta : Int) {made : List Int}
    (standing : s.stored key = Counter.summed made)
    (inside : Counter.inRange (Counter.sum made) = true) :
    (s.execute (.increment key delta)).verdict = .ok true
        ∧ (s.execute (.increment key delta)).store.stored key = Counter.summed (made ++ [delta])
        ∧ Counter.inRange (Counter.sum (made ++ [delta])) = true
      ∨ (s.execute (.increment key delta)).verdict ≠ .ok true
        ∧ (s.execute (.increment key delta)).store.stored key = s.stored key := by
  have outcome : s.outcome (.increment key delta)
      = if Counter.inRange (Counter.sum made + delta) = true
        then ⟨.ok true, .single (.put key (Counter.encode (Counter.sum made + delta))),
          Counter.sum made + delta⟩
        else ⟨.error (.misuse .incrementOverflow), .empty, 0⟩ := by
    have answer := outcome_increment s key delta 0
    rw [standing, Counter.current?_summed inside] at answer
    exact answer
  rcases wf.execute_cases (.increment key delta) with
    ⟨carried, accepted, yields⟩ | ⟨verdict, refused⟩ | ⟨other, kept⟩
  · left
    rw [outcome, ← Counter.sum_concat] at accepted yields
    by_cases within : Counter.inRange (Counter.sum (made ++ [delta])) = true
    · rw [if_pos within] at yields
      refine ⟨carried, ?_, within⟩
      let record := Record.live key (Counter.encode (Counter.sum (made ++ [delta])))
      have found : (Ascending.inserted Record.key record s.liveRecords).find? (·.key = key)
          = some record := (Ascending.find?_inserted record s.liveRecords key).trans (if_pos rfl)
      rw [yields.stored_eq, Counter.summed_concat]
      exact congrArg (Option.map (·.value)) found
    · rw [if_neg within] at accepted
      contradiction
  · right
    rw [verdict, refused]
    exact ⟨by simp, wf.yields_reject.stored_eq key⟩
  · right
    rw [kept]
    exact ⟨other, rfl⟩

end WellFormed

/-- What was missing at first is the sum of the increments that succeeded, whatever else is written
between them. -/
theorem Reachable.get_tally {o : Options} (reachable : Reachable o s) (fits : Record.KeyFits key)
    (made : List Int) (standing : s.stored key = Counter.summed made)
    (inside : Counter.inRange (Counter.sum made) = true) {events : List Counter.Event}
    (spared : ∀ write, .write write ∈ events → write.Spares key) :
    (s.tally key events).2.get key = .ok (Counter.summed (made ++ (s.tally key events).1))
      ∧ Counter.inRange (Counter.sum (made ++ (s.tally key events).1)) = true := by
  induction events generalizing s made with
  | nil =>
      rw [tally, List.append_nil, reachable.wellFormed.get_stored fits, standing]
      exact ⟨rfl, inside⟩
  | cons event events ih =>
      have later : ∀ write, .write write ∈ events → write.Spares key := fun write member =>
        spared write (List.mem_cons_of_mem _ member)
      cases event with
      | increment delta =>
          have next := Reachable.execute (.increment key delta) reachable
          dsimp only [tally]
          rcases reachable.wellFormed.stored_increment delta standing inside with
            ⟨success, standing, inside⟩ | ⟨failure, kept⟩
          · rw [if_pos (Execution.succeeded_iff.mpr success), List.append_cons]
            exact ih next _ standing inside later
          · rw [if_neg (mt Execution.succeeded_iff.mp failure)]
            exact ih next _ (kept.trans standing) inside later
      | write write =>
          have kept := reachable.wellFormed.stored_written (spared write List.mem_cons_self)
          exact ih (reachable.written write) _ (kept.trans standing) inside later

/-- What is written of a number is its one canonical text and is read back. What is stored decides
how an increment ends; and after increments of a missing counter, with any writes elsewhere between
them, the sum of those that succeeded is stored. -/
theorem Reachable.counter_law {o : Options} (reachable : Reachable o s)
    (fits : Record.KeyFits key) :
    (∀ n, Counter.inRange n = true → Counter.decode (Counter.encode n) = some n
        ∧ ∀ text, Counter.Canonical text n ↔ text = Counter.encode n)
      ∧ s.get key = .ok (s.stored key)
      ∧ (∀ delta before, (∀ next, Counter.Advances (s.stored key) delta next →
          ¬s.Refuses key (Counter.encode next)) → s.Counts key (s.stored key) delta before)
      ∧ (s.get key = .ok none → ∀ events : List Counter.Event,
        (∀ write, .write write ∈ events → write.Spares key) →
        (s.tally key events).2.get key = .ok (Counter.summed (s.tally key events).1)
          ∧ Counter.inRange (Counter.sum (s.tally key events).1) = true) := by
  have wf := reachable.wellFormed
  refine ⟨?_, wf.get_stored fits, fun delta before => wf.counts fits, ?_⟩
  · intro n inside
    refine ⟨Counter.decode_encode inside, fun text => ⟨fun canonical => canonical.eq_encode, ?_⟩⟩
    rintro rfl
    exact Counter.canonical_encode n
  · intro missing events spared
    rw [wf.get_stored fits] at missing
    exact reachable.get_tally fits [] (Except.ok.inj missing) rfl spared

theorem Reachable.counter_law_of_missing : ∃ s, create {} = .ok s
    ∧ s.Counts [110] none (-12) 0
    ∧ (s.tally [110] [.increment 5, .write (.put [1] []), .increment (-12)]).1 = [5, -12]
    ∧ (s.tally [110] [.increment 5, .write (.put [1] []), .increment (-12)]).2.get [110]
      = .ok (some [45, 55]) := by
  have fits : Record.KeyFits [110] := ⟨by decide, by decide⟩
  obtain ⟨_, missing, counts, sums⟩ := counter_law (.opened (o := {}) rfl) fits
  refine ⟨_, rfl, counts (-12) 0 ?_, by decide +kernel, ?_⟩
  · rintro _ ⟨⟨n, stands, rfl⟩, _⟩
    obtain rfl : n = 0 := by cases stands; rfl
    exact not_refuses_iff.mpr ⟨by decide +kernel, rfl⟩
  · have spared : ∀ write, .write write
        ∈ [Counter.Event.increment 5, .write (.put [1] []), .increment (-12)] →
        write.Spares [110] := by
      simp [Write.Spares]
    rw [(sums missing _ spared).1]
    apply congrArg Except.ok
    decide +kernel

end

end Store

end OrderedStore
