import Mathlib.Logic.Relation
import OrderedStore.Proofs.Writer.Alignment
import OrderedStore.Proofs.Writer.Changes
import OrderedStore.Proofs.Writer.Rounds

/-! # A call that writes, moment by moment

A call that writes holds one block, then the owners of further keys, and then makes its changes one
by one, where a put may have to split blocks before there is room. Between any two of these steps
the spans that the call holds agree with the directory, so that the owner of every key it still has
to write to is found among them.
-/

namespace OrderedStore

/-- A call that writes, between two of its steps. -/
structure Moment where
  writer : Writer
  /-- The keys whose owners are to be held before the first change. -/
  keys : List Bytes
  changes : List Change
  /-- The block that a put has just found full, or that a deletion has left a tombstone in. The
  writer does not know yet what became of it. -/
  touched : Option (Span × Block × Ledger)

/-- What happens between two moments. -/
inductive Action where
  /-- The owner of the next key is held already. -/
  | skip
  | lock
  | put
  | split
  | delete
  | compact
deriving Repr, DecidableEq

namespace Moment

/-- The writer with what the last step did to a block. -/
def seen (m : Moment) : Writer :=
  match m.touched with
  | none => m.writer
  | some (span, b, l) => m.writer.replace span b l

/-- The steps of a call, none of which has failed. -/
inductive Step : Action → Moment → Moment → Prop where
  | skip {w : Writer} {key : Bytes} {keys : List Bytes} {changes : List Change} :
      w.covers key = true →
      Step .skip ⟨w, key :: keys, changes, none⟩ ⟨w, keys, changes, none⟩
  | lock {w : Writer} {key : Bytes} {keys : List Bytes} {changes : List Change} {span : Span} :
      w.covers key = false → Writer.spanAt w.store key = .ok span →
      Step .lock ⟨w, key :: keys, changes, none⟩
        ⟨{ w with spans := Span.insert span w.spans }, keys, changes, none⟩
  | stored {w : Writer} {key value : Bytes} {rest : List Change} {span : Span} {b b' : Block}
      {l : Ledger} : w.target key = .ok (span, b) →
      b.put w.store.ledger key value = .ok (.done, b', l) →
      Step .put ⟨w, [], .put key value :: rest, none⟩ ⟨w.replace span b' l, [], rest, none⟩
  | full {w : Writer} {key value : Bytes} {rest : List Change} {span : Span} {b b' : Block}
      {l : Ledger} : w.target key = .ok (span, b) →
      b.put w.store.ledger key value = .ok (.needsSplit, b', l) →
      Step .put ⟨w, [], .put key value :: rest, none⟩
        ⟨w, [], .put key value :: rest, some (span, b', l)⟩
  | split {w w' : Writer} {key value : Bytes} {rest : List Change} {span : Span} {b : Block}
      {l : Ledger} : w.split span b l key = (.ok (), w') →
      Step .split ⟨w, [], .put key value :: rest, some (span, b, l)⟩
        ⟨w', [], .put key value :: rest, none⟩
  | absent {w : Writer} {key : Bytes} {rest : List Change} {span : Span} {b b' : Block}
      {l : Ledger} : w.target key = .ok (span, b) →
      b.delete w.store.ledger key = .ok (false, b', l) →
      Step .delete ⟨w, [], .delete key :: rest, none⟩ ⟨w.replace span b' l, [], rest, none⟩
  | marked {w : Writer} {key : Bytes} {rest : List Change} {span : Span} {b b' : Block}
      {l : Ledger} : w.target key = .ok (span, b) →
      b.delete w.store.ledger key = .ok (true, b', l) →
      Step .delete ⟨w, [], .delete key :: rest, none⟩
        ⟨w, [], .delete key :: rest, some (span, b', l)⟩
  | compact {w : Writer} {key : Bytes} {rest : List Change} {span : Span} {b : Block}
      {l : Ledger} : Step .compact ⟨w, [], .delete key :: rest, some (span, b, l)⟩
        ⟨w.replace span (b.compact l false).2.1 (b.compact l false).2.2, [], rest, none⟩

/-- Any number of steps. -/
abbrev Steps : Moment → Moment → Prop := Relation.ReflTransGen fun m m' => ∃ a, Step a m m'

/-- A writer with nothing left to do. -/
abbrev last (w : Writer) : Moment := ⟨w, [], [], none⟩

theorem Step.unique {a b : Action} {m m₁ m₂ : Moment} (first : Step a m m₁)
    (second : Step b m m₂) : m₁ = m₂ := by
  cases first <;> cases second <;> simp_all

theorem not_step_last {a : Action} {w : Writer} {m : Moment} : ¬Step a (last w) m := nofun

theorem Steps.to_last {m₀ m : Moment} {w : Writer} (steps : Steps m₀ m)
    (ends : Steps m₀ (last w)) : Steps m (last w) := by
  induction steps using Relation.ReflTransGen.head_induction_on with
  | refl => exact ends
  | head step _ ih =>
      obtain ⟨a, step⟩ := step
      rcases Relation.ReflTransGen.cases_head ends with rfl | ⟨m', ⟨b, other⟩, rest⟩
      · exact absurd step not_step_last
      · exact ih (step.unique other ▸ rest)

section

variable {w w' : Writer}

/-! ### The calls run through the steps -/

theorem steps_of_extend {keys : List Bytes} {changes : List Change}
    (extended : w.extend keys = .ok w') :
    Steps ⟨w, keys, changes, none⟩ ⟨w', [], changes, none⟩ := by
  induction keys generalizing w with
  | nil =>
      obtain rfl := Except.ok.inj extended
      exact .refl
  | cons key keys ih =>
      rw [Writer.extend] at extended
      by_cases covered : w.covers key = true
      · rw [if_pos covered] at extended
        exact .head ⟨_, .skip covered⟩ (ih extended)
      · rw [if_neg covered] at extended
        cases found : Writer.spanAt w.store key with
        | error cause => simp only [found, reduceCtorEq] at extended
        | ok span =>
            simp only [found] at extended
            exact .head ⟨_, .lock (Bool.eq_false_iff.mpr covered) found⟩ (ih extended)

theorem steps_of_rounds {key value : Bytes} {n : Nat} {rest : List Change}
    (rounds : Writer.Rounds key value w n w') :
    Steps ⟨w, [], .put key value :: rest, none⟩ ⟨w', [], rest, none⟩ := by
  induction rounds with
  | done found done => exact .single ⟨_, .stored found done⟩
  | split found full parted _ ih => exact .head ⟨_, .full found full⟩ (.head ⟨_, .split parted⟩ ih)

theorem steps_of_put {key value : Bytes} {rest : List Change}
    (done : w.put key value = (.ok (), w')) :
    Steps ⟨w, [], .put key value :: rest, none⟩ ⟨w', [], rest, none⟩ := by
  cases found : w.target key with
  | error cause => simp [Writer.put, found] at done
  | ok place =>
      simp only [Writer.put, found] at done
      obtain ⟨_, _, rounds⟩ := Writer.rounds_of_putWithin found done
      exact steps_of_rounds rounds

theorem steps_of_delete {key : Bytes} {gone : Bool} {rest : List Change}
    (done : w.delete key = (.ok gone, w')) :
    Steps ⟨w, [], .delete key :: rest, none⟩ ⟨w', [], rest, none⟩ := by
  cases found : w.target key with
  | error cause => simp [Writer.delete, found] at done
  | ok place =>
      cases deleted : place.2.delete w.store.ledger key with
      | error cause => simp [Writer.delete, found, deleted] at done
      | ok result =>
          obtain ⟨gone, b, l⟩ := result
          simp only [Writer.delete, found, deleted] at done
          cases gone with
          | false =>
              obtain rfl := (Prod.mk.inj done).2
              exact .single ⟨_, .absent found deleted⟩
          | true =>
              obtain rfl := (Prod.mk.inj done).2
              exact .head ⟨_, .marked found deleted⟩ (.single ⟨_, .compact⟩)

theorem steps_of_apply {changes : List Change} {gone : Bool}
    (applied : w.apply changes = (.ok gone, w')) : Steps ⟨w, [], changes, none⟩ (last w') := by
  induction changes generalizing w gone with
  | nil =>
      obtain rfl := (Prod.mk.inj applied).2
      exact .refl
  | cons c changes ih =>
      cases c with
      | put key value =>
          cases done : w.put key value with
          | mk result w₁ =>
              cases result with
              | error cause => simp [Writer.apply, done] at applied
              | ok =>
                  simp only [Writer.apply, done] at applied
                  exact (steps_of_put done).trans (ih applied)
      | delete key =>
          cases done : w.delete key with
          | mk result w₁ =>
              cases result with
              | error cause => simp [Writer.apply, done] at applied
              | ok here =>
                  simp only [Writer.apply, done] at applied
                  obtain ⟨later, rest⟩ := Prod.mk.inj applied
                  cases result : (w₁.apply changes).1 with
                  | error cause => simp [result, Except.map] at later
                  | ok more => exact (steps_of_delete done).trans (ih (Prod.ext result rest))

end

end Moment

/-! ### What every step keeps -/

/-- All changes can be made: their values can be stored, and their keys are covered at the latest
when the owners of `keys` are held. -/
structure Writer.Feasible (w : Writer) (keys : List Bytes) (changes : List Change) : Prop where
  storable : ∀ c ∈ changes, c.Storable w.store.options
  reached : ∀ c ∈ changes, w.covers c.key = true ∨ c.key ∈ keys

namespace Writer.Feasible

variable {w w' : Writer} {c : Change} {keys : List Bytes} {changes : List Change}

theorem covers (feasible : w.Feasible [] (c :: changes)) : w.covers c.key = true :=
  (feasible.reached c List.mem_cons_self).resolve_right List.not_mem_nil

theorem tail (feasible : w.Feasible keys (c :: changes)) : w.Feasible keys changes where
  storable c' member := feasible.storable c' (List.mem_cons_of_mem _ member)
  reached c' member := feasible.reached c' (List.mem_cons_of_mem _ member)

theorem mono (feasible : w.Feasible keys changes) (options : w'.store.options = w.store.options)
    (keeps : ∀ key, w.covers key = true → w'.covers key = true) : w'.Feasible keys changes where
  storable c member := options ▸ feasible.storable c member
  reached c member := (feasible.reached c member).imp_left (keeps c.key)

theorem follows {live : Run} (feasible : w.Feasible keys changes) (follows : w.Follows w' live) :
    w'.Feasible keys changes := feasible.mono follows.options follows.covers

theorem next {key : Bytes} (feasible : w.Feasible (key :: keys) changes)
    (options : w'.store.options = w.store.options) (here : w'.covers key = true)
    (keeps : ∀ key, w.covers key = true → w'.covers key = true) : w'.Feasible keys changes where
  storable c member := options ▸ feasible.storable c member
  reached c member := by
    rcases feasible.reached c member with covered | waiting
    · exact .inl (keeps c.key covered)
    · rcases List.mem_cons.mp waiting with same | later
      · exact .inl (same ▸ here)
      · exact .inr later

end Writer.Feasible

namespace Moment

/-- The moments from which everything left to do can be done. The store is not well-formed while a
new block beside a single record is empty, but the next step puts the record of its key there. -/
inductive Poised : Moment → Prop where
  | ready {w : Writer} {keys : List Bytes} {changes : List Change} :
      w.Ready → w.Feasible keys changes → Poised ⟨w, keys, changes, none⟩
  | full {w : Writer} {key value : Bytes} {rest : List Change} {low high : List (Entry Published)}
      {e : Entry Published} {b : Block} {l : Ledger} :
      w.Ready → w.Feasible [] (.put key value :: rest) → w.store.directory.Owns key low e high →
      b.Enrolled w.store.options.tuning → Run.Prunes e.value.block.run b.run →
      l.Balanced w.store.directory.size (b :: blocksOf (low ++ high)) → b.run ≠ [] →
      (∀ r, b.run = [r] → r.key ≠ key) →
      Poised ⟨w, [], .put key value :: rest, some (.ofEntry e high, b, l)⟩
  | opened {w : Writer} {key value : Bytes} {rest : List Change} {span : Span} {fresh b : Block}
      {l : Ledger} : w.target key = .ok (span, fresh) →
      fresh.put w.store.ledger key value = .ok (.done, b, l) → (w.replace span b l).Ready →
      w.Feasible [] (.put key value :: rest) →
      Poised ⟨w, [], .put key value :: rest, none⟩
  | marked {w : Writer} {key : Bytes} {rest : List Change} {low high : List (Entry Published)}
      {e : Entry Published} {r : Record} {l : Ledger} :
      w.Ready → w.Feasible [] (.delete key :: rest) → w.store.directory.Owns key low e high →
      e.value.block.liveAt? key = some r →
      l.Balanced w.store.directory.size (e.value.block.marked r :: blocksOf (low ++ high)) →
      Poised ⟨w, [], .delete key :: rest, some (.ofEntry e high, e.value.block.marked r, l)⟩

section

variable {w w' : Writer} {key value : Bytes} {rest : List Change} {span : Span} {b b' : Block}
  {l : Ledger}

theorem poised_stored (ready : w.Ready) (feasible : w.Feasible [] (.put key value :: rest))
    (found : w.target key = .ok (span, b))
    (done : b.put w.store.ledger key value = .ok (.done, b', l)) :
    Poised ⟨w.replace span b' l, [], rest, none⟩ := by
  obtain ⟨low, e, high, owns⟩ := ready.wellFormed.exists_owner key
  have target := (Writer.target_eq ready.marked feasible.covers owns).1
  obtain ⟨rfl, rfl⟩ := Prod.mk.inj (Except.ok.inj (found.symm.trans target))
  obtain ⟨describable, small⟩ := feasible.storable _ List.mem_cons_self
  rcases ready.put_step owns describable small with
    ⟨w', made, follows⟩ | ⟨_, _, stuck, _⟩
  · have same := (made 0).symm.trans (Writer.putWithin_done 0 done)
    obtain rfl := (Prod.mk.inj same).2
    exact .ready follows.ready (feasible.tail.follows follows)
  · simp only [done, Except.ok.injEq, Prod.mk.injEq, reduceCtorEq, false_and] at stuck

theorem poised_full (ready : w.Ready) (feasible : w.Feasible [] (.put key value :: rest))
    (found : w.target key = .ok (span, b))
    (full : b.put w.store.ledger key value = .ok (.needsSplit, b', l)) :
    Poised ⟨w, [], .put key value :: rest, some (span, b', l)⟩ := by
  obtain ⟨low, e, high, owns⟩ := ready.wellFormed.exists_owner key
  have target := (Writer.target_eq ready.marked feasible.covers owns).1
  obtain ⟨rfl, rfl⟩ := Prod.mk.inj (Except.ok.inj (found.symm.trans target))
  obtain ⟨describable, small⟩ := feasible.storable _ List.mem_cons_self
  rcases ready.put_step owns describable small with
    ⟨w', made, _⟩ | ⟨p, pl, stuck, enrolled, prunes, balanced, filled, other⟩
  · have unbounded := made 0
    simp [Writer.putWithin, full] at unbounded
  · cases full.symm.trans stuck
    exact .full ready feasible owns enrolled prunes balanced filled other

theorem poised_split {low high : List (Entry Published)} {e : Entry Published} (ready : w.Ready)
    (feasible : w.Feasible [] (.put key value :: rest))
    (owns : w.store.directory.Owns key low e high) (enrolled : b.Enrolled w.store.options.tuning)
    (prunes : Run.Prunes e.value.block.run b.run)
    (balanced : l.Balanced w.store.directory.size (b :: blocksOf (low ++ high)))
    (filled : b.run ≠ []) (other : ∀ r, b.run = [r] → r.key ≠ key)
    (parted : w.split (.ofEntry e high) b l key = (.ok (), w')) :
    Poised ⟨w', [], .put key value :: rest, none⟩ := by
  rcases ready.exists_split owns enrolled prunes balanced filled other with
    ⟨w₁, made, follows, _⟩ | ⟨above, lies_below, made⟩
  · obtain rfl := (Prod.mk.inj (parted.symm.trans made)).2
    exact .ready follows.ready (feasible.follows follows)
  · obtain rfl := (Prod.mk.inj (parted.symm.trans made)).2
    obtain ⟨describable, small⟩ := feasible.storable _ List.mem_cons_self
    obtain ⟨span, w₂, found, done, follows⟩ := ready.exists_put_fresh owns.eq above owns.below
      feasible.covers describable small enrolled prunes lies_below
      (Writer.enrolled_fresh (l := l) ready.wellFormed) rfl
      (Writer.balanced_fresh balanced w.store.options.tuning w.store.options.newBlock)
    obtain ⟨n, bounded, rounds⟩ := Writer.rounds_of_putWithin found (done 0)
    obtain rfl := Nat.le_zero.mp bounded
    cases rounds with
    | done found stored =>
        exact .opened found stored follows.ready
          (feasible.mono rfl fun _ covers => Writer.covers_addAbove _ covers)

theorem poised_absent (ready : w.Ready) (feasible : w.Feasible [] (.delete key :: rest))
    (found : w.target key = .ok (span, b))
    (absent : b.delete w.store.ledger key = .ok (false, b', l)) :
    Poised ⟨w.replace span b' l, [], rest, none⟩ := by
  have covered : w.covers key = true := feasible.covers
  obtain ⟨w₁, deleted, follows⟩ := ready.exists_delete covered
  simp only [Writer.delete, found, absent] at deleted
  obtain rfl := (Prod.mk.inj deleted).2
  exact .ready follows.ready (feasible.tail.follows follows)

theorem poised_marked (ready : w.Ready) (feasible : w.Feasible [] (.delete key :: rest))
    (found : w.target key = .ok (span, b))
    (marked : b.delete w.store.ledger key = .ok (true, b', l)) :
    Poised ⟨w, [], .delete key :: rest, some (span, b', l)⟩ := by
  obtain ⟨low, e, high, owns⟩ := ready.wellFormed.exists_owner key
  have target := (Writer.target_eq ready.marked feasible.covers owns).1
  obtain ⟨rfl, rfl⟩ := Prod.mk.inj (Except.ok.inj (found.symm.trans target))
  obtain ⟨_, fits, _⟩ := ready.wellFormed.fits owns.eq
  rcases Block.delete_cases fits.enrolled key (ready.wellFormed.balanced_at owns.eq) with
    ⟨_, kept⟩ | ⟨r, l₁, live, made, balanced⟩
  · cases marked.symm.trans kept
  · cases marked.symm.trans made
    exact .marked ready feasible owns live balanced

theorem Poised.step {a : Action} {m m' : Moment} (poised : Poised m) (step : Step a m m') :
    Poised m' := by
  cases step with
  | skip covered =>
      cases poised with
      | ready ready feasible =>
          exact .ready ready (feasible.next rfl covered fun _ covers => covers)
  | @lock w key keys changes span _ found =>
      cases poised with
      | ready ready feasible =>
          obtain ⟨low, e, high, owns⟩ := ready.wellFormed.exists_owner key
          obtain rfl := Except.ok.inj (found.symm.trans (Writer.spanAt_eq owns))
          refine .ready ⟨ready.wellFormed, Writer.marked_insert ready.marked owns.eq⟩
            (feasible.next rfl ?_ ?_)
          · rw [Writer.covers_insert, Span.covers_ofEntry.mpr ⟨owns.least, owns.below⟩,
              Bool.or_true]
          · intro k covers
            rw [Writer.covers_insert, covers, Bool.true_or]
  | stored found done =>
      cases poised with
      | ready ready feasible => exact poised_stored ready feasible found done
      | opened found' done' ready feasible =>
          cases found.symm.trans found'
          cases done.symm.trans done'
          exact .ready ready (feasible.tail.mono rfl fun _ covers => covers)
  | full found stuck =>
      cases poised with
      | ready ready feasible => exact poised_full ready feasible found stuck
      | opened found' done' _ _ =>
          cases found.symm.trans found'
          cases stuck.symm.trans done'
  | split parted =>
      cases poised with
      | full ready feasible owns enrolled prunes balanced filled other =>
          exact poised_split ready feasible owns enrolled prunes balanced filled other parted
  | absent found kept =>
      cases poised with
      | ready ready feasible => exact poised_absent ready feasible found kept
  | marked found made =>
      cases poised with
      | ready ready feasible => exact poised_marked ready feasible found made
  | compact =>
      cases poised with
      | marked ready feasible owns found balanced =>
          obtain ⟨_, fits, _⟩ := ready.wellFormed.fits owns.eq
          have enrolled := fits.enrolled.marked found
          have follows := ready.follows_marked owns found (enrolled.compact _ false)
            (Block.prunes_compact _ false) (Block.balanced_compact false enrolled balanced)
          exact .ready follows.ready (feasible.tail.follows follows)

/-- Every step leaves the spans in the outline, in its order. -/
theorem Poised.charted_step {a : Action} {m m' : Moment} (poised : Poised m)
    (charted : m.writer.Charted) (step : Step a m m') : m'.writer.Charted := by
  cases step with
  | skip | full | marked => exact charted
  | @lock w key keys changes span uncovered found =>
      cases poised with
      | ready ready _ =>
          obtain ⟨low, e, high, owns⟩ := ready.wellFormed.exists_owner key
          obtain rfl := Except.ok.inj (found.symm.trans (Writer.spanAt_eq owns))
          exact charted.insert owns uncovered
  | stored found | absent found =>
      obtain ⟨_, _, _, owns, rfl, _⟩ := charted.exists_entry_of_target found
      exact charted.replace owns.eq _ _
  | split parted =>
      cases poised with
      | full ready _ owns enrolled prunes balanced filled other =>
          obtain ⟨_, _, cuts, _⟩ :=
            ready.split_cuts owns enrolled prunes balanced filled other parted
          exact cuts.charted charted
  | compact =>
      cases poised with
      | marked _ _ owns => exact charted.replace owns.eq _ _

theorem seen_spans (m : Moment) : m.seen.spans = m.writer.spans := by
  rw [seen]
  split <;> rfl

theorem covers_seen (m : Moment) (key : Bytes) : m.seen.covers key = m.writer.covers key := by
  rw [Writer.covers, seen_spans, Writer.covers]

theorem Poised.charted_seen {m : Moment} (poised : Poised m) (charted : m.writer.Charted) :
    m.seen.Charted := by
  cases poised with
  | ready | opened => exact charted
  | full _ _ owns | marked _ _ owns => exact charted.replace owns.eq _ _

theorem Poised.covers {m : Moment} (poised : Poised m) (held : m.keys = []) {c : Change}
    (ahead : c ∈ m.changes) : m.writer.covers c.key = true := by
  have reached : m.writer.covers c.key = true ∨ c.key ∈ m.keys := by
    cases poised with
    | ready _ feasible | full _ feasible | opened _ _ _ feasible | marked _ feasible =>
        exact feasible.reached c ahead
  rw [held] at reached
  exact reached.resolve_right List.not_mem_nil

end

end Moment

end OrderedStore
