import OrderedStore.Proofs.Block.Pages
import OrderedStore.Proofs.Store.Contents

/-! # Blocks refine the reference map

A block shows a map when its bytes read back as records whose live ones are the rows of the map, and
every reader finds what the map holds. Calls on such a block answer as the map does and leave a block
that shows the map after them, and its bytes are what the edits of the calls make of them.
-/

namespace OrderedStore.Block

/-- The calls that change the records of one block or its region. -/
inductive Call where
  | put (key value : Bytes)
  | delete (key : Bytes)
  | compact (force : Bool)
  | expand
deriving Repr, DecidableEq

/-- What a call that did not fail answers. -/
inductive Answer where
  | put (result : PutResult)
  | flag (holds : Bool)
deriving Repr, DecidableEq

/-- What a call answers, and the block and the ledger after it. -/
def answer (b : Block) (l : Ledger) : Call → Except Misuse Answer × Block × Ledger
  | .put key value =>
    match b.put l key value with
    | .ok (result, b, l) => (.ok (.put result), b, l)
    | .error cause => (.error cause, b, l)
  | .delete key =>
    match b.delete l key with
    | .ok (found, b, l) => (.ok (.flag found), b, l)
    | .error cause => (.error cause, b, l)
  | .compact force =>
    let (shrank, b, l) := b.compact l force
    (.ok (.flag shrank), b, l)
  | .expand =>
    match b.expand? l with
    | some (b, l) => (.ok (.flag true), b, l)
    | none => (.ok (.flag false), b, l)

/-- What calls in their order answer, and the block and the ledger after them. -/
def answers (b : Block) (l : Ledger) : List Call → List (Except Misuse Answer) × Block × Ledger
  | [] => ([], b, l)
  | call :: calls =>
    let (answer, b, l) := b.answer l call
    let (answers, b, l) := b.answers l calls
    (answer :: answers, b, l)

/-- The answers that steps give to calls in their order, and the state after them. -/
inductive Call.Runs {State : Type} (step : State → Call → Except Misuse Answer → State → Prop) :
    State → List Call → List (Except Misuse Answer) → State → Prop where
  | nil {s : State} : Runs step s [] [] s
  | cons {s s' s'' : State} {call : Call} {calls : List Call} {answer : Except Misuse Answer}
      {answers : List (Except Misuse Answer)} : step s call answer s' →
      Runs step s' calls answers s'' → Runs step s (call :: calls) (answer :: answers) s''

/-- The answers that the map gives to a call on a block of at most `max` bytes, and the map after
it. The map does not tell whether a compaction or a growth found anything to do. -/
inductive Call.Means (max : Nat) (m : Contents) : Call → Except Misuse Answer → Contents → Prop where
  | refused {key value : Bytes} {cause : Misuse} : Record.check key value max = .error cause →
      Means max m (.put key value) (.error cause) m
  | done {key value : Bytes} {size : Nat} : Record.check key value max = .ok size →
      Means max m (.put key value) (.ok (.put .done)) (m.insert key value)
  | full {key value : Bytes} {size : Nat} : Record.check key value max = .ok size →
      Means max m (.put key value) (.ok (.put .needsSplit)) m
  | delete (key : Bytes) :
      Means max m (.delete key) (.ok (.flag (m.get? key).isSome)) (m.erase key)
  | compact (force shrank : Bool) : Means max m (.compact force) (.ok (.flag shrank)) m
  | expand (grew : Bool) : Means max m .expand (.ok (.flag grew)) m

/-- The answers that editing a page gives to a call, and the page after it. -/
inductive Call.Edits (tuning : Tuning) (p : Page) : Call → Except Misuse Answer → Page → Prop where
  | refused {key value : Bytes} {cause : Misuse} :
      Record.check key value tuning.ladder.max = .error cause →
      Edits tuning p (.put key value) (.error cause) p
  | put {key value : Bytes} {size : Nat} {result : PutResult} {p' : Page} :
      Record.check key value tuning.ladder.max = .ok size →
      p.Puts tuning key value (result, p') → Edits tuning p (.put key value) (.ok (.put result)) p'
  | delete {key : Bytes} {found : Bool} {p' : Page} : p.delete key = .ok (found, p') →
      Edits tuning p (.delete key) (.ok (.flag found)) p'
  | compact {force shrank : Bool} {p' : Page} : p.compact tuning force = .ok (shrank, p') →
      Edits tuning p (.compact force) (.ok (.flag shrank)) p'
  | expand {p' : Page} : p.expand? tuning = some p' → Edits tuning p .expand (.ok (.flag true)) p'
  | largest : p.expand? tuning = none → Edits tuning p .expand (.ok (.flag false)) p

/-- The block holds the map, its bytes tell so, and readers find what the map holds. -/
structure Shows (b : Block) (m : Contents) : Prop where
  length : b.page.bytes.length = b.capacity
  /-- The used bytes read back as records, as many and with as many tombstones as are counted. -/
  decoded : Record.readRun 0 b.page.data = (b.rows, none) ∧ b.page.data.length = b.used
    ∧ b.rows.length = b.recordCount ∧ b.rows.countP (·.record.deleted) = b.deletedCount
  room : b.used ≤ b.capacity
  ordered : Ascending (·.record.key) b.rows
  live : (b.rows.filter (!·.record.deleted)).map (·.record.row) = m.rows
  get? : ∀ key, b.get? key = m.get? key
  /-- A key is found at its live record. -/
  find?_iff : ∀ key offset, b.find? key = some offset
    ↔ ∃ value, m.get? key = some value ∧ ⟨offset, Record.live key value⟩ ∈ b.rows
  floor? : ∀ key, (b.floorRow? key).map (·.record.row) = m.floor? key
  mem_of_floor? : ∀ key row, b.floorRow? key = some row → row ∈ b.rows
  /-- A search ends at the first record, deleted or not, that is not below the key. -/
  search : ∀ key, b.search key
    = ((b.rows.find? (key ≤ ·.record.key)).map (·.offset)).getD b.used

section

variable {b : Block} {l : Ledger} {m : Contents}

theorem WellFormed.ordered_rows (wf : b.WellFormed) : Ascending (·.record.key) b.rows := by
  have asc := wf.ascending
  rw [← Run.map_record_place 0 b.run, Ascending, List.pairwise_map] at asc
  exact asc

theorem WellFormed.mem_rows_iff (wf : b.WellFormed) {row : Record.Placed} :
    row ∈ b.rows ↔ row.record ∈ b.run ∧ row.offset = b.search row.record.key := by
  constructor
  · intro member
    obtain ⟨low, high, eq, at_offset⟩ := Run.exists_eq_of_mem_place member
    rw [wf.search_key_eq eq, at_offset, Nat.zero_add]
    exact ⟨by simp [eq], rfl⟩
  · rintro ⟨member, at_offset⟩
    obtain ⟨low, high, eq⟩ := List.append_of_mem member
    have here : row = ⟨0 + Run.size low, row.record⟩ := by
      rw [Nat.zero_add, ← wf.search_key_eq eq, ← at_offset]
    rw [rows, eq, Run.place_append, here]
    exact List.mem_append_right _ List.mem_cons_self

theorem WellFormed.find?_iff (wf : b.WellFormed)
    (holds : (Run.live b.run).map Record.row = m.rows) (key : Bytes) (offset : Nat) :
    b.find? key = some offset
      ↔ ∃ value, m.get? key = some value ∧ ⟨offset, Record.live key value⟩ ∈ b.rows := by
  have get?_eq : m.get? key = (b.liveAt? key).map (·.value) := by
    rw [wf.liveAt?_eq, Contents.get?_of_rows holds]
  constructor
  · intro found
    obtain ⟨r, live, at_offset⟩ := Option.map_eq_some_iff.mp found
    obtain ⟨member, alive, rfl⟩ := wf.mem_of_liveAt? live
    have same : r = Record.live r.key r.value := by
      cases r
      simp_all [Record.live]
    refine ⟨r.value, by rw [get?_eq, live]; rfl, ?_⟩
    rw [← same]
    exact wf.mem_rows_iff.mpr ⟨member, at_offset.symm⟩
  · rintro ⟨value, _, member⟩
    obtain ⟨inside, at_offset⟩ := wf.mem_rows_iff.mp member
    have live : b.liveAt? key = some (Record.live key value) := by
      have found : b.at? key = some (Record.live key value) :=
        wf.at?_eq_some_iff.mpr ⟨inside, rfl⟩
      rw [liveAt?, found]
      rfl
    rw [find?, live]
    exact congrArg some at_offset.symm

theorem WellFormed.shows (wf : b.WellFormed) (holds : (Run.live b.run).map Record.row = m.rows) :
    b.Shows m where
  length := wf.length_page
  decoded := by
    rw [wf.data_page]
    exact wf.decoded
  room := wf.room
  ordered := wf.ordered_rows
  live := by
    have records : (b.rows.map (·.record)).filter (!·.deleted)
        = (b.rows.filter (!·.record.deleted)).map (·.record) := List.filter_map
    rw [rows, Run.map_record_place, ← rows] at records
    rw [← holds, Run.live, records, List.map_map]
    rfl
  get? key := by rw [Block.get?, wf.liveAt?_eq, Contents.get?_of_rows holds]
  find?_iff := wf.find?_iff holds
  floor? key := by
    rw [floorRow?, Option.map_map, wf.floor?_eq, Contents.floor?_of_rows holds]
    rfl
  mem_of_floor? key row found := by
    obtain ⟨r, shown, rfl⟩ := Option.map_eq_some_iff.mp found
    rw [wf.floor?_eq] at shown
    have member := (List.mem_filter.mp (List.mem_of_getLast? shown)).1
    exact wf.mem_rows_iff.mpr ⟨(Run.mem_live.mp member).1, rfl⟩
  search := wf.search_eq

/-- A well-formed block whose live records are the rows of the map. -/
structure Keeps (b : Block) (m : Contents) : Prop where
  wellFormed : b.WellFormed
  rows : (Run.live b.run).map Record.row = m.rows

/-- A call answers as the map does, and edits the page. -/
structure Obeys (b : Block) (m : Contents) (call : Call)
    (result : Except Misuse Answer × Block × Ledger) : Prop where
  edits : call.Edits b.tuning b.page result.1 result.2.1.page
  tuning : result.2.1.tuning = b.tuning
  means : ∃ m', call.Means b.ladder.max m result.1 m' ∧ result.2.1.Keeps m'

namespace Keeps

theorem obeys_put (keeps : b.Keeps m) (l : Ledger) (key value : Bytes) :
    b.Obeys m (.put key value) (b.answer l (.put key value)) := by
  have wf := keeps.wellFormed
  cases checked : Record.check key value b.ladder.max with
  | error cause =>
      have refused : b.put l key value = .error cause := by
        simp [put, wf.ensureValid, checked, bind, Except.bind]
      simp only [answer, refused]
      exact ⟨.refused checked, rfl, m, .refused checked, keeps⟩
  | ok size =>
      obtain ⟨describable, rfl, _⟩ := Record.describable_of_check checked
      obtain ⟨p, answered, wf_p, prunes, last⟩ := wf.exists_outcome (l := l) checked
      obtain ⟨ended, n, answered', _, rounds⟩ := wf.exists_rounds (l := l) checked
      obtain rfl : p.1.outcome p.2 (Record.live key value) = ended :=
        Except.ok.inj (answered.symm.trans answered')
      have tuning_p : p.1.tuning = b.tuning := by
        rcases last with ⟨rfl, _⟩ | rfl
        · rfl
        · exact tuning_prepared b l _
      have edited := rounds.puts wf
      have after : (p.1.outcome p.2 (Record.live key value)).2.1.WellFormed :=
        wf_p.outcome rfl describable
      cases result : (p.1.outcome p.2 (Record.live key value)).1 with
      | done =>
          have rows : (Run.live (p.1.stored p.2 (Record.live key value)).1.run).map Record.row
              = (m.insert key value).rows := by
            rw [wf_p.live_stored rfl, prunes.live]
            exact Contents.rows_insert keeps.rows
          rw [outcome_of_done result] at answered edited after
          simp only [answer, answered]
          exact ⟨.put checked edited, tuning_p, m.insert key value, .done checked, after, rows⟩
      | needsSplit =>
          rw [outcome_of_full result] at answered edited
          simp only [answer, answered]
          exact ⟨.put checked edited, tuning_p, m, .full checked, wf_p, prunes.live ▸ keeps.rows⟩

theorem obeys_delete (keeps : b.Keeps m) (l : Ledger) (key : Bytes) :
    b.Obeys m (.delete key) (b.answer l (.delete key)) := by
  have wf := keeps.wellFormed
  have present : (m.get? key).isSome = (b.liveAt? key).isSome := by
    rw [Contents.get?_of_rows keeps.rows, ← wf.liveAt?_eq, Option.isSome_map]
  have means : Call.Means b.ladder.max m (.delete key) _ _ := .delete key
  rw [present] at means
  obtain ⟨found, b', l', deleted, edited⟩ := wf.delete_page (l := l) key
  have outcome := wf.delete_eq (l := l) key
  rw [deleted] at outcome
  simp only [answer, deleted]
  cases live : b.liveAt? key with
  | none =>
      rw [live] at outcome means
      cases outcome
      have absent : m.get? key = none := by
        rw [Contents.get?_of_rows keeps.rows, ← wf.liveAt?_eq, live]
        rfl
      exact ⟨.delete edited, rfl, m.erase key, means, wf, by
        rw [Contents.erase_of_absent absent]; exact keeps.rows⟩
  | some r =>
      rw [live] at outcome means
      cases outcome
      obtain ⟨_, _, rfl⟩ := wf.mem_of_liveAt? live
      have rows : (Run.live (b.marked r).run).map Record.row = (m.erase r.key).rows := by
        rw [wf.run_marked, Run.live_inserted_tombstone wf.ascending rfl]
        exact Contents.rows_erase keeps.rows r.key
      exact ⟨.delete edited, rfl, m.erase r.key, means, wf.marked live, rows⟩

theorem obeys_compact (keeps : b.Keeps m) (l : Ledger) (force : Bool) :
    b.Obeys m (.compact force) (b.answer l (.compact force)) := by
  have rows : (Run.live (b.compact l force).2.1.run).map Record.row = m.rows := by
    rw [(prunes_compact l force).live]
    exact keeps.rows
  exact ⟨.compact (keeps.wellFormed.compact_page l force), tuning_compact l force, m,
    .compact force _, keeps.wellFormed.compact l force, rows⟩

theorem obeys_expand (keeps : b.Keeps m) (l : Ledger) :
    b.Obeys m .expand (b.answer l .expand) := by
  have edited := keeps.wellFormed.expand?_page l
  cases next : b.expand? l with
  | none =>
      rw [next] at edited
      simp only [answer, next]
      exact ⟨.largest edited, rfl, m, .expand false, keeps⟩
  | some grown =>
      have grows : b.Grows grown.1 := grows_of_expand? next
      rw [next] at edited
      simp only [answer, next]
      exact ⟨.expand edited, grows.tuning, m, .expand true, grows.wellFormed keeps.wellFormed,
        grows.run ▸ keeps.rows⟩

theorem obeys (keeps : b.Keeps m) (l : Ledger) (call : Call) : b.Obeys m call (b.answer l call) := by
  cases call with
  | put key value => exact keeps.obeys_put l key value
  | delete key => exact keeps.obeys_delete l key
  | compact force => exact keeps.obeys_compact l force
  | expand => exact keeps.obeys_expand l

theorem exists_runs (keeps : b.Keeps m) (l : Ledger) (calls : List Call) :
    ∃ m', Call.Runs (Call.Means b.ladder.max) m calls (b.answers l calls).1 m'
      ∧ Call.Runs (Call.Edits b.tuning) b.page calls (b.answers l calls).1
          (b.answers l calls).2.1.page
      ∧ (b.answers l calls).2.1.Keeps m' := by
  induction calls generalizing b l m with
  | nil => exact ⟨m, .nil, .nil, keeps⟩
  | cons call calls ih =>
      obtain ⟨edits, tuning, m', means, keeps'⟩ := keeps.obeys l call
      obtain ⟨m'', runs, edited, keeps''⟩ := ih keeps' (b.answer l call).2.2
      rw [tuning] at edited
      have ladder : (b.answer l call).2.1.ladder = b.ladder := congrArg Tuning.ladder tuning
      rw [ladder] at runs
      exact ⟨m'', .cons means runs, .cons edits edited, keeps''⟩

end Keeps

theorem WellFormed.exists_keeps (wf : b.WellFormed) : ∃ m, b.Keeps m := by
  have ordered : Ascending Prod.fst ((Run.live b.run).map Record.row) :=
    List.pairwise_map.mpr (wf.ascending.filter _)
  exact ⟨⟨(Run.live b.run).map Record.row, ordered⟩, wf, rfl⟩

/-- A well-formed block answers every run of calls as the map of its live records, edits its bytes
accordingly, and shows that map before and after every call. -/
theorem WellFormed.shows_answers (wf : b.WellFormed) (l : Ledger) :
    ∃ m : Contents, b.Shows m ∧ ∀ calls : List Call,
      ∃ m', Call.Runs (Call.Means b.ladder.max) m calls (b.answers l calls).1 m'
        ∧ Call.Runs (Call.Edits b.tuning) b.page calls (b.answers l calls).1
            (b.answers l calls).2.1.page
        ∧ (b.answers l calls).2.1.Shows m' := by
  obtain ⟨m, keeps⟩ := wf.exists_keeps
  refine ⟨m, wf.shows keeps.rows, fun calls => ?_⟩
  obtain ⟨m', runs, edited, keeps'⟩ := keeps.exists_runs l calls
  exact ⟨m', runs, edited, keeps'.wellFormed.shows keeps'.rows⟩

end

/-- A block of three records, the second of them a tombstone. -/
def withTombstone : Block :=
  ((scratch 16 ⟨⟨64⟩, 0.25, 0.5⟩).answers (.create false)
    [.put [97] [1], .put [98] [2], .put [99] [3], .delete [98]]).2.1

theorem wellFormed_withTombstone : withTombstone.WellFormed := by
  obtain ⟨m, keeps⟩ :=
    (wellFormed_create (.detached 16) ⟨⟨64⟩, 0.25, 0.5⟩ false).exists_keeps
  obtain ⟨_, _, _, keeps'⟩ := keeps.exists_runs (.create false) _
  exact keeps'.wellFormed

/-- Calls after which the first record is a tombstone. -/
def someCalls : List Call :=
  [.put [99] [4, 5], .delete [98], .put [98] (.replicate 50 6), .compact false, .put [98] [6],
    .delete [97], .put [] [], .put [100] (.replicate 60 0), .expand, .compact true]

theorem shows_answers_withTombstone :
    withTombstone.page.bytes
        = [1, 0, 1, 0, 97, 1, 1, 128, 1, 0, 98, 2, 1, 0, 1, 0, 99, 3, 0, 0, 0, 0, 0, 0]
      ∧ (withTombstone.answers (.create false) someCalls).1 = [.ok (.put .done), .ok (.flag false),
        .ok (.put .needsSplit), .ok (.flag false), .ok (.put .done), .ok (.flag true),
        .error .keyEmpty, .error .recordTooLarge, .ok (.flag false), .ok (.flag false)]
      ∧ ∃ m : Contents, withTombstone.Shows m ∧ m.rows = [([97], [1]), ([99], [3])]
        ∧ ∃ m', Call.Runs (Call.Means withTombstone.ladder.max) m someCalls
            (withTombstone.answers (.create false) someCalls).1 m'
          ∧ Call.Runs (Call.Edits withTombstone.tuning) withTombstone.page someCalls
            (withTombstone.answers (.create false) someCalls).1
            (withTombstone.answers (.create false) someCalls).2.1.page
          ∧ (withTombstone.answers (.create false) someCalls).2.1.Shows m'
          ∧ m'.rows = [([98], [6]), ([99], [4, 5])] := by
  obtain ⟨m, shows, answers⟩ := WellFormed.shows_answers wellFormed_withTombstone (.create false)
  obtain ⟨m', runs, edited, shows'⟩ := answers someCalls
  refine ⟨by decide +kernel, by decide +kernel, m, shows, ?_, m', runs, edited, shows', ?_⟩
  · rw [← shows.live]
    decide +kernel
  · rw [← shows'.live]
    decide +kernel

end OrderedStore.Block
