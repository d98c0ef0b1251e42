import OrderedStore.Proofs.Scan.Downward
import OrderedStore.Proofs.Store.Contents

/-! # Steps of a scan

In either direction a scan awaits the keys of its range that lie beyond the last one returned. Its
batch is the first of the live records that it awaits, and stays so while nobody writes: each step
returns the first of them and leaves the rest.
-/

namespace OrderedStore

namespace Scan

/-- Whether one key comes before another in the direction of a scan. -/
def leads (reverse : Bool) (k k' : Bytes) : Bool := if reverse then k' < k else k < k'

/-- Rows in the order of their keys, turned into the direction of a scan. -/
def oriented (reverse : Bool) (rows : Run) : Run := if reverse then rows.reverse else rows

/-- Whether a key of the range lies beyond the last one returned. -/
def awaits (s : Scan) (key : Bytes) : Bool :=
  inRange s.start s.stop key && s.last.all (leads s.reverse · key)

/-- What a scan has yet to return, if nobody writes. -/
def due (s : Scan) (live : Run) : Run := oriented s.reverse (live.filter (s.awaits ·.key))

/-- The last key returned lies in the range. -/
def Placed (s : Scan) : Prop := ∀ key ∈ s.last, inRange s.start s.stop key = true

/-- Two scans walk over the same range in the same direction. -/
structure Alike (s s' : Scan) : Prop where
  start : s'.start = s.start
  stop : s'.stop = s.stop
  reverse : s'.reverse = s.reverse

theorem start_le_of_lt {start stop : Option Bytes} {key key' : Bytes}
    (inside : inRange start stop key = true) (less : key < key') :
    start.all (· ≤ key') = true := by
  obtain ⟨above, _⟩ := (Bool.and_eq_true _ _).mp inside
  rw [Option.all_eq_true] at above ⊢
  intro low member
  have least := of_decide_eq_true (above low member)
  exact decide_eq_true (List.le_trans least (List.le_of_lt less))

theorem lt_stop_of_lt {start stop : Option Bytes} {key key' : Bytes}
    (inside : inRange start stop key = true) (less : key' < key) :
    stop.all (key' < ·) = true := by
  obtain ⟨_, below⟩ := (Bool.and_eq_true _ _).mp inside
  rw [Option.all_eq_true] at below ⊢
  intro high member
  have most := of_decide_eq_true (below high member)
  exact decide_eq_true (List.lt_trans less most)

theorem leads_trans {reverse : Bool} {k k' k'' : Bytes} (first : leads reverse k k' = true)
    (second : leads reverse k' k'' = true) : leads reverse k k'' = true := by
  cases reverse with
  | false => exact decide_eq_true (List.lt_trans (of_decide_eq_true first) (of_decide_eq_true second))
  | true => exact decide_eq_true (List.lt_trans (of_decide_eq_true second) (of_decide_eq_true first))

theorem leads_irrefl (reverse : Bool) (k : Bytes) : leads reverse k k = false := by
  cases reverse <;> exact decide_eq_false (List.lt_irrefl k)

@[simp] theorem oriented_false (rows : Run) : oriented false rows = rows := rfl

@[simp] theorem oriented_true (rows : Run) : oriented true rows = rows.reverse := rfl

@[simp] theorem mem_oriented {reverse : Bool} {rows : Run} {r : Record} :
    r ∈ oriented reverse rows ↔ r ∈ rows := by
  cases reverse <;> simp

theorem filter_oriented (reverse : Bool) (rows : Run) (test : Record → Bool) :
    (oriented reverse rows).filter test = oriented reverse (rows.filter test) := by
  cases reverse <;> simp

@[simp] theorem length_oriented (reverse : Bool) (rows : Run) :
    (oriented reverse rows).length = rows.length := by
  cases reverse <;> simp

theorem pairwise_oriented (reverse : Bool) {rows : Run} (asc : Ascending Record.key rows) :
    (oriented reverse rows).Pairwise fun r r' => leads reverse r.key r'.key = true := by
  cases reverse with
  | false => exact asc.imp fun less => decide_eq_true less
  | true => exact List.pairwise_reverse.mpr (asc.imp fun less => decide_eq_true less)

section

variable {s s' : Scan} {live : Run} {store : Store}

theorem Alike.refl (s : Scan) : s.Alike s := ⟨rfl, rfl, rfl⟩

theorem mem_due {r : Record} : r ∈ s.due live ↔ r ∈ live ∧ s.awaits r.key = true := by
  rw [due, mem_oriented, List.mem_filter]

theorem pairwise_due (s : Scan) (asc : Ascending Record.key live) :
    (s.due live).Pairwise fun r r' => leads s.reverse r.key r'.key = true :=
  pairwise_oriented s.reverse (asc.filter _)

theorem due_eq_dueUp (placed : s.Placed) (forward : s.reverse = false) (live : Run) :
    s.due live = s.dueUp live := by
  rw [due, forward, oriented_false, dueUp]
  apply List.filter_congr
  intro r _
  unfold awaits isAhead seek inRange isBelowStop
  rw [forward]
  cases last : s.last with
  | none =>
      simp only [Option.isSome_none, Bool.false_eq_true, if_false, Option.all_none, Bool.and_true]
      congr 1
      cases s.start with
      | none => rfl
      | some key =>
          simp only [Seek.isPast, Option.any_some, if_true, Option.all_some]
          rw [← decide_not]
          exact decide_eq_decide.mpr List.not_lt.symm
  | some key =>
      have past : Seek.isPast ⟨some key, false⟩ r = !decide (key < r.key) := by
        rw [← decide_not]
        exact decide_eq_decide.mpr List.not_lt.symm
      simp only [Option.isSome_some, if_true, past, Bool.not_not, Option.all_some, leads,
        Bool.false_eq_true, if_false]
      by_cases less : key < r.key
      · have start_le := start_le_of_lt (placed key last) less
        rw [start_le, decide_eq_true less, Bool.and_true]
      · rw [decide_eq_false less, Bool.and_false, Bool.false_and]

theorem due_eq_dueDown (placed : s.Placed) (backward : s.reverse = true) (live : Run) :
    s.due live = s.dueDown (s.last.or s.stop) live := by
  rw [due, backward, oriented_true, dueDown]
  congr 1
  apply List.filter_congr
  intro r _
  unfold awaits isBehind inRange
  rw [backward]
  cases last : s.last with
  | none =>
      rw [Option.none_or, Option.all_none, Bool.and_true]
      exact Bool.and_comm _ _
  | some key =>
      simp only [Option.some_or, Option.all_some, leads, if_true]
      by_cases less : r.key < key
      · have lt_stop := lt_stop_of_lt (placed key last) less
        rw [lt_stop, decide_eq_true less, Bool.and_true, Bool.and_true, Bool.true_and]
      · rw [decide_eq_false less, Bool.and_false, Bool.false_and]

theorem copies_fill (wf : store.WellFormed) (placed : s.Placed) (unfilled : s.batch = [])
    (undone : s.done = false) : s.Copies (s.fill store) (s.due store.liveRecords) := by
  cases direction : s.reverse with
  | false =>
      rw [due_eq_dueUp placed direction]
      exact copies_fill_up wf direction unfilled undone
  | true =>
      rw [due_eq_dueDown placed direction]
      exact copies_fill_down wf direction unfilled undone

theorem fill_cases (wf : store.WellFormed) (placed : s.Placed) :
    s.fill store = s ∧ (s.batch = [] → s.done = true)
      ∨ s.batch = [] ∧ s.done = false ∧ s.Copies (s.fill store) (s.due store.liveRecords) := by
  by_cases idle : (!s.batch.isEmpty || s.done) = true
  · refine .inl ⟨if_pos idle, fun empty => ?_⟩
    simpa [empty] using idle
  · obtain ⟨unfilled, undone⟩ : s.batch = [] ∧ s.done = false := by simpa using idle
    exact .inr ⟨unfilled, undone, copies_fill wf placed unfilled undone⟩

theorem fill_eq (wf : store.WellFormed) (placed : s.Placed) :
    ∃ batch done, s.fill store = { s with batch := batch, done := done } := by
  rcases fill_cases wf placed with ⟨same, _⟩ | ⟨_, _, copies⟩
  · exact ⟨s.batch, s.done, same⟩
  · exact ⟨_, _, copies.same⟩

theorem batched_fill (wf : store.WellFormed) (placed : s.Placed)
    (batched : s.Batched (s.due store.liveRecords)) :
    (s.fill store).Batched (s.due store.liveRecords)
      ∧ ((s.fill store).batch = [] ↔ s.due store.liveRecords = []) := by
  have ends : ∀ {t : Scan}, t.Batched (s.due store.liveRecords) → (t.batch = [] → t.done = true) →
      (t.batch = [] ↔ s.due store.liveRecords = []) := by
    intro t batched progress
    obtain ⟨rest, due, done⟩ := batched
    constructor
    · intro empty
      rw [due, empty, done (progress empty), List.append_nil]
    · intro nothing
      exact (List.append_eq_nil_iff.mp (due.symm.trans nothing)).1
  rcases fill_cases wf placed with ⟨same, progress⟩ | ⟨_, _, copies⟩
  · rw [same]
    exact ⟨batched, ends batched progress⟩
  · exact ⟨copies.batched, ends copies.batched copies.progress⟩

theorem advance_of_nil (empty : (s.fill store).batch = []) :
    s.advance store = (none, s.fill store) := by
  simp only [advance, empty]

theorem advance_of_cons {r : Record} {rest : Run} (filled : (s.fill store).batch = r :: rest) :
    s.advance store
      = (some r, { s.fill store with batch := rest, last := some r.key }) := by
  simp only [advance, filled]

/-- Once the first row that is due has been returned, the rows behind it are due. -/
theorem due_after (asc : Ascending Record.key live) {r : Record} {rest batch : Run} {done : Bool}
    (due_eq : s.due live = r :: rest) :
    ({ s with batch := batch, last := some r.key, done := done } : Scan).due live = rest := by
  have order := s.pairwise_due asc
  rw [due_eq] at order
  obtain ⟨behind, _⟩ := List.pairwise_cons.mp order
  obtain ⟨_, awaited⟩ : r ∈ live ∧ s.awaits r.key = true := mem_due.mp (due_eq ▸ List.mem_cons_self)
  obtain ⟨_, beyond⟩ := (Bool.and_eq_true _ _).mp awaited
  have first : (s.due live).filter (leads s.reverse r.key ·.key) = rest := by
    rw [due_eq, List.filter_cons_of_neg (by simp [leads_irrefl])]
    exact List.filter_eq_self.mpr behind
  rw [← first, due, due, filter_oriented, List.filter_filter]
  congr 1
  apply List.filter_congr
  intro r' _
  unfold awaits
  dsimp only
  rw [Option.all_some]
  cases later : leads s.reverse r.key r'.key with
  | false => rw [Bool.and_false, Bool.false_and]
  | true =>
      have still : s.last.all (leads s.reverse · r'.key) = true := by
        rw [Option.all_eq_true] at beyond ⊢
        intro last member
        exact leads_trans (beyond last member) later
      rw [still, Bool.and_true, Bool.true_and]

/-- Each step of a scan returns the first of what is due and leaves the rest. -/
theorem advance_due (wf : store.WellFormed) (placed : s.Placed)
    (batched : s.Batched (s.due store.liveRecords)) :
    (s.advance store).1 = (s.due store.liveRecords).head?
      ∧ (s.advance store).2.due store.liveRecords = (s.due store.liveRecords).tail
      ∧ s.Alike (s.advance store).2 ∧ (s.advance store).2.Placed
      ∧ (s.advance store).2.Batched ((s.advance store).2.due store.liveRecords) := by
  obtain ⟨filled, empty⟩ := batched_fill wf placed batched
  obtain ⟨batch, done, same⟩ := fill_eq wf placed
  cases batch_eq : (s.fill store).batch with
  | nil =>
      have nothing := empty.mp batch_eq
      have same_due : (s.fill store).due store.liveRecords = s.due store.liveRecords := by
        rw [same]
        rfl
      rw [advance_of_nil batch_eq, same_due, nothing]
      refine ⟨rfl, rfl, ?_, ?_, nothing ▸ filled⟩
      · rw [same]
        exact ⟨rfl, rfl, rfl⟩
      · rw [same]
        exact placed
  | cons r rest =>
      obtain ⟨later, due_eq, ends⟩ := filled
      rw [batch_eq] at due_eq
      obtain ⟨_, awaited⟩ : r ∈ store.liveRecords ∧ s.awaits r.key = true :=
        mem_due.mp (due_eq ▸ List.mem_cons_self)
      obtain ⟨inside, _⟩ := (Bool.and_eq_true _ _).mp awaited
      have next_due : ({ s.fill store with batch := rest, last := some r.key } : Scan).due
          store.liveRecords = rest ++ later := by
        rw [same]
        exact due_after wf.ascending due_eq
      rw [advance_of_cons batch_eq, next_due, due_eq]
      refine ⟨rfl, rfl, ?_, ?_, ⟨later, rfl, ends⟩⟩
      · rw [same]
        exact ⟨rfl, rfl, rfl⟩
      · intro key last
        obtain rfl : r.key = key := Option.some.inj last
        rw [same]
        exact inside

theorem collect_due (wf : store.WellFormed) (placed : s.Placed)
    (batched : s.Batched (s.due store.liveRecords)) (count : Nat) :
    collect store count s = (s.due store.liveRecords).take count := by
  induction count generalizing s with
  | zero => rfl
  | succ count ih =>
      obtain ⟨row, due, _, placed', batched'⟩ := advance_due wf placed batched
      rw [collect]
      cases due_eq : s.due store.liveRecords with
      | nil =>
          rw [due_eq] at row
          have stepped : s.advance store = (none, (s.advance store).2) := by
            rw [← List.head?_nil, ← row]
          rw [stepped]
          rfl
      | cons r rest =>
          rw [due_eq] at row due
          have stepped : s.advance store = (some r, (s.advance store).2) := by
            rw [← List.head?_cons, ← row]
          rw [stepped]
          simp only [ih placed' batched', due, List.tail_cons, List.take_succ_cons]

end

end Scan

end OrderedStore
