import OrderedStore.Proofs.Scan.Upward

/-! # Scans downwards

A scan downwards has yet to return the live records below the last one returned, or below the end of
the range, down to its start. It looks at the blocks from the greatest anchor below that bound on,
to the left, and each of them gives its rows from the last to the first. A block at or below the
start of the range is the last one to look at, since all rows to the left of it lie below its anchor.
-/

namespace OrderedStore

namespace Scan

/-- Whether a scan downwards from `bound` has yet to return a record. -/
def isBehind (s : Scan) (bound : Option Bytes) (r : Record) : Bool :=
  bound.all (r.key < ·) && s.start.all (· ≤ r.key)

/-- What a scan downwards from `bound` has yet to return, if nobody writes. -/
def dueDown (s : Scan) (bound : Option Bytes) (live : Run) : Run :=
  (live.filter (s.isBehind bound)).reverse

section

variable {s : Scan} {tuning : Tuning} {e : Entry Published} {bound : Option Bytes}

theorem dueDown_append (live live' : Run) :
    s.dueDown bound (live ++ live') = s.dueDown bound live' ++ s.dueDown bound live := by
  simp [dueDown]

theorem live_below (s : Scan) (bound : Option Bytes) {run : Run} (asc : Ascending Record.key run) :
    (((run.takeWhile fun r => bound.all (r.key < ·)).filter fun r =>
      !r.deleted && s.start.all (· ≤ r.key)).reverse) = s.dueDown bound (Run.live run) := by
  have below : (run.takeWhile fun r => bound.all (r.key < ·))
      = run.filter fun r => bound.all (r.key < ·) := by
    apply asc.takeWhile_eq_filter (fun key => bound.all (key < ·))
    intro k k' less passes
    rw [Option.all_eq_true] at passes ⊢
    intro key member
    exact decide_eq_true (List.lt_trans less (of_decide_eq_true (passes key member)))
  rw [below, dueDown, Run.live, List.filter_filter, List.filter_filter]
  congr 1
  apply List.filter_congr
  intro r _
  simp only [isBehind]
  cases r.deleted <;> simp [Bool.and_comm]

theorem none_due_left {anchor : Bytes} (edge : (anchor.isEmpty || s.start.any (anchor ≤ ·)) = true)
    {rows : Run} (below : ∀ r ∈ rows, r.key < anchor) : s.dueDown bound rows = [] := by
  rw [dueDown, List.reverse_eq_nil_iff]
  apply List.filter_eq_nil_iff.mpr
  intro r member due
  have less := below r member
  rcases (Bool.or_eq_true _ _).mp edge with leftmost | reached
  · rw [List.isEmpty_iff.mp leftmost] at less
    exact List.not_lt_nil _ less
  · obtain ⟨start, start_eq, least⟩ := (Option.any_eq_true _ _).mp reached
    obtain ⟨_, above⟩ := (Bool.and_eq_true _ _).mp due
    rw [start_eq] at above
    have start_le : start ≤ r.key := by simpa using above
    have least : anchor ≤ start := by simpa using least
    exact List.not_lt.mpr (List.le_trans least start_le) less

theorem copyDown?_cases (bound : Option Bytes) (undone : s.done = false) {left : Run} (sound : e.value.block.Sound)
    (apart : ∀ r ∈ left, r.key < e.anchor) :
    (∃ s', s.copyDown? bound e = some s'
        ∧ s.Copies s' (s.dueDown bound (left ++ Run.live e.value.block.run)))
      ∨ s.copyDown? bound e = none ∧ s.dueDown bound (Run.live e.value.block.run) = [] := by
  have rows_eq := s.live_below bound sound.ascending
  unfold copyDown?
  dsimp only
  rw [rows_eq, dueDown_append]
  by_cases edge : (e.anchor.isEmpty || s.start.any (e.anchor ≤ ·)) = true
  · left
    rw [if_pos edge]
    refine ⟨_, rfl, rfl, ⟨[], ?_, fun _ => rfl⟩, fun _ => rfl⟩
    rw [none_due_left edge apart]
  · rw [if_neg edge]
    by_cases empty : (s.dueDown bound (Run.live e.value.block.run)).isEmpty = true
    · right
      rw [if_pos empty]
      exact ⟨rfl, List.isEmpty_iff.mp empty⟩
    · left
      rw [if_neg empty]
      refine ⟨_, rfl, rfl, ⟨s.dueDown bound left, rfl, ?_⟩, ?_⟩
      · intro done
        exact absurd (undone.symm.trans done) Bool.false_ne_true
      · intro none_due
        exact absurd (List.isEmpty_iff.mpr none_due) empty

/-- A walk to the left over blocks finds the first of what is due in them, or nothing is due. The
induction is on the entries from the last to the first. -/
theorem findSome?_copyDown? (bound : Option Bytes) (unfilled : s.batch = []) (undone : s.done = false)
    {start stop : Option Bytes} {leftwards : List (Entry Published)}
    (tiles : Tiles tuning start leftwards.reverse stop) :
    s.Copies ((leftwards.findSome? (s.copyDown? bound)).getD { s with done := true })
      (s.dueDown bound (liveOf leftwards.reverse)) := by
  induction leftwards generalizing stop with
  | nil => exact ⟨rfl, ⟨[], by simp [dueDown, unfilled], fun _ => rfl⟩, fun _ => rfl⟩
  | cons e rest ih =>
      rw [List.reverse_cons] at tiles ⊢
      obtain ⟨middle, before, last⟩ := tiles.exists_of_append
      rw [liveOf_append, liveOf_cons, liveOf_nil, List.append_nil]
      cases last with
      | cons fits _ =>
          have apart : ∀ r ∈ liveOf rest.reverse, r.key < e.anchor := by
            intro r member
            exact (before.bounds member).2 e.anchor rfl
          rcases copyDown?_cases bound undone fits.enrolled.sound apart with
            ⟨s', found, copies⟩ | ⟨none_found, none_due⟩
          · rw [List.findSome?_cons, found]
            exact copies
          · rw [List.findSome?_cons, none_found, dueDown_append, none_due, List.nil_append]
            exact ih before

theorem none_due_from {start stop : Option Bytes} {entries : List (Entry Published)}
    (tiles : Tiles tuning start entries stop) {key : Bytes}
    (reached : ∀ e ∈ entries, key ≤ e.anchor) : s.dueDown (some key) (liveOf entries) = [] := by
  rw [dueDown, List.reverse_eq_nil_iff]
  apply List.filter_eq_nil_iff.mpr
  intro r member due
  obtain ⟨less, _⟩ := (Bool.and_eq_true _ _).mp due
  have less : r.key < key := by simpa using less
  cases tiles with
  | nil => contradiction
  | @cons first next rest _ fits tail =>
      have least := ((Tiles.cons fits tail).bounds member).1 first.anchor rfl
      have reached := reached first List.mem_cons_self
      exact List.not_lt.mpr (List.le_trans reached least) less

variable {store : Store}

theorem exists_below (wf : store.WellFormed) (s : Scan) (key : Bytes) :
    ∃ middle, Tiles store.options.tuning (some [])
        (store.directory.toList.filter (·.anchor < key)) middle
      ∧ s.dueDown (some key) store.liveRecords
        = s.dueDown (some key) (liveOf (store.directory.toList.filter (·.anchor < key))) := by
  obtain ⟨low, same, high, entries, below, equal, above⟩ :
      ∃ (low : List (Entry Published)) (same : Option (Entry Published))
        (high : List (Entry Published)), store.directory.toList = low ++ (same.toList ++ high)
          ∧ (∀ e ∈ low, e.anchor < key) ∧ (∀ e ∈ same, e.anchor = key)
          ∧ (∀ e ∈ high, key < e.anchor) := store.directory.ascending.exists_eq_append key
  have reached : ∀ e ∈ same.toList ++ high, key ≤ e.anchor := by
    intro e member
    rcases List.mem_append.mp member with member | member
    · exact (equal e (Option.mem_toList.mp member)) ▸ List.le_refl _
    · exact List.le_of_lt (above e member)
  obtain ⟨low_all, _⟩ := Ascending.filter_of_below below
  have rest_none : (same.toList ++ high).filter (·.anchor < key) = [] := by
    apply List.filter_eq_nil_iff.mpr
    intro e member
    simpa using reached e member
  have tiles := wf.tiles
  rw [entries] at tiles ⊢
  rw [List.filter_append, low_all, rest_none, List.append_nil]
  obtain ⟨middle, before, rest⟩ := tiles.exists_of_append
  refine ⟨middle, before, ?_⟩
  rw [Store.liveRecords_eq entries, liveOf_append, dueDown_append, none_due_from rest reached,
    List.nil_append]

theorem copies_fill_down (wf : store.WellFormed) (backward : s.reverse = true)
    (unfilled : s.batch = []) (undone : s.done = false) :
    s.Copies (s.fill store) (s.dueDown (s.last.or s.stop) store.liveRecords) := by
  have idle : (!s.batch.isEmpty || s.done) = false := by simp [unfilled, undone]
  unfold fill
  rw [if_neg (Bool.eq_false_iff.mp idle)]
  dsimp only
  rw [if_pos backward]
  cases s.last.or s.stop with
  | none =>
      have tiles := wf.tiles
      rw [← List.reverse_reverse store.directory.toList] at tiles
      dsimp only
      rw [SearchTree.findSomeRev?_eq]
      have copies := findSome?_copyDown? none unfilled undone tiles
      rw [List.reverse_reverse] at copies
      exact copies
  | some key =>
      obtain ⟨middle, tiles, due⟩ := exists_below wf s key
      rw [← List.reverse_reverse (store.directory.toList.filter _)] at tiles
      dsimp only
      rw [due, SearchTree.findBelow?_eq]
      have copies := findSome?_copyDown? (some key) unfilled undone tiles
      rw [List.reverse_reverse] at copies
      exact copies

end

end Scan

end OrderedStore
