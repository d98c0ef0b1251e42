import OrderedStore.Proofs.Run.Updates
import OrderedStore.Proofs.Store.Tiling
import OrderedStore.Scan

/-! # Scans upwards

What a scan has yet to return is a part of the live records: those above the last one returned that
lie below the end of the range. Its batch is the first of that part, so that a scan that nobody
writes under returns it record by record.
-/

namespace OrderedStore

namespace Scan

/-- From where on a scan upwards looks for its next batch. -/
def seek (s : Scan) : Seek := if s.last.isSome then ⟨s.last, false⟩ else ⟨s.start, true⟩

/-- Whether a scan upwards has yet to return a record. -/
def isAhead (s : Scan) (r : Record) : Bool := !s.seek.isPast r && s.isBelowStop r.key

/-- What a scan upwards has yet to return, if nobody writes. -/
def dueUp (s : Scan) (live : Run) : Run := live.filter s.isAhead

/-- The batch is the first of the rows that are due, and all of them if the scan is done. -/
def Batched (s : Scan) (due : Run) : Prop :=
  ∃ rest, due = s.batch ++ rest ∧ (s.done = true → rest = [])

/-- `s'` is `s` with the first of the rows that are due in its batch. -/
structure Copies (s s' : Scan) (due : Run) : Prop where
  same : s' = { s with batch := s'.batch, done := s'.done }
  batched : s'.Batched due
  progress : s'.batch = [] → s'.done = true

theorem isBelowStop_of_lt (s : Scan) {k k' : Bytes} (less : k < k')
    (below : s.isBelowStop k' = true) : s.isBelowStop k = true := by
  rw [isBelowStop, Option.all_eq_true] at below ⊢
  intro stop member
  have far := below stop member
  rw [decide_eq_true_eq] at far ⊢
  exact List.lt_trans less far

section

variable {s : Scan} {tuning : Tuning} {e : Entry Published} {next : Option Bytes}
  {entries : List (Entry Published)}

theorem live_inside (s : Scan) (seek : Seek) {run : Run} (asc : Ascending Record.key run) :
    ((run.filter (!seek.isPast ·)).takeWhile (s.isBelowStop ·.key)).filter (!·.deleted)
      = (Run.live run).filter fun r => !seek.isPast r && s.isBelowStop r.key := by
  have ahead : Ascending Record.key (run.filter (!seek.isPast ·)) := asc.filter _
  rw [ahead.takeWhile_eq_filter s.isBelowStop fun _ _ => s.isBelowStop_of_lt, Run.live,
    List.filter_filter, List.filter_filter, List.filter_filter]
  apply List.filter_congr
  intro r _
  cases r.deleted <;> cases seek.isPast r <;> cases s.isBelowStop r.key <;> rfl

theorem none_due (seek : Seek) {key : Bytes} (reached : s.isBelowStop key = false) {rows : Run}
    (above : ∀ r ∈ rows, key ≤ r.key) :
    rows.filter (fun r => !seek.isPast r && s.isBelowStop r.key) = [] := by
  apply List.filter_eq_nil_iff.mpr
  intro r member passed
  rw [Bool.and_eq_true] at passed
  have least := above r member
  by_cases same : key = r.key
  · rw [same, passed.2] at reached
    contradiction
  · have below := s.isBelowStop_of_lt (Std.lt_of_le_of_ne least same) passed.2
    rw [below] at reached
    contradiction

/-- A copy that ends inside a block ends at a record that is not below the end of the range. -/
theorem exists_outside (seek : Seek) {run : Run} (asc : Ascending Record.key run)
    (ends : ((run.filter (!seek.isPast ·)).takeWhile (s.isBelowStop ·.key)).length
      < (run.filter (!seek.isPast ·)).length) : ∃ r ∈ run, s.isBelowStop r.key = false := by
  apply Classical.byContradiction
  intro none_outside
  have ahead : Ascending Record.key (run.filter (!seek.isPast ·)) := asc.filter _
  have all_below : ∀ r ∈ run.filter (!seek.isPast ·), s.isBelowStop r.key = true := by
    intro r member
    cases below : s.isBelowStop r.key with
    | true => rfl
    | false => exact absurd ⟨r, (List.mem_filter.mp member).1, below⟩ none_outside
  rw [ahead.takeWhile_eq_filter s.isBelowStop fun _ _ => s.isBelowStop_of_lt,
    List.filter_eq_self.mpr all_below] at ends
  exact Nat.lt_irrefl _ ends

theorem none_due_behind (seek : Seek) (fits : e.Fits tuning next)
    (tail : Tiles tuning next entries none) {r : Record} (member : r ∈ e.value.block.run)
    (outside : s.isBelowStop r.key = false) :
    (liveOf entries).filter (fun r => !seek.isPast r && s.isBelowStop r.key) = [] := by
  apply none_due seek outside
  intro r' member'
  exact List.le_of_lt (tail.lt_of_behind fits member member')

theorem copyUp?_cases (unfilled : s.batch = []) (undone : s.done = false) (seek : Seek)
    (fits : e.Fits tuning next) (tail : Tiles tuning next entries none) :
    (∃ s', s.copyUp? seek e = some s' ∧ s.Copies s' ((liveOf (e :: entries)).filter fun r =>
        !seek.isPast r && s.isBelowStop r.key))
      ∨ s.copyUp? seek e = none
        ∧ (Run.live e.value.block.run).filter
          (fun r => !seek.isPast r && s.isBelowStop r.key) = [] := by
  have tiles : Tiles tuning (some e.anchor) (e :: entries) none := .cons fits tail
  have inside_eq := s.live_inside seek fits.enrolled.sound.ascending
  by_cases reached : s.isBelowStop e.anchor = true
  · by_cases ends : ((e.value.block.run.filter (!seek.isPast ·)).takeWhile
        (s.isBelowStop ·.key)).length < (e.value.block.run.filter (!seek.isPast ·)).length
    · left
      refine ⟨_, by simp only [copyUp?, reached, Bool.not_true, Bool.false_eq_true, if_false,
        if_pos ends]; rfl, rfl, ⟨[], ?_, fun _ => rfl⟩, fun _ => rfl⟩
      rw [inside_eq, List.append_nil, liveOf_cons, List.filter_append]
      obtain ⟨r, member, outside⟩ := exists_outside seek fits.enrolled.sound.ascending ends
      have later := none_due_behind seek fits tail member outside
      rw [later, List.append_nil]
    · by_cases empty : (((e.value.block.run.filter (!seek.isPast ·)).takeWhile
          (s.isBelowStop ·.key)).filter (!·.deleted)).isEmpty = true
      · right
        constructor
        · simp only [copyUp?, reached, Bool.not_true, Bool.false_eq_true, if_false, if_neg ends,
            if_pos empty]
        · rw [← inside_eq]
          exact List.isEmpty_iff.mp empty
      · left
        refine ⟨_, by simp only [copyUp?, reached, Bool.not_true, Bool.false_eq_true, if_false,
          if_neg ends, if_neg empty]; rfl, rfl, ⟨(liveOf entries).filter fun r =>
            !seek.isPast r && s.isBelowStop r.key, ?_, ?_⟩, ?_⟩
        · rw [liveOf_cons, List.filter_append, inside_eq]
        · intro done
          exact absurd (undone.symm.trans done) (by decide)
        · intro none_live
          exact absurd (List.isEmpty_iff.mpr none_live) empty
  · left
    have outside : s.isBelowStop e.anchor = false := Bool.eq_false_iff.mpr reached
    refine ⟨{ s with done := true }, by simp [copyUp?, outside], rfl, ⟨[], ?_, fun _ => rfl⟩,
      fun _ => rfl⟩
    rw [none_due seek outside fun r member => (tiles.bounds member).1 e.anchor rfl]
    simp [unfilled]

theorem findSome?_copyUp? (unfilled : s.batch = []) (undone : s.done = false) (seek : Seek)
    {start : Option Bytes} (tiles : Tiles tuning start entries none) :
    s.Copies ((entries.findSome? (s.copyUp? seek)).getD { s with done := true })
      ((liveOf entries).filter fun r => !seek.isPast r && s.isBelowStop r.key) := by
  generalize edge : (none : Option Bytes) = stop at tiles
  induction tiles with
  | nil => exact ⟨rfl, ⟨[], by simp [unfilled], fun _ => rfl⟩, fun _ => rfl⟩
  | cons fits tail ih =>
      subst edge
      rcases copyUp?_cases unfilled undone seek fits tail with
        ⟨s', found, copies⟩ | ⟨none_found, none_due⟩
      · rw [List.findSome?_cons, found]
        exact copies
      · rw [List.findSome?_cons, none_found, liveOf_cons, List.filter_append, none_due,
          List.nil_append]
        exact ih rfl

variable {store : Store}

theorem fill_of_lowest (forward : s.reverse = false) (unfilled : s.batch = [])
    (undone : s.done = false) (at_key : s.seek.key = none) :
    s.fill store
      = (store.directory.findSome? (s.copyUp? s.seek)).getD { s with done := true } := by
  rw [seek] at at_key ⊢
  simp only [fill, unfilled, undone, forward, List.isEmpty_nil, Bool.not_true, Bool.or_self,
    Bool.false_eq_true, if_false, at_key]

theorem fill_of_onward (forward : s.reverse = false) (unfilled : s.batch = [])
    (undone : s.done = false) {key : Bytes} (at_key : s.seek.key = some key) :
    s.fill store
      = (store.directory.findOnward? key (s.copyUp? s.seek)).getD { s with done := true } := by
  rw [seek] at at_key ⊢
  simp only [fill, unfilled, undone, forward, List.isEmpty_nil, Bool.not_true, Bool.or_self,
    Bool.false_eq_true, if_false, at_key]

theorem copies_fill_up (wf : store.WellFormed) (forward : s.reverse = false) (unfilled : s.batch = [])
    (undone : s.done = false) : s.Copies (s.fill store) (s.dueUp store.liveRecords) := by
  cases at_key : s.seek.key with
  | none =>
      rw [fill_of_lowest forward unfilled undone at_key, SearchTree.findSome?_eq]
      exact findSome?_copyUp? unfilled undone s.seek wf.tiles
  | some key =>
      obtain ⟨low, e, high, owns⟩ := wf.exists_owner key
      obtain ⟨_, fits, behind⟩ := wf.fits owns.eq
      obtain ⟨low_below, _⟩ := wf.apart owns
      have onward : store.directory.findOnward? key (s.copyUp? s.seek)
          = (e :: high).findSome? (s.copyUp? s.seek) := by
        rw [Directory.findOnward?_eq, owns.filter_gt_eq, owns.floor?_eq]
        rfl
      have low_past : (liveOf low).filter s.isAhead = [] := by
        apply List.filter_eq_nil_iff.mpr
        intro r member ahead
        have less := low_below r member
        have past : s.seek.isPast r = true := by
          rw [Seek.isPast, at_key, Option.any_some]
          split
          · exact decide_eq_true less
          · exact decide_eq_true (List.le_of_lt less)
        rw [isAhead, past] at ahead
        contradiction
      have due : s.dueUp store.liveRecords = (liveOf (e :: high)).filter s.isAhead := by
        rw [dueUp, Store.liveRecords_eq owns.eq, liveOf_append, List.filter_append, low_past,
          List.nil_append]
      rw [fill_of_onward forward unfilled undone at_key, onward, due]
      exact findSome?_copyUp? unfilled undone s.seek (.cons fits behind)

end

end Scan

end OrderedStore
