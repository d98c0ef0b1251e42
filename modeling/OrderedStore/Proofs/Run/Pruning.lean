import OrderedStore.Ascending
import OrderedStore.Run

/-! # Live records and pruned runs

A compaction takes tombstones out of a run and nothing else. What the rest of the theory needs of
it is that a run so pruned has the same live records and starts with the same record: the first one
stays even if it is deleted, because a block is found by the key of its first record.
-/

namespace OrderedStore.Run

/-- The records that are not deleted. -/
def live (run : Run) : Run := run.filter (!·.deleted)

@[simp] theorem live_nil : live [] = [] := rfl

@[simp] theorem live_append (a b : Run) : live (a ++ b) = live a ++ live b :=
  List.filter_append a b

theorem live_cons (r : Record) (run : Run) :
    live (r :: run) = (if r.deleted then [] else [r]) ++ live run := by
  cases deleted : r.deleted <;> simp [live, deleted]

theorem mem_live {r : Record} {run : Run} : r ∈ live run ↔ r ∈ run ∧ r.deleted = false := by
  simp [live]

/-- The record stored under `key`. -/
def at? (run : Run) (key : Bytes) : Option Record := run.find? (·.key = key)

theorem at?_append (a b : Run) (key : Bytes) : at? (a ++ b) key = (at? a key).or (at? b key) :=
  List.find?_append

theorem at?_eq_none {run : Run} {key : Bytes} : at? run key = none ↔ ∀ r ∈ run, r.key ≠ key := by
  simp [at?]

theorem at?_eq_some {run : Run} {key : Bytes} {r : Record} (found : at? run key = some r) :
    r ∈ run ∧ r.key = key :=
  ⟨List.mem_of_find?_eq_some found, by simpa using List.find?_some found⟩

theorem length_live_add_tombstones (run : Run) :
    (live run).length + tombstones run = run.length := by
  induction run with
  | nil => rfl
  | cons r run ih =>
      simp only [tombstones] at ih ⊢
      cases deleted : r.deleted <;> simp [live_cons, deleted] <;> omega

theorem tombstones_append (a b : Run) : tombstones (a ++ b) = tombstones a + tombstones b :=
  List.countP_append

/-- `pruned` is `run` without some of its tombstones, of which none came first. -/
structure Prunes (run pruned : Run) : Prop where
  sublist : pruned.Sublist run
  live : live pruned = Run.live run
  head : pruned.head? = run.head?

namespace Prunes

theorem refl (run : Run) : Prunes run run := ⟨List.Sublist.refl run, rfl, rfl⟩

theorem ascending {run pruned : Run} (h : Prunes run pruned) (asc : Ascending Record.key run) :
    Ascending Record.key pruned := List.Pairwise.sublist h.sublist asc

theorem subset {run pruned : Run} (h : Prunes run pruned) {r : Record} (member : r ∈ pruned) :
    r ∈ run := h.sublist.subset member

end Prunes

theorem prunes_compact (run : Run) : Prunes run (compact run) := by
  cases run with
  | nil => exact .refl []
  | cons first rest =>
      refine ⟨List.Sublist.cons_cons first List.filter_sublist, ?_, rfl⟩
      simp only [compact, live_cons]
      simp [live]

theorem size_compact_add_size_removable (run : Run) :
    size (compact run) + size (removable run) = size run := by
  cases run with
  | nil => rfl
  | cons first rest =>
      simp only [compact, removable, List.tail_cons, size_cons]
      induction rest with
      | nil => rfl
      | cons r rest ih =>
          cases deleted : r.deleted <;> simp [deleted, size_cons] <;> omega

theorem length_compact_add_length_removable (run : Run) :
    (compact run).length + (removable run).length = run.length := by
  cases run with
  | nil => rfl
  | cons first rest =>
      have parts := length_live_add_tombstones rest
      simp only [live, tombstones, List.countP_eq_length_filter] at parts
      simp only [compact, removable, List.tail_cons, List.length_cons]
      omega

theorem tombstones_compact_add_length_removable (run : Run) :
    tombstones (compact run) + (removable run).length = tombstones run := by
  have all := length_live_add_tombstones run
  have kept := length_live_add_tombstones (compact run)
  have lengths := length_compact_add_length_removable run
  rw [(prunes_compact run).live] at kept
  omega

theorem compact_of_removable_nil {run : Run} (none_gone : removable run = []) :
    compact run = run := by
  have lengths := length_compact_add_length_removable run
  rw [none_gone] at lengths
  exact (prunes_compact run).sublist.eq_of_length (by simpa using lengths)

theorem removable_of_tombstones_zero {run : Run} (h : tombstones run = 0) : removable run = [] := by
  have parts := tombstones_compact_add_length_removable run
  exact List.eq_nil_of_length_eq_zero (by omega)

end OrderedStore.Run
