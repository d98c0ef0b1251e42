import OrderedStore.Proofs.Scan.Steps
import OrderedStore.Proofs.Store.Calls

/-! # Ranges of keys

A range gives the live records with keys in it, and deleting a range takes exactly these out, one
key after the other.
-/

namespace OrderedStore

theorem inRange_of_disordered {low high : Bytes} (crossed : high ≤ low) (key : Bytes) :
    inRange (some low) (some high) key = false := by
  apply Bool.eq_false_iff.mpr
  intro inside
  obtain ⟨above, below⟩ := (Bool.and_eq_true _ _).mp inside
  have least : low ≤ key := by simpa using above
  have most : key < high := by simpa using below
  exact List.not_lt.mpr crossed (Std.lt_of_le_of_lt least most)

theorem length_liveOf_le (entries : List (Entry Published)) :
    (liveOf entries).length ≤ total (·.records.size) (blocksOf entries) := by
  induction entries with
  | nil => exact Nat.le_refl 0
  | cons e entries ih =>
      have few : (Run.live e.value.block.run).length ≤ e.value.block.records.size :=
        List.length_filter_le _ _
      have parts : total (·.records.size) (blocksOf (e :: entries))
          = e.value.block.records.size + total (·.records.size) (blocksOf entries) :=
        total_cons _ _ _
      rw [liveOf_cons, List.length_append, parts]
      omega

namespace Scan

variable {store : Store} {s : Scan} {start stop : Option Bytes} {reverse : Bool}

theorem open?_eq (store : Store) (start stop : Option Bytes) (reverse : Bool) :
    open? store start stop reverse =
      if start.any fun low => stop.any (· ≤ low) then none
      else if ((fresh start stop reverse).fill store).batch.isEmpty then none
      else some ((fresh start stop reverse).fill store) := by
  cases start <;> cases stop <;> rfl

theorem placed_fresh (start stop : Option Bytes) (reverse : Bool) :
    (fresh start stop reverse).Placed := by
  intro key last
  contradiction

theorem batched_fresh (start stop : Option Bytes) (reverse : Bool) (due : Run) :
    (fresh start stop reverse).Batched due := ⟨due, rfl, fun done => absurd done Bool.false_ne_true⟩

theorem due_fresh (start stop : Option Bytes) (reverse : Bool) (live : Run) :
    (fresh start stop reverse).due live
      = oriented reverse (live.filter (inRange start stop ·.key)) := by
  have awaits_eq : (fresh start stop reverse).awaits = inRange start stop := by
    funext key
    exact Bool.and_true _
  rw [due, awaits_eq]
  rfl

theorem open?_eq_none_iff (wf : store.WellFormed) :
    open? store start stop reverse = none
      ↔ store.liveRecords.filter (inRange start stop ·.key) = [] := by
  obtain ⟨_, empty⟩ := batched_fill wf (placed_fresh start stop reverse)
    (batched_fresh start stop reverse _)
  have nothing : (fresh start stop reverse).due store.liveRecords = []
      ↔ store.liveRecords.filter (inRange start stop ·.key) = [] := by
    rw [due_fresh]
    cases reverse with
    | false => exact Iff.rfl
    | true => exact List.reverse_eq_nil_iff
  rw [open?_eq]
  by_cases disordered : (start.any fun low => stop.any (· ≤ low)) = true
  · obtain ⟨low, rfl, ends⟩ := (Option.any_eq_true _ _).mp disordered
    obtain ⟨high, rfl, crossed⟩ := (Option.any_eq_true _ _).mp ends
    have none_inside := inRange_of_disordered (of_decide_eq_true crossed)
    rw [if_pos disordered]
    simp [none_inside]
  · rw [if_neg disordered, ← nothing, ← empty]
    cases ((fresh start stop reverse).fill store).batch <;> simp

theorem fill_of_open? (opened : open? store start stop reverse = some s) :
    (fresh start stop reverse).fill store = s := by
  rw [open?_eq] at opened
  split at opened
  · contradiction
  · split at opened
    · contradiction
    · exact Option.some.inj opened

theorem due_fill (wf : store.WellFormed) (placed : s.Placed) (live : Run) :
    s.Alike (s.fill store) ∧ (s.fill store).last = s.last
      ∧ (s.fill store).due live = s.due live := by
  obtain ⟨batch, done, same⟩ := fill_eq wf placed
  rw [same]
  exact ⟨⟨rfl, rfl, rfl⟩, rfl, rfl⟩

theorem of_open? (wf : store.WellFormed) (opened : open? store start stop reverse = some s) :
    (fresh start stop reverse).Alike s ∧ s.last = none
      ∧ s.due store.liveRecords
        = oriented reverse (store.liveRecords.filter (inRange start stop ·.key))
      ∧ s.Batched (s.due store.liveRecords) := by
  have placed := placed_fresh start stop reverse
  obtain ⟨batched, _⟩ := batched_fill wf placed (batched_fresh start stop reverse _)
  obtain ⟨alike, last, due⟩ := due_fill wf placed store.liveRecords
  rw [← due] at batched
  rw [fill_of_open? opened] at alike last due batched
  exact ⟨alike, last, due.trans (due_fresh start stop reverse _), batched⟩

theorem toList_due (wf : store.WellFormed) (placed : s.Placed)
    (batched : s.Batched (s.due store.liveRecords)) :
    s.toList store = s.due store.liveRecords := by
  have few : (s.due store.liveRecords).length ≤ store.liveRecords.length := by
    rw [due, length_oriented]
    exact List.length_filter_le _ _
  have all : store.liveRecords.length ≤ total (·.records.size) store.blocks :=
    length_liveOf_le store.directory.toList
  rw [toList, collect_due wf placed batched]
  exact List.take_of_length_le (by omega)

end Scan

namespace Store.WellFormed

variable {s : Store}

theorem describable (wf : s.WellFormed) : ∀ r ∈ s.liveRecords, r.Describable := by
  intro r member
  obtain ⟨e, inside, live⟩ := List.mem_flatMap.mp member
  exact (wf.enrolled inside).sound.describable r (Run.mem_live.mp live).1

/-- A live record fits the largest block, as it lies in one. -/
theorem size_le (wf : s.WellFormed) : ∀ r ∈ s.liveRecords, r.size ≤ s.options.largestBlock := by
  intro r member
  obtain ⟨e, inside, live⟩ := List.mem_flatMap.mp member
  have enrolled := wf.enrolled inside
  obtain ⟨before, behind, run_eq⟩ := List.append_of_mem (Run.mem_live.mp live).1
  have room := enrolled.sound.used_le
  rw [enrolled.sound.used, enrolled.ladder_max, run_eq, Run.size_append, Run.size_cons] at room
  omega

theorem range_eq (wf : s.WellFormed) (start stop : Option Bytes) (reverse : Bool) :
    s.range start stop reverse
      = Scan.oriented reverse (s.liveRecords.filter (inRange start stop ·.key)) := by
  unfold range
  cases opened : Scan.open? s start stop reverse with
  | none =>
      rw [(Scan.open?_eq_none_iff wf).mp opened]
      cases reverse <;> rfl
  | some scan =>
      obtain ⟨_, last, due, batched⟩ := Scan.of_open? wf opened
      have placed : scan.Placed := by
        intro key member
        rw [last] at member
        contradiction
      dsimp only
      rw [Scan.toList_due wf placed batched, due]

/-- Deleting a range counts its live records and takes them out. -/
theorem exists_deleteRange (wf : s.WellFormed) (start stop : Option Bytes) :
    ∃ s', s.deleteRange start stop
        = (.ok (s.liveRecords.filter (inRange start stop ·.key)).length, s')
      ∧ s.Yields s' (s.liveRecords.filter (!inRange start stop ·.key)) := by
  let rows := s.liveRecords.filter (inRange start stop ·.key)
  have asc : Ascending Record.key rows := wf.ascending.filter _
  have fit : ∀ key ∈ rows.map (·.key), Record.KeyFits key := by
    intro key member
    obtain ⟨r, inside, rfl⟩ := List.mem_map.mp member
    exact (wf.describable r (List.mem_filter.mp inside).1).key
  have distinct : (rows.map (·.key)).Nodup :=
    List.pairwise_map.mpr (asc.imp fun less => Std.ne_of_lt less)
  have present : ∀ key ∈ rows.map (·.key), (s.liveRecords.at? key).isSome := by
    intro key member
    obtain ⟨r, inside, rfl⟩ := List.mem_map.mp member
    rw [Run.at?, List.find?_isSome]
    exact ⟨r, (List.mem_filter.mp inside).1, decide_eq_true rfl⟩
  obtain ⟨s', deleted, yields⟩ := wf.exists_deleteAll fit distinct present
  refine ⟨s', ?_, yields.wellFormed, yields.options, ?_⟩
  · rw [deleteRange, wf.range_eq, Scan.oriented_false, deleted, List.length_map]
  · rw [yields.liveRecords]
    apply List.filter_congr
    intro r member
    have listed : r.key ∈ rows.map (·.key) ↔ inRange start stop r.key = true := by
      constructor
      · intro inside
        obtain ⟨r', inside, same⟩ := List.mem_map.mp inside
        exact same ▸ (List.mem_filter.mp inside).2
      · intro inside
        exact List.mem_map_of_mem (List.mem_filter.mpr ⟨member, inside⟩)
    rw [Bool.eq_iff_iff, decide_eq_true_eq, listed, Bool.not_eq_true', Bool.not_eq_true]

end Store.WellFormed

end OrderedStore
