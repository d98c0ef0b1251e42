import OrderedStore.Proofs.Block.Compaction
import OrderedStore.Proofs.Block.Reshapes
import OrderedStore.Proofs.Store.Tiling
import OrderedStore.Proofs.Writer.Entries
import OrderedStore.Store.Write

/-! # Steps that keep the live records

Merging neighbours and compacting blocks move records and drop tombstones. Neither can fail on a
well-formed store, and neither changes what the store holds.
-/

namespace OrderedStore

namespace Store

/-- What a call leaves: a well-formed store with the same options, whose live records are `live`. -/
structure Yields (s s' : Store) (live : Run) : Prop where
  wellFormed : s'.WellFormed
  options : s'.options = s.options
  liveRecords : s'.liveRecords = live

theorem Yields.trans {s s' s'' : Store} {live live' : Run} (first : s.Yields s' live)
    (second : s'.Yields s'' live') : s.Yields s'' live' where
  wellFormed := second.wellFormed
  options := second.options.trans first.options
  liveRecords := second.liveRecords

namespace WellFormed

variable {s : Store} {low high : List (Entry Published)} {left e : Entry Published}

theorem yields_self (wf : s.WellFormed) : s.Yields s s.liveRecords := ⟨wf, rfl, rfl⟩

/-- The records of two neighbours do not mix. -/
theorem neighbours_apart (wf : s.WellFormed)
    (eq : s.directory.toList = low ++ left :: e :: high) :
    ∀ x ∈ left.value.block.run, ∀ y ∈ e.value.block.run, x.key < y.key := by
  have split : s.directory.toList = (low ++ [left]) ++ e :: high := by simp [eq]
  obtain ⟨_, fits_left, _⟩ := wf.fits eq
  obtain ⟨_, fits, _⟩ := wf.fits split
  intro x left_member y member
  exact Std.lt_of_lt_of_le (fits_left.below x left_member e.anchor rfl) (fits.above y member)

theorem yields_joined (wf : s.WellFormed) (eq : s.directory.toList = low ++ left :: e :: high)
    {m : Block} {l : Ledger} (enrolled : m.Enrolled s.options.tuning)
    (run_eq : m.run = left.value.block.run ++ e.value.block.run)
    (balanced : l.Balanced s.directory.size (m :: blocksOf (low ++ high))) {s' : Store}
    (after : s'.directory.toList = low ++ ⟨left.anchor, ⟨e.value.id, m⟩⟩ :: high)
    (options : s'.options = s.options) (numbers : s'.nextId = s.nextId)
    (ledger : s'.ledger = l.count (·.addBlocks (-1))) : s.Yields s' s.liveRecords := by
  have split : s.directory.toList = (low ++ [left]) ++ e :: high := by simp [eq]
  obtain ⟨before, fits_left, _⟩ := wf.fits eq
  obtain ⟨_, fits, behind⟩ := wf.fits split
  have sizes : s'.directory.size + 1 = s.directory.size := by
    rw [← SearchTree.length_toList, ← SearchTree.length_toList, after, eq]
    simp
    omega
  have joined := fits_left.joined fits enrolled run_eq e.value.id
  refine ⟨?_, options, ?_⟩
  · refine wf.splice [left, e] [⟨left.anchor, ⟨e.value.id, m⟩⟩] eq after options before
      (.cons joined .nil) behind (by simp) ?_ (Nat.le_of_eq numbers.symm) ?_
    · intro e' member
      exact .inl ⟨e, by simp, by rw [List.mem_singleton.mp member]⟩
    · rw [ledger]
      rw [← sizes] at balanced
      exact balanced.retire
  · rw [liveRecords_at after, liveRecords_at eq, run_eq, Run.live_append, liveOf_cons,
      List.append_assoc]

theorem yields_same (wf : s.WellFormed) {d : Directory Published}
    (same : d.toList = s.directory.toList) {l : Ledger} (ledger : l = s.ledger) :
    s.Yields { s with directory := d, ledger := l } s.liveRecords := by
  have sizes : d.size = s.directory.size := by
    rw [← SearchTree.length_toList, ← SearchTree.length_toList, same]
  refine ⟨⟨wf.options, ?_, ?_, ?_, ?_⟩, rfl, ?_⟩
  · exact same ▸ wf.tiles
  · exact same ▸ wf.distinct
  · exact same ▸ wf.numbered
  · subst ledger
    simp only [blocks, same, sizes]
    exact wf.balanced
  · simp only [liveRecords, same]

/-- A merge keeps the live records, whether it takes place or not. -/
theorem exists_mergeAt (wf : s.WellFormed) (anchor : Bytes) :
    ∃ merged s', s.mergeAt anchor = (.ok merged, s') ∧ s.Yields s' s.liveRecords := by
  cases right_found : s.directory.published? anchor with
  | none => exact ⟨false, s, by simp only [mergeAt, right_found], wf.yields_self⟩
  | some right =>
      cases left_found : s.directory.lower? anchor with
      | none => exact ⟨false, s, by simp only [mergeAt, right_found, left_found], wf.yields_self⟩
      | some left =>
          obtain ⟨below, high, around⟩ := Directory.exists_of_published? right_found
          have last : below.getLast? = some left :=
            (Directory.lower?_eq_getLast? around).symm.trans left_found
          obtain ⟨low, rfl⟩ := List.getLast?_eq_some_iff.mp last
          have eq : s.directory.toList = low ++ left :: ⟨anchor, right⟩ :: high := by
            simp [around]
          obtain ⟨_, fits_left, _⟩ := wf.fits eq
          obtain ⟨_, fits, _⟩ := wf.fits around
          have balanced := wf.balanced_at eq
          have both : s.ledger.Balanced s.directory.size
              (left.value.block :: right.block :: blocksOf (low ++ high)) := by
            refine balanced.perm (List.Perm.cons _ ?_)
            exact List.Perm.map _ List.perm_middle
          have replaced (value : Published) :
              (s.directory.publish left.anchor value).toList
                = low ++ ⟨left.anchor, value⟩ :: ⟨anchor, right⟩ :: high :=
            Directory.toList_publish_same eq value
          have apart := wf.neighbours_apart eq
          rcases Block.merge_cases fits.enrolled fits_left.enrolled apart both with
            kept | ⟨m, l, merged, enrolled, run_eq, balanced'⟩
          · refine ⟨false, _, by simp only [mergeAt, right_found, left_found, kept]; rfl, ?_⟩
            refine wf.yields_same ?_ rfl
            have again : (s.directory.publish left.anchor left.value).toList
                = (low ++ [left]) ++ ⟨anchor, right⟩ :: high := by simp [replaced]
            exact (Directory.toList_publish_same again right).trans around.symm
          · refine ⟨true, _, by simp only [mergeAt, right_found, left_found, merged]; rfl, ?_⟩
            refine wf.yields_joined eq enrolled run_eq balanced' ?_ rfl rfl rfl
            have taken : (s.directory.publish left.anchor ⟨right.id, m⟩).toList
                = (low ++ [⟨left.anchor, ⟨right.id, m⟩⟩]) ++ ⟨anchor, right⟩ :: high := by
              simp [replaced]
            refine (Directory.retire_eq taken (decide_eq_true rfl)).trans ?_
            rw [List.append_assoc]
            rfl

theorem exists_mergeAll (wf : s.WellFormed) (anchors : List Bytes) :
    ∃ s', s.mergeAll anchors = (.ok (), s') ∧ s.Yields s' s.liveRecords := by
  induction anchors generalizing s with
  | nil => exact ⟨s, rfl, wf.yields_self⟩
  | cons anchor anchors ih =>
      cases found : s.mergeAnchor? anchor with
      | none =>
          obtain ⟨s', merged, yields⟩ := ih wf
          exact ⟨s', by simp only [mergeAll, found, merged], yields⟩
      | some anchor' =>
          obtain ⟨_, s₁, merged, yields⟩ := wf.exists_mergeAt anchor'
          obtain ⟨s', later, yields'⟩ := ih yields.wellFormed
          refine ⟨s', by simp only [mergeAll, found, merged, later], ?_⟩
          exact yields.trans (yields.liveRecords ▸ yields')

theorem exists_release {w : Writer} (wf : w.store.WellFormed) (deleted : Bool) :
    ∃ s', release w deleted = (.ok (), s') ∧ w.store.Yields s' w.store.liveRecords := by
  cases deleted with
  | false => exact ⟨w.store, rfl, wf.yields_self⟩
  | true => exact wf.exists_mergeAll w.underfilled

/-- What compacting everything does to one entry. -/
abbrev compactEntry (state : Nat × Ledger) (e : Entry Published) :
    Entry Published × Nat × Ledger :=
  let r := e.value.block.compact state.2 true
  (e.withBlock r.2.1, if r.1 then state.1 + 1 else state.1, r.2.2)

/-- Compacting entries one by one keeps where they lie, their numbers and their live records. -/
theorem tiles_compactEntry {tuning : Tuning} {start stop : Option Bytes}
    {entries : List (Entry Published)} (tiles : Tiles tuning start entries stop) {n : Nat}
    (rest : List Block) (state : Nat × Ledger)
    (balanced : state.2.Balanced n (blocksOf entries ++ rest)) :
    Tiles tuning start (Tree.mapMembers compactEntry state entries).1 stop
      ∧ liveOf (Tree.mapMembers compactEntry state entries).1 = liveOf entries
      ∧ (Tree.mapMembers compactEntry state entries).1.map (·.value.id) = entries.map (·.value.id)
      ∧ (Tree.mapMembers compactEntry state entries).2.2.Balanced n
        (blocksOf (Tree.mapMembers compactEntry state entries).1 ++ rest) := by
  -- the ledger runs along, with the blocks that are compacted already in `rest`
  induction tiles generalizing rest state with
  | nil => exact ⟨.nil, rfl, rfl, balanced⟩
  | @cons e next entries stop fits _ ih =>
      let r := e.value.block.compact state.2 true
      have prunes : Run.Prunes e.value.block.run r.2.1.run := Block.prunes_compact state.2 true
      have enrolled : r.2.1.Enrolled tuning := fits.enrolled.compact state.2 true
      have compacted : r.2.2.Balanced n (r.2.1 :: (blocksOf entries ++ rest)) :=
        Block.balanced_compact true fits.enrolled balanced
      have moved := compacted.perm List.perm_middle.symm
      obtain ⟨tiles, live, numbers, balanced'⟩ :=
        ih (r.2.1 :: rest) (compactEntry state e).2 moved
      refine ⟨.cons (fits.pruned prunes enrolled) tiles, ?_, ?_, balanced'.perm List.perm_middle⟩
      · simp only [Tree.mapMembers, liveOf_cons, live]
        rw [prunes.live]
      · simp only [Tree.mapMembers, List.map_cons, numbers]

theorem compactAll_eq (s : Store) :
    (s.compactAll.2.directory.toList, s.compactAll.1, s.compactAll.2.ledger)
      = Tree.mapMembers compactEntry (0, s.ledger) s.directory.toList :=
  SearchTree.mapState_eq s.directory _ (fun _ _ => rfl) (0, s.ledger)

theorem yields_compactAll (wf : s.WellFormed) : s.Yields s.compactAll.2 s.liveRecords := by
  have balanced : s.ledger.Balanced s.directory.size (blocksOf s.directory.toList ++ []) := by
    rw [List.append_nil]
    exact wf.balanced
  obtain ⟨tiles, live, numbers, balanced'⟩ :=
    tiles_compactEntry wf.tiles [] (0, s.ledger) balanced
  rw [← compactAll_eq] at tiles live numbers balanced'
  rw [List.append_nil] at balanced'
  have sizes : s.compactAll.2.directory.size = s.directory.size := by
    have lengths := congrArg List.length numbers
    simpa using lengths
  refine ⟨⟨wf.options, tiles, ?_, ?_, ?_⟩, rfl, live⟩
  · rw [numbers]
    exact wf.distinct
  · intro e member
    have known : e.value.id ∈ s.directory.toList.map (·.value.id) := by
      rw [← numbers]
      exact List.mem_map_of_mem member
    obtain ⟨e', member', same⟩ := List.mem_map.mp known
    exact same ▸ wf.numbered e' member'
  · rw [sizes]
    exact balanced'

end WellFormed

end Store

end OrderedStore
