import Mathlib.Data.List.Induction
import OrderedStore.Proofs.Store.Reachable

/-! # The walk to the left

The search for the greatest record at or below a key starts at the owner of the key and goes on, one
block at a time, to the block below the anchor it has left. Here that walk is told step by step. It
ends at the left edge at the latest, with the record that an operation is to be shown, whatever the
blocks on the way hold.
-/

namespace OrderedStore

/-- What is to be found for `key` among live records: the one under it or, if `floor` is set, the
greatest one at or below it. -/
inductive Run.Finds (live : Run) (key : Bytes) : Bool → Option Record → Prop where
  | at {r : Record} : r ∈ live → r.key = key → Finds live key false (some r)
  | nowhere : (∀ r ∈ live, r.key ≠ key) → Finds live key false none
  | greatest {r : Record} : r ∈ live → r.key ≤ key →
      (∀ r' ∈ live, r'.key ≤ key → r'.key ≤ r.key) → Finds live key true (some r)
  | noneBelow : (∀ r ∈ live, key < r.key) → Finds live key true none

theorem Run.finds_shown? {live : Run} (asc : Ascending Record.key live) (key : Bytes)
    (floor : Bool) : live.Finds key floor (live.shown? key floor) := by
  cases floor with
  | false =>
      rw [shown?, if_neg Bool.false_ne_true]
      cases found : live.at? key with
      | none => exact .nowhere (Run.at?_eq_none.mp found)
      | some r => exact .at (Run.at?_eq_some found).1 (Run.at?_eq_some found).2
  | true =>
      rw [shown?, if_pos rfl]
      cases last : (live.filter (·.key ≤ key)).getLast? with
      | none =>
          refine .noneBelow fun r member => List.not_le.mp ?_
          have kept := List.filter_eq_nil_iff.mp (List.getLast?_eq_none_iff.mp last) r member
          simpa using kept
      | some r =>
          obtain ⟨init, split⟩ := List.getLast?_eq_some_iff.mp last
          have member : r ∈ live.filter (·.key ≤ key) := split ▸ List.mem_append_right _ (by simp)
          obtain ⟨inside, reached⟩ := List.mem_filter.mp member
          have filtered : Ascending Record.key (init ++ [r]) := split ▸ asc.filter _
          obtain ⟨_, _, before⟩ := List.pairwise_append.mp filtered
          refine .greatest inside (of_decide_eq_true reached) fun r' inside' reached' => ?_
          have kept : r' ∈ init ++ [r] :=
            split ▸ List.mem_filter.mpr ⟨inside', decide_eq_true reached'⟩
          rcases List.mem_append.mp kept with earlier | same
          · exact List.le_of_lt (before r' earlier r List.mem_cons_self)
          · rw [List.mem_singleton.mp same]
            exact List.le_refl r.key

namespace Store

/-- The block that a search visits: the owner of the key at first, and then the block below the
anchor that it has left. -/
def visited? (s : Store) (key : Bytes) : Option Bytes → Option (Entry Published)
  | none => s.directory.floor? key
  | some anchor => s.directory.lower? anchor

/-- A search that leaves a number of blocks behind before it ends in one. -/
inductive Walk (s : Store) (key : Bytes) :
    Option Bytes → Nat → Bytes × Option Record → Prop where
  | ends {before : Option Bytes} {e : Entry Published} {place : Bytes × Option Record} :
      s.visited? key before = some e → endOfSearch? key e = some place → Walk s key before 0 place
  | onward {before : Option Bytes} {e : Entry Published} {n : Nat}
      {place : Bytes × Option Record} :
      s.visited? key before = some e → endOfSearch? key e = none →
      Walk s key (some e.anchor) n place → Walk s key before (n + 1) place

variable {s : Store} {key : Bytes}

/-- From a block on the search ends where the first answer is, from that block to the left. -/
theorem exists_walk_from {low high : List (Entry Published)} {e : Entry Published}
    {before : Option Bytes} {place : Bytes × Option Record}
    (eq : s.directory.toList = low ++ e :: high) (here : s.visited? key before = some e)
    (found : (low ++ [e]).reverse.findSome? (endOfSearch? key) = some place) :
    ∃ n ≤ low.length, s.Walk key before n place := by
  rw [List.reverse_append, List.reverse_singleton, List.singleton_append,
    List.findSome?_cons] at found
  -- the entries to the left are taken from the end, as the walk visits them
  induction low using List.reverseRecOn generalizing e high before with
  | nil =>
      cases ended : endOfSearch? key e with
      | none => simp [ended] at found
      | some place' =>
          simp only [ended, Option.some.injEq] at found
          exact ⟨0, Nat.le_refl 0, .ends here (found ▸ ended)⟩
  | append_singleton low e' ih =>
      cases ended : endOfSearch? key e with
      | some place' =>
          simp only [ended, Option.some.injEq] at found
          exact ⟨0, Nat.zero_le _, .ends here (found ▸ ended)⟩
      | none =>
          have next : s.visited? key (some e.anchor) = some e' := by
            rw [visited?, Directory.lower?_eq_getLast? eq, List.getLast?_concat]
          rw [List.append_assoc] at eq
          rw [ended, List.reverse_append, List.reverse_singleton, List.singleton_append,
            List.findSome?_cons] at found
          obtain ⟨n, bounded, walk⟩ := ih eq next found
          refine ⟨n + 1, ?_, .onward here ended walk⟩
          rw [List.length_append]
          exact Nat.succ_le_succ bounded

/-- The search to the left ends after fewer steps than there are blocks, where it is said to. -/
theorem WellFormed.exists_walk (wf : s.WellFormed) (key : Bytes) : ∃ anchor,
    s.locate key true = .ok (anchor, s.liveRecords.shown? key true)
      ∧ ∃ n < s.blockCount, s.Walk key none n (anchor, s.liveRecords.shown? key true) := by
  obtain ⟨low, e, high, owns⟩ := wf.exists_owner key
  obtain ⟨⟨anchor, record⟩, found, same⟩ := Option.map_eq_some_iff.mp (wf.search_owner owns)
  simp only at same
  have reached : s.directory.findUpTo? key (endOfSearch? key) = some (anchor, record) := by
    rw [SearchTree.findUpTo?_eq, owns.filter_le_eq, found]
  have here : s.visited? key none = some e := owns.floor?_eq
  obtain ⟨n, bounded, walk⟩ := exists_walk_from owns.eq here found
  refine ⟨anchor, ?_, n, ?_, ?_⟩
  · rw [← same, locate, if_pos rfl, reached]
  · rw [blockCount, ← SearchTree.length_toList, owns.eq, List.length_append, List.length_cons]
    omega
  · exact same ▸ walk

/-- An execution looks up the record that its operation asks for among all live records, and settles
what the operation answers to it. A search to the left leaves fewer blocks behind than there are. -/
structure ShowsRecord {ρ : Type} (s : Store) (op : Operation ρ) (anchor : Bytes)
    (record : Option Record) : Prop where
  located : s.locate op.key op.floor = .ok (anchor, record)
  finds : s.liveRecords.Finds op.key op.floor record
  walk : op.floor = true → ∃ n < s.blockCount, s.Walk op.key none n (anchor, record)
  shown : ∀ outcome, op.run op.initial (record.map fun r => ⟨r.key, r.value⟩) .empty = outcome →
    s.execute op =
      ⟨(s.settle anchor op.readOnly outcome.verdict outcome.changes).2,
        (s.settle anchor op.readOnly outcome.verdict outcome.changes).1,
        outcome.changes, outcome.report⟩

theorem Reachable.exists_showsRecord {o : Options} (reachable : Reachable o s) {ρ : Type}
    (op : Operation ρ) (fits : Record.KeyFits op.key) :
    ∃ anchor record, s.ShowsRecord op anchor record := by
  have wf := reachable.wellFormed
  have located : ∃ anchor, s.locate op.key op.floor
        = .ok (anchor, s.liveRecords.shown? op.key op.floor)
      ∧ (op.floor = true → ∃ n < s.blockCount,
        s.Walk op.key none n (anchor, s.liveRecords.shown? op.key op.floor)) := by
    cases op.floor with
    | false =>
        obtain ⟨anchor, located⟩ := wf.exists_locate op.key false
        exact ⟨anchor, located, fun floor => absurd floor Bool.false_ne_true⟩
    | true =>
        obtain ⟨anchor, located, walk⟩ := wf.exists_walk op.key
        exact ⟨anchor, located, fun _ => walk⟩
  obtain ⟨anchor, located, walk⟩ := located
  refine ⟨anchor, _, located, Run.finds_shown? wf.ascending op.key op.floor, walk, ?_⟩
  rintro outcome rfl
  simp only [Store.execute, Record.checkKey_of_fits fits, located]

/-- Two blocks that hold only tombstones lie between the owner of a key and the record shown. -/
theorem exists_showsRecord_behind_tombstones : ∃ s t anchor record,
    create { largestBlock := 64, newBlock := 64 } = .ok s
      ∧ t = [[2], [3]].foldl (fun s key => (s.delete key).2)
        ([[1], [2], [3], [4], [5]].foldl (fun s key => (s.put key (.replicate 20 0)).2) s)
      ∧ t.ShowsRecord { Operation.lookup [3] with floor := true } anchor record
      ∧ (t.visited? [3] none).map (·.anchor) = some [3]
      ∧ (t.locate [3] true).toOption = some ([], some (.live [1] (.replicate 20 0))) := by
  obtain ⟨s, opened⟩ : ∃ s, create { largestBlock := 64, newBlock := 64 } = .ok s := ⟨_, rfl⟩
  have reachable : Reachable { largestBlock := 64, newBlock := 64 } s := .opened opened
  obtain ⟨anchor, record, shows⟩ := Reachable.exists_showsRecord
    (.delete [3] (.delete [2] (.put [5] (.replicate 20 0) (.put [4] (.replicate 20 0)
      (.put [3] (.replicate 20 0) (.put [2] (.replicate 20 0)
        (.put [1] (.replicate 20 0) reachable)))))))
    { Operation.lookup [3] with floor := true } ⟨by decide, by decide⟩
  cases opened
  exact ⟨_, _, anchor, record, rfl, rfl, shows, by decide +kernel, by decide +kernel⟩

end Store

end OrderedStore
