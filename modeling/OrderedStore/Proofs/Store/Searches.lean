import OrderedStore.Proofs.Run.Updates
import OrderedStore.Proofs.Store.Calls
import OrderedStore.Store.Execute

/-! # The record that an operation is shown

An operation is shown the live record under its key, or the greatest one at or below it. The search
for the latter walks from the owner of the key to the left, past blocks that have none to show, and
ends at the left edge at the latest.
-/

namespace OrderedStore

/-- The live record for `key`: the one under it, or the greatest one at or below it. -/
def Run.shown? (live : Run) (key : Bytes) (floor : Bool) : Option Record :=
  if floor then (live.filter (·.key ≤ key)).getLast? else live.at? key

/-- If a test passes all keys between one that passes and `key`, it is settled by the record shown
for `key` whether any record at or below `key` passes. -/
theorem Run.filter_shown? {live : Run} {key : Bytes} {test : Bytes → Bool}
    (asc : Ascending Record.key live)
    (closed : ∀ k k', test k = true → k ≤ k' → k' ≤ key → test k' = true) :
    (live.shown? key true).filter (test ·.key)
      = Run.shown? (live.filter (test ·.key)) key true := by
  have swap : (live.filter (test ·.key)).filter (·.key ≤ key)
      = (live.filter (·.key ≤ key)).filter (test ·.key) := by
    rw [List.filter_filter, List.filter_filter]
    simp only [Bool.and_comm]
  have reached_asc : Ascending Record.key (live.filter (·.key ≤ key)) := asc.filter _
  rw [shown?, if_pos rfl, shown?, if_pos rfl, swap]
  cases last : (live.filter (·.key ≤ key)).getLast? with
  | none =>
      rw [List.getLast?_eq_none_iff.mp last]
      rfl
  | some r =>
      obtain ⟨init, split⟩ := List.getLast?_eq_some_iff.mp last
      have member : r ∈ live.filter (·.key ≤ key) := split ▸ List.mem_append_right _ (by simp)
      have reached : r.key ≤ key := of_decide_eq_true (List.mem_filter.mp member).2
      rw [split] at reached_asc ⊢
      obtain ⟨_, _, before⟩ := List.pairwise_append.mp reached_asc
      rw [Option.filter_some, List.filter_append]
      cases passes : test r.key with
      | true => simp [passes]
      | false =>
          have none_passes : init.filter (test ·.key) = [] := by
            apply List.filter_eq_nil_iff.mpr
            intro r' earlier passed
            have less : r'.key < r.key := before r' earlier r List.mem_cons_self
            rw [closed r'.key r.key passed (List.le_of_lt less) reached] at passes
            contradiction
          simp [none_passes, passes]

namespace Store

variable {tuning : Tuning} {start stop : Option Bytes} {entries : List (Entry Published)}

/-- Away from the left edge the search ends in a block with a record to show, if there is one. -/
theorem search_inner (tiles : Tiles tuning start entries stop)
    (inner : ∀ e ∈ entries, e.anchor ≠ []) (key : Bytes) :
    (entries.reverse.findSome? (endOfSearch? key)).map (·.2)
      = ((liveOf entries).filter (·.key ≤ key)).getLast?.map some := by
  induction tiles with
  | nil => rfl
  | @cons e next rest stop fits _ ih =>
      obtain ⟨here, later⟩ := List.forall_mem_cons.mp inner
      have ended : (endOfSearch? key e).map (·.2)
          = ((Run.live e.value.block.run).filter (·.key ≤ key)).getLast?.map some := by
        rw [endOfSearch?, fits.enrolled.sound.floor?_eq]
        cases ((Run.live e.value.block.run).filter (·.key ≤ key)).getLast? <;> simp [here]
      rw [List.reverse_cons, List.findSome?_append, liveOf_cons, List.filter_append,
        List.getLast?_append, Option.map_or, Option.map_or, ih later, List.findSome?_singleton,
        ended]

/-- From the left edge on the search always ends, with the greatest record to show or with none. -/
theorem search_eq {root : Entry Published} (tiles : Tiles tuning start (root :: entries) stop)
    (leftmost : root.anchor = []) (inner : ∀ e ∈ entries, e.anchor ≠ []) (key : Bytes) :
    ((root :: entries).reverse.findSome? (endOfSearch? key)).map (·.2)
      = some ((liveOf (root :: entries)).filter (·.key ≤ key)).getLast? := by
  cases tiles with
  | cons fits tail =>
      have ended : (endOfSearch? key root).map (·.2)
          = some ((Run.live root.value.block.run).filter (·.key ≤ key)).getLast? := by
        rw [endOfSearch?, fits.enrolled.sound.floor?_eq]
        cases ((Run.live root.value.block.run).filter (·.key ≤ key)).getLast? <;> simp [leftmost]
      rw [List.reverse_cons, List.findSome?_append, liveOf_cons, List.filter_append,
        List.getLast?_append, Option.map_or, search_inner tail inner, List.findSome?_singleton,
        ended]
      cases ((liveOf entries).filter (·.key ≤ key)).getLast? <;> rfl

namespace WellFormed

variable {s : Store} {low high : List (Entry Published)} {e : Entry Published} {key : Bytes}

/-- From the owner of a key on the search ends with the greatest record at or below the key. -/
theorem search_owner (wf : s.WellFormed) (owns : s.directory.Owns key low e high) :
    ((low ++ [e]).reverse.findSome? (endOfSearch? key)).map (·.2)
      = some (s.liveRecords.shown? key true) := by
  obtain ⟨_, high_above⟩ := wf.apart owns
  obtain ⟨_, _, none_above, _⟩ := Ascending.filter_of_above high_above
  have split : s.directory.toList = (low ++ [e]) ++ high := by simp [owns.eq]
  have shown : s.liveRecords.shown? key true
      = ((liveOf (low ++ [e])).filter (·.key ≤ key)).getLast? := by
    rw [Run.shown?, if_pos rfl, liveRecords, split, liveOf_append (low ++ [e]),
      List.filter_append, none_above, List.append_nil]
  have tiles := wf.tiles
  rw [split] at tiles
  obtain ⟨bound, tiles, _⟩ := tiles.exists_of_append
  rw [shown]
  cases entries_eq : low ++ [e] with
  | nil => simp at entries_eq
  | cons root rest =>
      rw [entries_eq] at tiles split
      have leftmost : root.anchor = [] := (Option.some.inj tiles.start_eq_of_cons).symm
      have inner : ∀ x ∈ rest, x.anchor ≠ [] := by
        intro x member empty
        have first : s.directory.toList = [] ++ root :: (rest ++ high) := split
        have above := (Directory.anchors_around first).2 x (List.mem_append_left _ member)
        rw [leftmost, empty] at above
        exact List.not_lt_nil _ above
      exact search_eq tiles leftmost inner key

theorem exists_locate (wf : s.WellFormed) (key : Bytes) (floor : Bool) :
    ∃ anchor, s.locate key floor = .ok (anchor, s.liveRecords.shown? key floor) := by
  obtain ⟨low, e, high, owns⟩ := wf.exists_owner key
  cases floor with
  | false =>
      have owner : s.owner? key = .ok e := by simp only [owner?, owns.floor?_eq]
      refine ⟨e.anchor, ?_⟩
      rw [Run.shown?, if_neg Bool.false_ne_true, ← wf.liveAt?_eq owns, locate, owner]
      rfl
  | true =>
      have reached : s.directory.findUpTo? key (endOfSearch? key)
          = (low ++ [e]).reverse.findSome? (endOfSearch? key) := by
        rw [SearchTree.findUpTo?_eq, owns.filter_le_eq]
      obtain ⟨⟨anchor, record⟩, found, same⟩ := Option.map_eq_some_iff.mp (wf.search_owner owns)
      refine ⟨anchor, ?_⟩
      simp only at same
      rw [← same, locate, if_pos rfl, reached, found]

end WellFormed

end Store

end OrderedStore
