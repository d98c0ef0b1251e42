import OrderedStore.Proofs.Store.Reachable

/-! # Scans are cursors

As long as nobody writes, a scan is a cursor over the live records of its range: a list of rows that
its steps take from the front. Batches, anchors and the last key returned do not occur in it.
-/

namespace OrderedStore

namespace Scan

/-- The calls on a scan. -/
inductive Call where
  | next
  | previous
  | hasNext
  | hasPrevious
  | first
  | last
  | count
deriving Repr, DecidableEq

/-- The call that moves a scan in its direction. -/
def Call.onward (reverse : Bool) : Call := if reverse then .previous else .next

/-- The call that asks a scan whether it has a row in its direction. -/
def Call.looking (reverse : Bool) : Call := if reverse then .hasPrevious else .hasNext

/-- What a call on a scan replies. -/
inductive Reply where
  | row (r : Option Record)
  | flag (holds : Bool)
  | number (n : Nat)
deriving Repr, DecidableEq

/-- What a call replies over a store, and the scan after it. -/
def reply (s : Scan) (store : Store) : Call → Except Misuse Reply × Scan
  | .next =>
    let (row, s) := s.next store
    (row.map .row, s)
  | .previous =>
    let (row, s) := s.previous store
    (row.map .row, s)
  | .hasNext =>
    let (more, s) := s.hasNext store
    (.ok (.flag more), s)
  | .hasPrevious =>
    let (more, s) := s.hasPrevious store
    (.ok (.flag more), s)
  | .first => (.ok (.row (s.first? store)), s)
  | .last => (.ok (.row (s.last? store)), s)
  | .count => (.ok (.number (s.count store)), s)

/-- What calls in their order reply while nobody writes. -/
def replies (s : Scan) (store : Store) : List Call → List (Except Misuse Reply)
  | [] => []
  | call :: calls => (s.reply store call).1 :: (s.reply store call).2.replies store calls

theorem reply_onward (s : Scan) (store : Store) : s.reply store (.onward s.reverse)
    = (.ok (.row (s.advance store).1), (s.advance store).2) := by
  unfold Call.onward
  cases direction : s.reverse with
  | false => simp [reply, next, direction, Except.map]
  | true => simp [reply, previous, direction, Except.map]

theorem reply_looking (s : Scan) (store : Store) : s.reply store (.looking s.reverse)
    = (.ok (.flag (!(s.fill store).batch.isEmpty)), s.fill store) := by
  unfold Call.looking
  cases direction : s.reverse with
  | false => simp [reply, hasNext, direction]
  | true => simp [reply, hasPrevious, direction]

end Scan

/-- The rows of a range, and those of them that have yet to be returned. -/
structure Cursor where
  reverse : Bool
  /-- All rows, in the order of their keys. -/
  rows : Run
  /-- The rows yet to be returned, in the direction of the cursor. -/
  left : Run

namespace Cursor

/-- The cursor before the first row of a range. -/
def ofRange (live : Run) (start stop : Option Bytes) (reverse : Bool) : Cursor :=
  let rows := live.filter (inRange start stop ·.key)
  ⟨reverse, rows, Scan.oriented reverse rows⟩

/-- The first of the rows left, and the cursor behind it. -/
def step (c : Cursor) : Except Misuse Scan.Reply × Cursor :=
  (.ok (.row c.left.head?), { c with left := c.left.tail })

/-- What a call replies, and the cursor after it. -/
def reply (c : Cursor) : Scan.Call → Except Misuse Scan.Reply × Cursor
  | .next => if c.reverse then (.error .scanIsReverse, c) else c.step
  | .previous => if c.reverse then c.step else (.error .scanIsForward, c)
  | .hasNext => (.ok (.flag (!c.reverse && !c.left.isEmpty)), c)
  | .hasPrevious => (.ok (.flag (c.reverse && !c.left.isEmpty)), c)
  | .first => (.ok (.row c.rows.head?), c)
  | .last => (.ok (.row c.rows.getLast?), c)
  | .count => (.ok (.number c.rows.length), c)

/-- What calls in their order reply. -/
def replies (c : Cursor) : List Scan.Call → List (Except Misuse Scan.Reply)
  | [] => []
  | call :: calls => (c.reply call).1 :: (c.reply call).2.replies calls

theorem reply_onward (c : Cursor) : c.reply (.onward c.reverse) = c.step := by
  unfold Scan.Call.onward
  cases direction : c.reverse with
  | false => exact if_neg (by simp [direction])
  | true => exact if_pos direction

theorem replies_onward (c : Cursor) (beyond : Nat) :
    c.replies (List.replicate (c.left.length + beyond) (.onward c.reverse))
      = c.left.map (fun r => .ok (.row (some r))) ++ List.replicate beyond (.ok (.row none)) := by
  obtain ⟨reverse, rows, left⟩ := c
  dsimp only
  induction left with
  | nil =>
      rw [List.length_nil, Nat.zero_add]
      induction beyond with
      | zero => rfl
      | succ beyond ih =>
          rw [List.replicate_succ, replies, reply_onward ⟨reverse, rows, []⟩]
          exact congrArg (Except.ok (.row none) :: ·) ih
  | cons r left ih =>
      rw [List.length_cons, Nat.add_right_comm, List.replicate_succ, replies,
        reply_onward ⟨reverse, rows, r :: left⟩]
      exact congrArg (Except.ok (.row (some r)) :: ·) ih

end Cursor

namespace Scan

section

variable {s : Scan} {store : Store} {c : Cursor}

theorem first?_eq (wf : store.WellFormed) (s : Scan) :
    s.first? store = (store.liveRecords.filter (inRange s.start s.stop ·.key)).head? := by
  obtain ⟨row, _⟩ := advance_due wf (placed_fresh s.start s.stop false) (batched_fresh _ _ _ _)
  rw [due_fresh] at row
  exact row

theorem last?_eq (wf : store.WellFormed) (s : Scan) :
    s.last? store = (store.liveRecords.filter (inRange s.start s.stop ·.key)).getLast? := by
  obtain ⟨row, _⟩ := advance_due wf (placed_fresh s.start s.stop true) (batched_fresh _ _ _ _)
  rw [due_fresh, oriented_true, List.head?_reverse] at row
  exact row

theorem count_eq (wf : store.WellFormed) (s : Scan) :
    s.count store = (store.liveRecords.filter (inRange s.start s.stop ·.key)).length := by
  have all := toList_due wf (placed_fresh s.start s.stop false) (batched_fresh _ _ _ _)
  rw [due_fresh] at all
  exact congrArg List.length all

/-- The scan stands over the store where the cursor stands. -/
structure Shows (s : Scan) (store : Store) (c : Cursor) : Prop where
  reverse : c.reverse = s.reverse
  rows : c.rows = store.liveRecords.filter (inRange s.start s.stop ·.key)
  left : s.due store.liveRecords = c.left
  placed : s.Placed
  batched : s.Batched (s.due store.liveRecords)

namespace Shows

theorem fill (shows : s.Shows store c) (wf : store.WellFormed) :
    (s.fill store).Shows store c ∧ (s.fill store).batch.isEmpty = c.left.isEmpty := by
  obtain ⟨batched, empty⟩ := batched_fill wf shows.placed shows.batched
  obtain ⟨alike, last, due⟩ := due_fill wf shows.placed store.liveRecords
  rw [shows.left] at empty
  refine ⟨⟨?_, ?_, due.trans shows.left, ?_, due ▸ batched⟩, ?_⟩
  · rw [alike.reverse]
    exact shows.reverse
  · rw [alike.start, alike.stop]
    exact shows.rows
  · rw [Placed, last, alike.start, alike.stop]
    exact shows.placed
  · rw [Bool.eq_iff_iff, List.isEmpty_iff, List.isEmpty_iff]
    exact empty

theorem advance (shows : s.Shows store c) (wf : store.WellFormed) :
    (s.advance store).1 = c.left.head?
      ∧ (s.advance store).2.Shows store { c with left := c.left.tail } := by
  obtain ⟨row, due, alike, placed, batched⟩ := advance_due wf shows.placed shows.batched
  rw [shows.left] at row due
  refine ⟨row, ?_, ?_, due, placed, batched⟩
  · rw [alike.reverse]
    exact shows.reverse
  · rw [alike.start, alike.stop]
    exact shows.rows

theorem reply (shows : s.Shows store c) (wf : store.WellFormed) (call : Call) :
    (s.reply store call).1 = (c.reply call).1
      ∧ (s.reply store call).2.Shows store (c.reply call).2 := by
  obtain ⟨row, onward⟩ := shows.advance wf
  obtain ⟨filled, empty⟩ := shows.fill wf
  have same := shows.reverse
  cases call with
  | next =>
      rw [Scan.reply, Cursor.reply, next, same]
      cases s.reverse with
      | false => exact ⟨congrArg (Except.ok <| Reply.row ·) row, onward⟩
      | true => exact ⟨rfl, shows⟩
  | previous =>
      rw [Scan.reply, Cursor.reply, previous, same]
      cases s.reverse with
      | false => exact ⟨rfl, shows⟩
      | true => exact ⟨congrArg (Except.ok <| Reply.row ·) row, onward⟩
  | hasNext =>
      rw [Scan.reply, Cursor.reply, hasNext, same, ← empty]
      cases s.reverse with
      | false => exact ⟨rfl, filled⟩
      | true => exact ⟨rfl, shows⟩
  | hasPrevious =>
      rw [Scan.reply, Cursor.reply, hasPrevious, same, ← empty]
      cases s.reverse with
      | false => exact ⟨rfl, shows⟩
      | true => exact ⟨rfl, filled⟩
  | first =>
      rw [Scan.reply, Cursor.reply, first?_eq wf, shows.rows]
      exact ⟨rfl, shows⟩
  | last =>
      rw [Scan.reply, Cursor.reply, last?_eq wf, shows.rows]
      exact ⟨rfl, shows⟩
  | count =>
      rw [Scan.reply, Cursor.reply, count_eq wf, shows.rows]
      exact ⟨rfl, shows⟩

theorem replies (shows : s.Shows store c) (wf : store.WellFormed) (calls : List Call) :
    s.replies store calls = c.replies calls := by
  induction calls generalizing s c with
  | nil => rfl
  | cons call calls ih =>
      obtain ⟨same, onward⟩ := shows.reply wf call
      rw [Scan.replies, Cursor.replies, same, ih onward]

end Shows

theorem shows_of_open? {start stop : Option Bytes} {reverse : Bool} (wf : store.WellFormed)
    (opened : open? store start stop reverse = some s) :
    s.Shows store (.ofRange store.liveRecords start stop reverse) := by
  obtain ⟨alike, last, due, batched⟩ := of_open? wf opened
  refine ⟨alike.reverse.symm, ?_, due, ?_, batched⟩
  · rw [alike.start, alike.stop]
    rfl
  · intro key member
    rw [last] at member
    contradiction

end

end Scan

namespace Store

/-- Over a reachable store a range can be scanned exactly if there is a live record in it, and all
calls on the scan reply as on a cursor over the live records of the range. -/
theorem Reachable.scans_as_cursor {o : Options} {store : Store} (reachable : Reachable o store)
    (start stop : Option Bytes) (reverse : Bool) :
    let cursor := Cursor.ofRange store.liveRecords start stop reverse
    cursor.left.Pairwise (fun r r' => Scan.leads reverse r.key r'.key = true)
      ∧ (∀ r, r ∈ cursor.left ↔ r ∈ store.liveRecords ∧ inRange start stop r.key = true)
      ∧ (Scan.open? store start stop reverse = none ↔ cursor.left = [])
      ∧ ∀ s, Scan.open? store start stop reverse = some s →
        (∀ calls, s.replies store calls = cursor.replies calls)
        ∧ ∀ beyond, s.replies store
            (List.replicate (cursor.left.length + beyond) (.onward reverse))
          = cursor.left.map (fun r => .ok (.row (some r)))
            ++ List.replicate beyond (.ok (.row none)) := by
  have wf := reachable.wellFormed
  intro cursor
  have replies : ∀ s, Scan.open? store start stop reverse = some s →
      ∀ calls, s.replies store calls = cursor.replies calls := fun s opened =>
    (Scan.shows_of_open? wf opened).replies wf
  refine ⟨Scan.pairwise_oriented reverse (wf.ascending.filter _), ?_, ?_, ?_⟩
  · intro r
    exact Scan.mem_oriented.trans List.mem_filter
  · rw [Scan.open?_eq_none_iff wf]
    cases reverse with
    | false => exact Iff.rfl
    | true => exact List.reverse_eq_nil_iff.symm
  · intro s opened
    refine ⟨replies s opened, ?_⟩
    intro beyond
    rw [replies s opened]
    exact cursor.replies_onward beyond

theorem Reachable.scan_of_fiveRows : ∃ s, create smallBlocks = .ok s
    ∧ (s.filled fiveRows).blocks.length = 4
    ∧ ∃ scan, Scan.open? (s.filled fiveRows) (some [2]) (some [5]) true = some scan
      ∧ scan.replies (s.filled fiveRows) [.first, .hasPrevious, .previous, .next, .previous,
          .previous, .hasPrevious, .previous, .count]
        = [.ok (.row (some (.live [2] (.replicate 20 2)))), .ok (.flag true),
          .ok (.row (some (.live [4] (.replicate 20 4)))), .error .scanIsReverse,
          .ok (.row (some (.live [3] (.replicate 20 3)))),
          .ok (.row (some (.live [2] (.replicate 20 2)))), .ok (.flag false), .ok (.row none),
          .ok (.number 3)] := by
  obtain ⟨s, opened, reachable, blocks, live⟩ := exists_filled_fiveRows
  obtain ⟨_, _, opens, replies⟩ := scans_as_cursor reachable (some [2]) (some [5]) true
  rw [live] at opens replies
  obtain ⟨scan, found⟩ := Option.ne_none_iff_exists'.mp fun no_scan =>
    absurd (opens.mp no_scan) (by decide)
  refine ⟨s, opened, blocks, scan, found, ?_⟩
  rw [(replies scan found).1]
  decide

end Store

end OrderedStore
