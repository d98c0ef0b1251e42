import OrderedStore.Proofs.Block.Rounds
import OrderedStore.Proofs.Run.Regions

/-! # Blocks in their regions

The records of a block lie one behind the other in its region, which is filled up with zeros. Calls
find their way by decoding what lies there and edit it in place: they shift the bytes behind a record,
slide records over tombstones, copy everything to a larger region. Here this is told byte by byte, and
what a call makes of a block is what its edits make of the block's page.
-/

namespace OrderedStore

/-- A region with the number of its first bytes that are in use, and what is counted of the records
in them. -/
@[ext] structure Page where
  bytes : Bytes
  used : Nat
  recordCount : Nat
  deletedCount : Nat

namespace Page

def data (p : Page) : Bytes := p.bytes.take p.used

/-- The offset of the first record at or above `key`, or the end of the data. -/
def search (p : Page) (key : Bytes) : Except Corruption Nat :=
  let read := Record.readRun 0 p.data
  match read.1.find? (key ≤ ·.record.key), read.2 with
  | some row, _ => .ok row.offset
  | none, some fault => .error fault
  | none, none => .ok p.used

/-- The record at `offset`, where a search for `key` ended, if it has this key. -/
def matching? (p : Page) (offset : Nat) (key : Bytes) : Except Corruption (Option Record) :=
  if offset = p.used then .ok none
  else (Record.readAt p.data offset).map fun row => some row.record |>.filter (·.key = key)

/-- Puts a live record where the search for its key ended, and shifts what lies there and behind. -/
def insertAt (p : Page) (offset : Nat) (key value : Bytes) : Page :=
  let size := Record.sizeOf key.length value.length
  { p with
    bytes := Record.writeAt (p.bytes.copyWithin offset p.used (offset + size)) offset key value
    used := p.used + size
    recordCount := p.recordCount + 1 }

/-- Puts a live record in the place of `old`. What lies behind is shifted if the sizes differ, and
bytes that are no longer in use are cleared. -/
def replaceAt (p : Page) (offset : Nat) (old : Record) (key value : Bytes) : Page :=
  let size := Record.sizeOf key.length value.length
  let shifted := p.bytes.copyWithin (offset + old.size) p.used (offset + size)
  let bytes :=
    if old.size = size then p.bytes
    else if size < old.size then shifted.clear (p.used - (old.size - size)) p.used
    else shifted
  { p with
    bytes := Record.writeAt bytes offset key value
    used := p.used + size - old.size
    deletedCount := p.deletedCount - if old.deleted then 1 else 0 }

def storeAt (p : Page) (offset : Nat) (old : Option Record) (key value : Bytes) : Page :=
  match old with
  | some old => p.replaceAt offset old key value
  | none => p.insertAt offset key value

/-- Marks the live record stored under `key` as deleted, and tells whether there was one. -/
def delete (p : Page) (key : Bytes) : Except Corruption (Bool × Page) := do
  let offset ← p.search key
  match ← p.matching? offset key with
  | none => return (false, p)
  | some r =>
    if r.deleted then return (false, p)
    else return (true, { p with
      bytes := Record.markAt p.bytes offset true
      deletedCount := p.deletedCount + 1 })

/-- Slides the live records from `read` up to `used` down to `write`, one after the other. Gives the
bytes, the end of the records, and how many tombstones fell away on top of `removed`. -/
def slide (used : Nat) (bytes : Bytes) (write read removed : Nat) :
    Except Corruption (Bytes × Nat × Nat) :=
  if read < used then
    match Record.headerAt (bytes.take used) read with
    | .error fault => .error fault
    | .ok header =>
      if header.deleted then slide used bytes write (read + header.size) (removed + 1)
      else
        let bytes :=
          if write = read then bytes else bytes.copyWithin read (read + header.size) write
        slide used bytes (write + header.size) (read + header.size) removed
  else .ok (bytes, write, removed)
termination_by used - read
decreasing_by
  all_goals
    simp only [Record.Header.size, Record.sizeOf, Record.headerSize]
    omega

/-- Whether a compaction that is not forced runs. -/
def wantsCompaction (p : Page) (tuning : Tuning) : Bool :=
  !(Float.ofNat p.deletedCount / Float.ofNat p.recordCount ≤ tuning.compactionRatio)

/-- Removes every tombstone but a first record's, and tells whether there was one to remove. -/
def compact (p : Page) (tuning : Tuning) (force : Bool) : Except Corruption (Bool × Page) :=
  if p.deletedCount = 0 || !(force || p.wantsCompaction tuning) then .ok (false, p)
  else do
    let first ← Record.headerAt p.data 0
    let (bytes, write, removed) ← slide p.used p.bytes first.size first.size 0
    if removed = 0 then return (false, { p with bytes := bytes })
    else return (true,
      { bytes := bytes.clear write p.used
        used := write
        recordCount := p.recordCount - removed
        deletedCount := p.deletedCount - removed })

/-- Moves the page to a region of the next capacity. -/
def expand? (p : Page) (tuning : Tuning) : Option Page :=
  (tuning.ladder.above? p.bytes.length).map fun size =>
    { p with bytes := (Bytes.zeros size).overwrite 0 p.data }

/-- The page grows, capacity by capacity, until `more` bytes fit or it cannot grow any more. -/
inductive MakesRoom (tuning : Tuning) (more : Nat) : Page → Bool → Page → Prop where
  | enough {p : Page} : p.used + more ≤ p.bytes.length → MakesRoom tuning more p true p
  | exhausted {p : Page} : p.bytes.length < p.used + more → p.expand? tuning = none →
      MakesRoom tuning more p false p
  | grown {p p' ended : Page} {made : Bool} : p.bytes.length < p.used + more →
      p.expand? tuning = some p' → MakesRoom tuning more p' made ended →
      MakesRoom tuning more p made ended

/-- How many bytes more than now are in use once a record of `size` bytes has replaced `old`. -/
def growth (old : Option Record) (size : Nat) : Nat := size - (old.map Record.size).getD 0

/-- Whether bytes are added for which there is no room. -/
def Lacks (p : Page) (more : Nat) : Prop := 0 < more ∧ p.bytes.length < p.used + more

/-- The loop of a put. As long as it lacks room it compacts the page, makes room for what it lacked,
and searches again. -/
inductive Puts (tuning : Tuning) (key value : Bytes) : Page → Block.PutResult × Page → Prop where
  | stored {p : Page} {offset : Nat} {old : Option Record} : p.search key = .ok offset →
      p.matching? offset key = .ok old →
      ¬p.Lacks (growth old (Record.sizeOf key.length value.length)) →
      Puts tuning key value p (Block.PutResult.done, p.storeAt offset old key value)
  | full {p c ended : Page} {offset : Nat} {old : Option Record} {shrank : Bool} :
      p.search key = .ok offset → p.matching? offset key = .ok old →
      p.Lacks (growth old (Record.sizeOf key.length value.length)) →
      p.compact tuning true = .ok (shrank, c) →
      MakesRoom tuning (growth old (Record.sizeOf key.length value.length)) c false ended →
      Puts tuning key value p (Block.PutResult.needsSplit, ended)
  | again {p c p' : Page} {offset : Nat} {old : Option Record} {shrank : Bool}
      {ended : Block.PutResult × Page} :
      p.search key = .ok offset → p.matching? offset key = .ok old →
      p.Lacks (growth old (Record.sizeOf key.length value.length)) →
      p.compact tuning true = .ok (shrank, c) →
      MakesRoom tuning (growth old (Record.sizeOf key.length value.length)) c true p' →
      Puts tuning key value p' ended → Puts tuning key value p ended

/-- Where a slide stands: the bytes in `kept` are done, those in `gap` may be written over, and `run`
is still to be slid. -/
structure Sliding (bytes : Bytes) (used write read : Nat) (kept gap tail : Bytes) (run : Run) :
    Prop where
  bytes_eq : bytes = kept ++ (gap ++ (Run.encode run ++ tail))
  write_eq : write = kept.length
  read_eq : read = write + gap.length
  used_eq : used = read + Run.size run

namespace Sliding

variable {bytes kept gap tail : Bytes} {used write read : Nat} {r : Record} {run : Run}

theorem inside (s : Sliding bytes used write read kept gap tail (r :: run)) : read < used := by
  have filled := r.size_pos
  rw [s.used_eq, Run.size_cons]
  omega

theorem header (s : Sliding bytes used write read kept gap tail (r :: run))
    (described : r.Describable) :
    Record.headerAt (bytes.take used) read = .ok ⟨r.key.length, r.value.length, r.deleted⟩ := by
  have read_eq : read = (kept ++ gap).length := by rw [s.read_eq, s.write_eq, List.length_append]
  have used_eq : used = (kept ++ gap ++ Run.encode (r :: run)).length := by
    rw [List.length_append, Run.length_encode, ← read_eq, s.used_eq]
  have data : bytes = (kept ++ gap ++ Run.encode (r :: run)) ++ tail := by
    rw [s.bytes_eq]
    simp only [List.append_assoc]
  rw [used_eq, data, List.take_left, Record.headerAt, read_eq, List.drop_left, Run.encode_cons]
  exact Record.readHeader_encode_append described _

theorem pass (s : Sliding bytes used write read kept gap tail (r :: run)) :
    Sliding bytes used write (read + r.size) kept (gap ++ r.encode) tail run where
  bytes_eq := by
    rw [s.bytes_eq, Run.encode_cons]
    simp only [List.append_assoc]
  write_eq := s.write_eq
  read_eq := by rw [s.read_eq, List.length_append, Record.length_encode, Nat.add_assoc]
  used_eq := by rw [s.used_eq, Run.size_cons, Nat.add_assoc]

theorem move (s : Sliding bytes used write read kept gap tail (r :: run)) :
    Sliding (if write = read then bytes else bytes.copyWithin read (read + r.size) write) used
      (write + r.size) (read + r.size) (kept ++ r.encode) ((gap ++ r.encode).drop r.size) tail
      run where
  bytes_eq := by
    have laid : bytes = kept ++ (gap ++ (r.encode ++ (Run.encode run ++ tail))) := by
      rw [s.bytes_eq, Run.encode_cons, List.append_assoc r.encode]
    split
    next here =>
      have empty : gap = [] := List.eq_nil_of_length_eq_zero (by have := s.read_eq; omega)
      rw [laid, empty, List.nil_append, List.nil_append, ← Record.length_encode, List.drop_length,
        List.nil_append, List.append_assoc]
    next =>
      have down := Bytes.copyWithin_down kept gap r.encode (Run.encode run ++ tail)
      rw [Record.length_encode, ← s.write_eq, ← s.read_eq] at down
      rw [laid, down, List.append_assoc]
  write_eq := by rw [s.write_eq, List.length_append, Record.length_encode]
  read_eq := by
    rw [s.read_eq, List.length_drop, List.length_append, Record.length_encode, Nat.add_sub_cancel]
    omega
  used_eq := by rw [s.used_eq, Run.size_cons, Nat.add_assoc]

/-- A slide leaves the live records behind each other, and as many bytes behind them as fell free. -/
theorem slide_eq (s : Sliding bytes used write read kept gap tail run)
    (described : ∀ r ∈ run, r.Describable) (removed : Nat) :
    ∃ junk : Bytes, slide used bytes write read removed
      = .ok (kept ++ (Run.encode (Run.live run) ++ (junk ++ tail)),
          write + Run.size (Run.live run), removed + Run.tombstones run)
      ∧ junk.length + Run.size (Run.live run) = gap.length + Run.size run := by
  induction run generalizing bytes write read kept gap removed with
  | nil =>
      have ended : ¬read < used := Nat.not_lt.mpr (Nat.le_of_eq s.used_eq)
      refine ⟨gap, ?_, rfl⟩
      rw [slide, if_neg ended, s.bytes_eq]
      rfl
  | cons r run ih =>
      obtain ⟨here, later⟩ := List.forall_mem_cons.mp described
      rw [slide, if_pos s.inside, s.header here]
      have header_size (mark : Bool) :
          Record.Header.size ⟨r.key.length, r.value.length, mark⟩ = r.size := rfl
      cases mark : r.deleted with
      | true =>
          have live_eq : Run.live (r :: run) = Run.live run := by simp [Run.live_cons, mark]
          have tombs : Run.tombstones (r :: run) = Run.tombstones run + 1 := by
            simp [Run.tombstones, mark]
          obtain ⟨junk, slid, length⟩ := ih s.pass later (removed + 1)
          rw [Nat.add_right_comm removed, Nat.add_assoc removed, ← tombs, ← live_eq] at slid
          rw [List.length_append, Record.length_encode, Nat.add_assoc, ← Run.size_cons,
            ← live_eq] at length
          exact ⟨junk, slid, length⟩
      | false =>
          have live_eq : Run.live (r :: run) = r :: Run.live run := by simp [Run.live_cons, mark]
          have tombs : Run.tombstones (r :: run) = Run.tombstones run := by
            simp [Run.tombstones, mark]
          obtain ⟨junk, slid, length⟩ := ih s.move later removed
          have gap_length : ((gap ++ r.encode).drop r.size).length = gap.length := by
            rw [List.length_drop, List.length_append, Record.length_encode, Nat.add_sub_cancel]
          rw [List.append_assoc, ← List.append_assoc r.encode, ← Run.encode_cons, Nat.add_assoc,
            ← Run.size_cons, ← live_eq, ← tombs] at slid
          refine ⟨junk, slid, ?_⟩
          rw [live_eq, Run.size_cons, Run.size_cons]
          omega

end Sliding

end Page

namespace Block

/-- The block in its region. -/
def page (b : Block) : Page where
  bytes := Run.laid b.run b.capacity
  used := b.used
  recordCount := b.recordCount
  deletedCount := b.deletedCount

section

variable {b : Block} {l : Ledger}

theorem WellFormed.length_page (wf : b.WellFormed) : b.page.bytes.length = b.capacity := by
  rw [page, Run.length_laid (wf.used ▸ wf.room)]

theorem WellFormed.data_page (wf : b.WellFormed) : b.page.data = b.image := by
  rw [Page.data, page, wf.used, Run.take_laid]
  rfl

theorem WellFormed.exists_search_eq (wf : b.WellFormed) (key : Bytes) :
    ∃ (low : Run) (same : Option Record) (high : Run), b.run = low ++ (same.toList ++ high)
      ∧ (∀ r ∈ low, r.key < key) ∧ (∀ r ∈ same, r.key = key) ∧ (∀ r ∈ high, key < r.key)
      ∧ b.at? key = same ∧ b.search key = Run.size low := by
  obtain ⟨low, same, high, eq, below, equal, above, found⟩ := wf.exists_run_eq key
  exact ⟨low, same, high, eq, below, equal, above, found,
    wf.search_eq_size eq below (Run.le_of_mem_from equal above)⟩

theorem WellFormed.search_eq (wf : b.WellFormed) (key : Bytes) :
    b.search key = ((b.rows.find? (key ≤ ·.record.key)).map (·.offset)).getD b.used := by
  obtain ⟨low, same, high, eq, below, equal, above, _, search_eq⟩ := wf.exists_search_eq key
  rw [rows, wf.used, eq, search_eq]
  exact (Run.search_place below (Run.le_of_mem_from equal above)).symm

theorem WellFormed.search_page (wf : b.WellFormed) (key : Bytes) :
    b.page.search key = .ok (b.search key) := by
  rw [Page.search, wf.data_page, wf.decoded.1, wf.search_eq]
  cases b.rows.find? (key ≤ ·.record.key) <;> rfl

theorem WellFormed.matching_page (wf : b.WellFormed) (key : Bytes) :
    b.page.matching? (b.search key) key = .ok (b.at? key) := by
  obtain ⟨low, same, high, eq, below, equal, above, found, search_eq⟩ := wf.exists_search_eq key
  have used := wf.used
  rw [eq, Run.size_append] at used
  rw [Page.matching?, wf.data_page, search_eq, found]
  cases rest : same.toList ++ high with
  | nil =>
      obtain ⟨none_same, _⟩ := List.append_eq_nil_iff.mp rest
      rw [if_pos (by rw [page, used, rest]; rfl), Option.toList_eq_nil_iff.mp none_same]
  | cons r tail =>
      have described : r.Describable := wf.describable r (by simp [eq, rest])
      have inside : Run.size low ≠ b.page.used := by
        have filled := r.size_pos
        rw [rest, Run.size_cons] at used
        simp only [page]
        omega
      have here : b.image.drop (Run.size low) = r.encode ++ Run.encode tail := by
        rw [image, eq, rest, Run.encode_append, Run.encode_cons]
        exact List.drop_left' (Run.length_encode low)
      rw [if_neg inside, Record.readAt, here, Record.read_encode_append described]
      cases same with
      | none =>
          obtain rfl : high = r :: tail := rest
          have other : r.key ≠ key := (Std.ne_of_lt (above r List.mem_cons_self)).symm
          simp [Except.map, other]
      | some s =>
          obtain ⟨rfl, rfl⟩ := List.cons.inj rest
          simp [Except.map, equal]

theorem WellFormed.storeAt_page (wf : b.WellFormed) {key value : Bytes}
    (room : b.need (Record.live key value) ≤ b.capacity) :
    b.page.storeAt (b.search key) (b.at? key) key value
      = (b.stored l (Record.live key value)).1.page := by
  obtain ⟨low, same, high, eq, below, equal, above, found, search_eq⟩ := wf.exists_search_eq key
  have found_new : b.at? (Record.live key value).key = same := found
  have after : (b.stored l (Record.live key value)).1.run
      = low ++ Record.live key value :: high := by
    rw [wf.run_stored, eq, Ascending.inserted_append below equal above]
  have need_eq : b.need (Record.live key value) = b.usedWith same (Record.live key value).size :=
    congrArg (b.usedWith · (Record.live key value).size) found_new
  have parts := wf.usedWith_eq eq (Record.live key value).size
  have used := wf.used
  have inside := wf.room
  have fits : Run.size low + Run.size (Record.live key value :: high) ≤ b.capacity := by
    rw [Run.size_cons]
    omega
  have stored_used : (b.stored l (Record.live key value)).1.used
      = Run.size low + (Record.live key value).size + Run.size high := need_eq.trans parts
  have stored_count : (b.stored l (Record.live key value)).1.recordCount
      = b.recordCount + if same.isNone then 1 else 0 := by
    simp only [store, found_new]
  have stored_deleted : (b.stored l (Record.live key value)).1.deletedCount
      = b.deletedCount - if same.any (·.deleted) then 1 else 0 := by
    simp only [store, found_new]
  rw [eq] at used
  rw [found, search_eq]
  cases same with
  | none =>
      rw [Option.toList_none, List.nil_append] at eq used
      refine Page.ext ?_ ?_ stored_count.symm ?_
      · simp only [Page.storeAt, Page.insertAt, page, after, eq, used]
        exact Run.insert_laid fits
      · rw [Run.size_append] at used
        simp only [Page.storeAt, Page.insertAt, page, stored_used, used, Record.size]
        simp only [Record.live]
        omega
      · simp only [Page.storeAt, Page.insertAt, page, stored_deleted]
        rfl
  | some old =>
      have fits_old : Run.size low + Run.size (old :: high) ≤ b.capacity := by
        rw [← Run.size_append]
        exact used ▸ inside
      refine Page.ext ?_ ?_ stored_count.symm stored_deleted.symm
      · simp only [Page.storeAt, Page.replaceAt, page, after, eq, used]
        exact Run.replace_laid fits_old fits
      · have single : Run.size [old] = old.size := Nat.add_zero _
        rw [Run.size_append, Run.size_append, Option.toList_some, single] at used
        simp only [Page.storeAt, Page.replaceAt, page, stored_used, used, Record.size]
        simp only [Record.live]
        omega

theorem WellFormed.page_marked (wf : b.WellFormed) {key : Bytes} {r : Record}
    (found : b.liveAt? key = some r) :
    (b.marked r).page = { b.page with
      bytes := Record.markAt b.page.bytes (b.search key) true
      deletedCount := b.page.deletedCount + 1 } := by
  obtain ⟨low, same, high, eq, below, equal, above, at_key, search_eq⟩ := wf.exists_search_eq key
  obtain ⟨same_eq, _⟩ : same = some r ∧ r.deleted = false := by
    simpa [liveAt?, at_key, Option.filter_eq_some_iff] using found
  subst same_eq
  obtain rfl : r.key = key := equal r rfl
  have after : (b.marked r).run = low ++ { r with deleted := true } :: high := by
    rw [wf.run_marked, eq]
    exact Ascending.inserted_append below equal above
  have described : r.Describable := wf.describable r (by simp [eq])
  refine Page.ext ?_ rfl rfl rfl
  simp only [page, after, eq, search_eq]
  exact (Run.markAt_laid described).symm

theorem WellFormed.delete_page (wf : b.WellFormed) (key : Bytes) :
    ∃ found b' l', b.delete l key = .ok (found, b', l')
      ∧ b.page.delete key = .ok (found, b'.page) := by
  have deleted := wf.delete_eq (l := l) key
  have edited : b.page.delete key = .ok (match b.liveAt? key with
      | none => (false, b.page)
      | some r => (true, (b.marked r).page)) := by
    simp only [Page.delete, wf.search_page, wf.matching_page, bind, Except.bind]
    cases at_key : b.at? key with
    | none => simp [liveAt?, at_key, pure, Except.pure]
    | some r =>
        cases mark : r.deleted with
        | true =>
            have gone : b.liveAt? key = none := by simp [liveAt?, at_key, mark]
            simp [gone, mark, pure, Except.pure]
        | false =>
            have found : b.liveAt? key = some r := by simp [liveAt?, at_key, mark]
            simp [found, wf.page_marked found, mark, pure, Except.pure]
  cases found : b.liveAt? key with
  | none =>
      rw [found] at deleted edited
      exact ⟨_, _, _, deleted, edited⟩
  | some r =>
      rw [found] at deleted edited
      exact ⟨_, _, _, deleted, edited⟩

theorem WellFormed.exists_slide_page (wf : b.WellFormed) {first : Record} {rest : Run}
    (eq : b.run = first :: rest) :
    ∃ bytes, Page.slide b.page.used b.page.bytes first.size first.size 0
        = .ok (bytes, Run.size (Run.compact b.run), (Run.removable b.run).length)
      ∧ (Run.removable b.run = [] → bytes = b.page.bytes)
      ∧ bytes.clear (Run.size (Run.compact b.run)) b.page.used
        = Run.laid (Run.compact b.run) b.capacity := by
  have described := wf.describable
  rw [eq] at described
  obtain ⟨here, later⟩ := List.forall_mem_cons.mp described
  have used := wf.used
  have room := wf.room
  have compacted : Run.compact b.run = first :: Run.live rest := by rw [eq]; rfl
  have removable : Run.removable b.run = rest.filter (·.deleted) := by rw [eq]; rfl
  have tombs : Run.tombstones rest = (Run.removable b.run).length := by
    rw [removable, ← List.countP_eq_length_filter]
    rfl
  have bytes_eq : b.page.bytes = first.encode ++ (Run.encode rest
      ++ Bytes.zeros (b.capacity - b.used)) := by
    rw [page, Run.laid, eq, Run.encode_cons, used, eq, List.append_assoc]
  rw [eq, Run.size_cons] at used
  have start : Page.Sliding b.page.bytes b.page.used first.size first.size first.encode []
      (Bytes.zeros (b.capacity - b.used)) rest :=
    ⟨bytes_eq, (Record.length_encode first).symm, rfl, used⟩
  obtain ⟨junk, slid, length⟩ := start.slide_eq later 0
  rw [Nat.zero_add, tombs, ← Run.size_cons, ← compacted] at slid
  rw [List.length_nil, Nat.zero_add] at length
  refine ⟨_, slid, ?_, ?_⟩
  · intro clean
    have all_live : Run.live rest = rest := by
      have kept := Run.compact_of_removable_nil clean
      rw [compacted, eq] at kept
      exact (List.cons.inj kept).2
    rw [all_live] at length ⊢
    obtain rfl : junk = [] := List.eq_nil_of_length_eq_zero (by omega)
    rw [bytes_eq, List.nil_append]
  · have size_eq : Run.size (Run.compact b.run)
        = (first.encode ++ Run.encode (Run.live rest)).length := by
      rw [compacted, Run.size_cons, List.length_append, Record.length_encode, Run.length_encode]
    have junk_eq : (Bytes.zeros (b.used - Run.size (Run.compact b.run))).length = junk.length := by
      rw [Bytes.length_zeros, compacted, Run.size_cons]
      omega
    have cleared := Bytes.overwrite_append (first.encode ++ Run.encode (Run.live rest))
      (Bytes.zeros (b.capacity - b.used)) junk_eq
    rw [← size_eq, List.append_assoc first.encode] at cleared
    rw [Bytes.clear]
    refine cleared.trans ?_
    rw [Run.laid, Bytes.zeros_append, compacted, Run.encode_cons]
    congr 2
    rw [Run.size_cons]
    omega

theorem WellFormed.compact_page (wf : b.WellFormed) (l : Ledger) (force : Bool) :
    b.page.compact b.tuning force
      = .ok ((b.compact l force).1, (b.compact l force).2.1.page) := by
  have guard_eq : (b.deletedCount = 0 || !b.valid || !(force || b.wantsCompaction))
      = (b.page.deletedCount = 0 || !(force || b.page.wantsCompaction b.tuning)) := by
    rw [wf.valid, Bool.not_true, Bool.or_false]
    rfl
  rw [Page.compact, Block.compact, guard_eq]
  by_cases idle : (b.page.deletedCount = 0 || !(force || b.page.wantsCompaction b.tuning)) = true
  · rw [if_pos idle, if_pos idle]
  · rw [if_neg idle, if_neg idle]
    cases eq : b.run with
    | nil =>
        have none_deleted : b.page.deletedCount = 0 := by
          rw [page, wf.deletedCount, eq]
          rfl
        simp [none_deleted] at idle
    | cons first rest =>
        obtain ⟨bytes, slid, same, cleared⟩ := wf.exists_slide_page eq
        have here : first.Describable := wf.describable first (by simp [eq])
        have header : Record.headerAt b.page.data 0
            = .ok ⟨first.key.length, first.value.length, first.deleted⟩ := by
          rw [wf.data_page, image, eq, Run.encode_cons]
          exact Record.readHeader_encode_append here _
        have header_size : Record.Header.size
            ⟨first.key.length, first.value.length, first.deleted⟩ = first.size := rfl
        simp only [header, header_size, slid, bind, Except.bind]
        rw [← eq]
        by_cases clean : Run.removable b.run = []
        · simp [clean, same clean, pure, Except.pure]
        · have some_gone : (Run.removable b.run).length ≠ 0 :=
            fun zero => clean (List.eq_nil_of_length_eq_zero zero)
          have not_empty : (Run.removable b.run).isEmpty = false := by simpa using clean
          have parts := Run.size_compact_add_size_removable b.run
          have used : Run.size (Run.compact b.run) = b.used - Run.size (Run.removable b.run) := by
            rw [wf.used]
            omega
          rw [cleared]
          simp only [some_gone, not_empty, if_false, Bool.false_eq_true, pure, Except.pure]
          refine congrArg (fun p => Except.ok (true, p)) (Page.ext ?_ used rfl rfl)
          rfl

theorem WellFormed.expand?_page (wf : b.WellFormed) (l : Ledger) :
    b.page.expand? b.tuning = (b.expand? l).map (·.1.page) := by
  rw [Page.expand?, Block.expand?, wf.length_page, Option.map_map]
  refine congrArg (fun f => Option.map f (b.ladder.above? b.capacity)) (funext fun size => ?_)
  have copied := Run.overwrite_zeros b.run size
  refine Page.ext ?_ rfl rfl rfl
  simp only [Function.comp_apply, page, capacity_moveTo]
  exact wf.data_page ▸ copied

theorem Expands.makesRoom {bytes more : Nat} {holds : Bool} {ended : Block × Ledger}
    (h : Expands bytes b l holds ended) (wf : b.WellFormed) (eq : bytes = b.used + more) :
    Page.MakesRoom b.tuning more b.page holds ended.1.page := by
  subst eq
  generalize goal : b.used + more = bytes at h
  induction h with
  | enough room =>
      refine .enough ?_
      rw [wf.length_page]
      exact goal ▸ room
  | @exhausted b l short last =>
      refine .exhausted ?_ ?_
      · rw [wf.length_page]
        exact goal ▸ short
      · rw [wf.expand?_page l, last]
        rfl
  | @grown b b' l l' _ _ short next rest ih =>
      have grows := grows_of_expand? next
      refine Page.MakesRoom.grown ?_ (by rw [wf.expand?_page l, next]; rfl) ?_
      · rw [wf.length_page]
        exact goal ▸ short
      · rw [← grows.tuning]
        exact ih (grows.wellFormed wf) (grows.used ▸ goal)

theorem WellFormed.growth_eq (wf : b.WellFormed) (new : Record) :
    Page.growth (b.at? new.key) new.size = b.need new - b.used := by
  have parts := wf.need_add_replaced new
  simp only [replaced] at parts
  simp only [Page.growth]
  omega

theorem WellFormed.lacks_iff (wf : b.WellFormed) (new : Record) :
    b.page.Lacks (Page.growth (b.at? new.key) new.size) ↔ b.hasRoom (b.need new) = false := by
  have room := wf.room
  rw [wf.growth_eq, Page.Lacks, wf.length_page, ← Bool.not_eq_true, wf.hasRoom_iff]
  simp only [page]
  omega

/-- The rounds of a put are the loop that edits the page. -/
theorem Rounds.puts {key value : Bytes} {n : Nat} {ended : PutResult × Block × Ledger}
    (h : Rounds (Record.live key value) b l n ended) (wf : b.WellFormed) :
    Page.Puts b.tuning key value b.page (ended.1, ended.2.1.page) := by
  induction h with
  | @stored b l room =>
      have stored := wf.storeAt_page (l := l) (wf.hasRoom_iff.mp room)
      rw [← stored]
      refine .stored (wf.search_page key) (wf.matching_page key) fun lacks => ?_
      rw [(wf.lacks_iff (Record.live key value)).mp lacks] at room
      contradiction
  | @full b l p short stuck =>
      have lacks := (wf.lacks_iff (Record.live key value)).mpr short
      have more_eq := (wf.growth_eq (Record.live key value)).symm
      have room := stuck.makesRoom (wf.compact l true) (congrArg _ more_eq)
      rw [tuning_compact l true] at room
      exact .full (wf.search_page key) (wf.matching_page key) lacks (wf.compact_page l true) room
  | @again b l p n ended short made _ ih =>
      have compacted := wf.compact l true
      have tuning : p.1.tuning = b.tuning := made.grows.tuning.trans (tuning_compact l true)
      have lacks := (wf.lacks_iff (Record.live key value)).mpr short
      have more_eq := (wf.growth_eq (Record.live key value)).symm
      have room := made.makesRoom compacted (congrArg _ more_eq)
      have rest := ih (made.grows.wellFormed compacted)
      rw [tuning_compact l true] at room
      rw [tuning] at rest
      exact .again (wf.search_page key) (wf.matching_page key) lacks (wf.compact_page l true) room
        rest

end

end Block

end OrderedStore
