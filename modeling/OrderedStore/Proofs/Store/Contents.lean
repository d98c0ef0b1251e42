import OrderedStore.Options
import OrderedStore.Proofs.Record.Limits
import OrderedStore.Proofs.Run.Updates

/-! # The reference map

What a store is for is told by a map from keys to values in the order of the keys. A call gets an
answer from it and may change it; blocks, anchors and tombstones do not occur. Only a put has some
freedom, since it may be refused where a ceiling is set.
-/

namespace OrderedStore

/-- The key and the value of a record. -/
def Record.row (r : Record) : Bytes × Bytes := (r.key, r.value)

/-- Whether a key lies in the range from `start` up to `stop`. -/
def inRange (start stop : Option Bytes) (key : Bytes) : Bool :=
  start.all (· ≤ key) && stop.all (key < ·)

/-- Keys with their values, in strictly ascending order. -/
structure Contents where
  rows : List (Bytes × Bytes)
  ascending : Ascending Prod.fst rows

namespace Contents

def empty : Contents := ⟨[], .nil⟩

/-- The value stored under `key`. -/
def get? (m : Contents) (key : Bytes) : Option Bytes :=
  (m.rows.find? (·.1 = key)).map (·.2)

/-- The greatest key at or below `key`, with its value. -/
def floor? (m : Contents) (key : Bytes) : Option (Bytes × Bytes) :=
  (m.rows.filter (·.1 ≤ key)).getLast?

def insert (m : Contents) (key value : Bytes) : Contents where
  rows := Ascending.inserted Prod.fst (key, value) m.rows
  ascending := m.ascending.ascending_inserted (key, value)

/-- The map without the keys that pass a test. -/
def without (m : Contents) (gone : Bytes → Bool) : Contents where
  rows := m.rows.filter (!gone ·.1)
  ascending := m.ascending.filter _

def erase (m : Contents) (key : Bytes) : Contents := m.without (· = key)

/-- The map without the keys from `start` up to `stop`. -/
def eraseRange (m : Contents) (start stop : Option Bytes) : Contents :=
  m.without (inRange start stop)

/-- How many keys there are. -/
def size (m : Contents) : Nat := m.rows.length

/-- How many keys there are from `start` up to `stop`. -/
def rangeSize (m : Contents) (start stop : Option Bytes) : Nat :=
  (m.rows.filter (inRange start stop ·.1)).length

theorem get?_without (m : Contents) (gone : Bytes → Bool) (key : Bytes) :
    (m.without gone).get? key = if gone key then none else m.get? key := by
  have found := Ascending.find?_filter_key Prod.fst m.rows (!gone ·) key
  rw [get?, without, found, get?]
  cases gone key <;> rfl

theorem get?_erase (m : Contents) (key other : Bytes) :
    (m.erase key).get? other = if other = key then none else m.get? other := by
  rw [erase, get?_without]
  simp

theorem erase_of_absent {m : Contents} {key : Bytes} (absent : m.get? key = none) :
    m.erase key = m := by
  rw [get?, Option.map_eq_none_iff, List.find?_eq_none] at absent
  have kept : m.rows.filter (fun row => !decide (row.1 = key)) = m.rows := by
    apply List.filter_eq_self.mpr
    intro row member
    simpa using absent row member
  simp only [erase, without, kept]

theorem get?_eraseRange (m : Contents) (start stop : Option Bytes) (key : Bytes) :
    (m.eraseRange start stop).get? key
      = if inRange start stop key then none else m.get? key := m.get?_without _ key

theorem get?_insert (m : Contents) (key value other : Bytes) :
    (m.insert key value).get? other = if other = key then some value else m.get? other := by
  rw [get?, insert, Ascending.find?_inserted, get?]
  by_cases same : key = other
  · rw [if_pos same, if_pos same.symm]
    rfl
  · rw [if_neg same, if_neg (Ne.symm same)]

section

variable {m : Contents} {records : Run} {key value : Bytes}

theorem get?_of_rows (holds : records.map Record.row = m.rows) (key : Bytes) :
    m.get? key = (records.at? key).map (·.value) := by
  rw [get?, ← holds, List.find?_map, Option.map_map]
  rfl

theorem floor?_of_rows (holds : records.map Record.row = m.rows) (key : Bytes) :
    m.floor? key = (records.filter (·.key ≤ key)).getLast?.map Record.row := by
  rw [floor?, ← holds, List.filter_map, List.getLast?_map]
  rfl

theorem rows_insert (holds : records.map Record.row = m.rows) :
    (Ascending.inserted Record.key (Record.live key value) records).map Record.row
      = (m.insert key value).rows := by
  have below : (records.filter (·.key < key)).map Record.row = m.rows.filter (·.1 < key) := by
    rw [← holds, List.filter_map]
    rfl
  have above : (records.filter (key < ·.key)).map Record.row = m.rows.filter (key < ·.1) := by
    rw [← holds, List.filter_map]
    rfl
  have parts : Ascending.inserted Record.key (Record.live key value) records
      = records.filter (·.key < key) ++ Record.live key value :: records.filter (key < ·.key) := rfl
  rw [parts, List.map_append, List.map_cons, below, above]
  rfl

theorem rows_without (holds : records.map Record.row = m.rows) (gone : Bytes → Bool) :
    (records.filter (!gone ·.key)).map Record.row = (m.without gone).rows := by
  have kept : (records.filter (!gone ·.key)).map Record.row = m.rows.filter (!gone ·.1) := by
    rw [← holds, List.filter_map]
    rfl
  exact kept

theorem rows_erase (holds : records.map Record.row = m.rows) (key : Bytes) :
    (records.filter (·.key ≠ key)).map Record.row = (m.erase key).rows := by
  have kept : records.filter (·.key ≠ key) = records.filter fun r => !decide (r.key = key) :=
    List.filter_congr fun r _ => decide_not
  rw [kept]
  exact rows_without holds (· = key)

end

end Contents

/-- The calls on a store that may change its content or tell it. -/
inductive Call where
  | put (key value : Bytes)
  | delete (key : Bytes)
  | deleteRange (start stop : Option Bytes)
  | compactAll
  | get (key : Bytes)
  | getInto (key buffer : Bytes)
  | contains (key : Bytes)
  | size
  | isEmpty
deriving Repr, DecidableEq

/-- The key that a call names. -/
def Call.key? : Call → Option Bytes
  | put key _ | delete key | get key | getInto key _ | contains key => some key
  | deleteRange .. | compactAll | size | isEmpty => none

/-- What a call that did not fail answers. -/
inductive Answer where
  | flag (holds : Bool)
  | number (n : Nat)
  | value (stored : Option Bytes)
  /-- The length of a value, and the buffer it was to be copied into. -/
  | copied (length : Option Nat) (buffer : Bytes)
deriving Repr, DecidableEq

namespace Contents

/-- A value that fits a buffer is copied to its head; any other leaves it alone. -/
def copied (m : Contents) (key buffer : Bytes) : Answer :=
  match m.get? key with
  | none => .copied none buffer
  | some value =>
    .copied (some value.length)
      (if value.length ≤ buffer.length then value ++ buffer.drop value.length else buffer)

/-- The answers that the map gives to a call, and the map after it. -/
inductive Step (o : Options) (m : Contents) : Call → Except Fault Answer → Contents → Prop where
  | misuse {call : Call} {key : Bytes} : call.key? = some key → ¬Record.KeyFits key →
      Step o m call (.error (.misuse (Record.keyFault key))) m
  | valueTooLong {key value : Bytes} : Record.KeyFits key → Record.maxValue < value.length →
      Step o m (.put key value) (.error (.misuse .valueTooLong)) m
  | put {key value : Bytes} : (Record.live key value).Describable →
      (Record.live key value).size ≤ o.largestBlock →
      Step o m (.put key value) (.ok (.flag true)) (m.insert key value)
  | refused {key value : Bytes} : (Record.live key value).Describable →
      o.largestBlock < (Record.live key value).size ∨ o.memoryCeiling ≠ none →
      Step o m (.put key value) (.ok (.flag false)) m
  | delete {key : Bytes} : Record.KeyFits key →
      Step o m (.delete key) (.ok (.flag (m.get? key).isSome)) (m.erase key)
  | deleteRange (start stop : Option Bytes) :
      Step o m (.deleteRange start stop) (.ok (.number (m.rangeSize start stop)))
        (m.eraseRange start stop)
  /-- The number of blocks that shrank says nothing about the content. -/
  | compactAll (shrank : Nat) : Step o m .compactAll (.ok (.number shrank)) m
  | get {key : Bytes} : Record.KeyFits key → Step o m (.get key) (.ok (.value (m.get? key))) m
  | getInto {key : Bytes} (buffer : Bytes) : Record.KeyFits key →
      Step o m (.getInto key buffer) (.ok (m.copied key buffer)) m
  | contains {key : Bytes} : Record.KeyFits key →
      Step o m (.contains key) (.ok (.flag (m.get? key).isSome)) m
  | size : Step o m .size (.ok (.number m.size)) m
  | isEmpty : Step o m .isEmpty (.ok (.flag (m.size = 0))) m

/-- The answers that the map gives to calls in their order, and the map after them. -/
inductive Runs (o : Options) : Contents → List Call → List (Except Fault Answer) → Contents → Prop
    where
  | nil {m : Contents} : Runs o m [] [] m
  | cons {m m' m'' : Contents} {call : Call} {calls : List Call} {answer : Except Fault Answer}
      {answers : List (Except Fault Answer)} : m.Step o call answer m' →
      Runs o m' calls answers m'' → Runs o m (call :: calls) (answer :: answers) m''

end Contents

end OrderedStore
