import OrderedStore.Block.Reshape
import OrderedStore.Change
import OrderedStore.Store

/-! # Writers

A writer holds the blocks that a change may touch, as spans: ranges of keys, each with the block
that owns it. Splitting a block splits its span, so that the spans cover the same keys as before. A
step that fails keeps what was done before it failed.
-/

namespace OrderedStore

/-- The keys from an anchor up to the next, held for writing. -/
structure Span where
  anchor : Bytes
  /-- The next anchor, none at the right edge. -/
  upper : Option Bytes
  /-- The number of the block that owns the keys. -/
  owner : Nat
deriving Repr, DecidableEq

namespace Span

def covers (s : Span) (key : Bytes) : Bool := s.anchor ≤ key && s.upper.all (key < ·)

/-- Spans in the order of their anchors with `new` in its place. -/
def insert (new : Span) : List Span → List Span
  | [] => [new]
  | s :: rest => if s.anchor < new.anchor then s :: insert new rest else new :: s :: rest

end Span

structure Writer where
  store : Store
  spans : List Span

namespace Writer

def spanAt (s : Store) (key : Bytes) : Except Fault Span :=
  match s.directory.around key with
  | (none, _) => .error (.corruption .keyWithoutOwner)
  | (some e, next) => .ok ⟨e.anchor, next.map (·.anchor), e.value.id⟩

def hold (s : Store) (key : Bytes) : Except Fault Writer :=
  (spanAt s key).map fun span => ⟨s, [span]⟩

def covers (w : Writer) (key : Bytes) : Bool := w.spans.any (·.covers key)

def extend (w : Writer) : List Bytes → Except Fault Writer
  | [] => .ok w
  | key :: rest =>
    if w.covers key then w.extend rest
    else
      match spanAt w.store key with
      | .error e => .error e
      | .ok span => extend { w with spans := Span.insert span w.spans } rest

def target (w : Writer) (key : Bytes) : Except Fault (Span × Block) :=
  match w.spans.find? (·.covers key) with
  | none => .error (.corruption .writeOutsideSpans)
  | some span =>
    match (w.store.directory.published? span.anchor).filter (·.id = span.owner) with
    | none => .error (.corruption .writeOutsideSpans)
    | some p => .ok (span, p.block)

def replace (w : Writer) (span : Span) (b : Block) (l : Ledger) : Writer :=
  { w with store := { w.store with
      directory := w.store.directory.publish span.anchor ⟨span.owner, b⟩
      ledger := l } }

def divided (w : Writer) (span left right : Span) : List Span :=
  w.spans.flatMap fun s => if s = span then [left, right] else [s]

/-- Gives the lower keys of a span to a new block; the span's own block moves up to `middle`. -/
def addBelow (w : Writer) (span : Span) (middle : Bytes) (own new : Block) : Writer :=
  let id := w.store.nextId
  let moved := w.store.directory.publish middle ⟨span.owner, own⟩
  { store := { w.store with
      directory := moved.publish span.anchor ⟨id, new⟩
      ledger := w.store.ledger.count (·.addBlocks 1)
      nextId := id + 1 }
    spans := w.divided span { span with upper := some middle, owner := id }
      { span with anchor := middle } }

/-- Gives the keys of a span from `middle` on to a new block. -/
def addAbove (w : Writer) (span : Span) (middle : Bytes) (new : Block) : Writer :=
  let id := w.store.nextId
  { store := { w.store with
      directory := w.store.directory.publish middle ⟨id, new⟩
      ledger := w.store.ledger.count (·.addBlocks 1)
      nextId := id + 1 }
    spans := w.divided span { span with upper := some middle }
      { span with anchor := middle, owner := id } }

def freshBlock (w : Writer) : Block × Writer :=
  let (lease, arena) := w.store.ledger.arena.allocate w.store.options.newBlock
  (.create lease w.store.options.tuning true,
    { w with store := { w.store with ledger := { w.store.ledger with arena := arena } } })

/-- Makes room for `key` in a span whose block is full. The lower half of the block becomes a block
of its own; a block that cannot be split stays, and `key` gets a new block beside it. -/
def split (w : Writer) (span : Span) (b : Block) (l : Ledger) (key : Bytes) :
    Except Fault Unit × Writer :=
  let r := b.split l false
  let w := w.replace span r.block r.ledger
  match r.lower, r.block.firstKey? with
  | .error e, _ => (.error e, w)
  | .ok (some _), none => (.error (.corruption .splitLeftNothing), w)
  | .ok (some lower), some first => (.ok (), w.addBelow span first r.block lower)
  | .ok none, none => (.error (.corruption .fullWithoutRecords), w)
  | .ok none, some first =>
    let (new, w) := w.freshBlock
    (.ok (), if first < key then w.addAbove span key new else w.addBelow span first r.block new)

/-- Stores `value` under `key` in the block of a span, splitting at most `splits` times. -/
def putWithin (key value : Bytes) :
    Nat → Writer → Span → Block → Except Fault Unit × Writer
  | splits, w, span, b =>
    match b.put w.store.ledger key value with
    | .error e => (.error (.misuse e), w)
    | .ok (.done, b, l) => (.ok (), w.replace span b l)
    | .ok (.needsSplit, b, l) =>
      match splits with
      | 0 => (.error (.corruption .fullWithoutRecords), w.replace span b l)
      | splits + 1 =>
        match w.split span b l key with
        | (.error e, w) => (.error e, w)
        | (.ok (), w) =>
          match w.target key with
          | .error e => (.error e, w)
          | .ok (span, b) => putWithin key value splits w span b

/-- Stores `value` under `key`. Every split leaves fewer records in the block that owns the key, so
their number bounds the splits. -/
def put (w : Writer) (key value : Bytes) : Except Fault Unit × Writer :=
  match w.target key with
  | .error e => (.error e, w)
  | .ok (span, b) => putWithin key value b.recordCount w span b

/-- Deletes what is stored under `key`, and tells whether there was anything. The block then
compacts if it has too many tombstones. -/
def delete (w : Writer) (key : Bytes) : Except Fault Bool × Writer :=
  match w.target key with
  | .error e => (.error e, w)
  | .ok (span, b) =>
    match b.delete w.store.ledger key with
    | .error e => (.error (.misuse e), w)
    | .ok (false, b, l) => (.ok false, w.replace span b l)
    | .ok (true, b, l) =>
      let (_, b, l) := b.compact l false
      (.ok true, w.replace span b l)

/-- Makes changes in their order, and tells whether one of them deleted something. -/
def apply (w : Writer) : List Change → Except Fault Bool × Writer
  | [] => (.ok false, w)
  | .put key value :: rest =>
    match w.put key value with
    | (.error e, w) => (.error e, w)
    | (.ok (), w) => w.apply rest
  | .delete key :: rest =>
    match w.delete key with
    | (.error e, w) => (.error e, w)
    | (.ok gone, w) =>
      let (result, w) := w.apply rest
      (result.map (gone || ·), w)

/-- Whether a block takes less than half of the share that two merged blocks may take. -/
def isUnderfilled (o : Options) (b : Block) : Bool :=
  Float.ofNat b.used < o.mergeRatio * Float.ofNat o.largestBlock / 2

/-- The anchors of the held blocks that are worth merging. -/
def underfilled (w : Writer) : List Bytes :=
  (w.spans.map (·.anchor)).filter fun anchor =>
    (w.store.directory.published? anchor).any fun p => isUnderfilled w.store.options p.block

end Writer

end OrderedStore
