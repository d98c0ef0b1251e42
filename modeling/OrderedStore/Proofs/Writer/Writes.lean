import OrderedStore.Proofs.Writer.Entries
import OrderedStore.Proofs.Writer.Spans

/-! # What writers do to the live records

A writer that is ready carries out every write on a key that it covers: it cannot fail, and the live
records change as the write says. Each step is one exchange of neighbouring entries.
-/

namespace OrderedStore

namespace Writer

/-- A well-formed store and spans that stand in it. -/
structure Ready (w : Writer) : Prop where
  wellFormed : w.store.WellFormed
  marked : w.Marked

/-- What a step of a writer leaves: a ready writer for the same keys, whose store holds `live`. -/
structure Follows (w w' : Writer) (live : Run) : Prop where
  ready : w'.Ready
  covers : ∀ key, w.covers key = true → w'.covers key = true
  options : w'.store.options = w.store.options
  liveRecords : w'.store.liveRecords = live

theorem Follows.trans {w w' w'' : Writer} {live live' : Run} (first : w.Follows w' live)
    (second : w'.Follows w'' live') : w.Follows w'' live' where
  ready := second.ready
  covers key covered := second.covers key (first.covers key covered)
  options := second.options.trans first.options
  liveRecords := second.liveRecords

section

variable {w : Writer} {low high : List (Entry Published)} {e : Entry Published} {key value : Bytes}

theorem Ready.follows_replace (ready : w.Ready)
    (eq : w.store.directory.toList = low ++ e :: high) {b : Block} {l : Ledger}
    (fits : (e.withBlock b).Fits w.store.options.tuning (high.head?.map (·.anchor)))
    (balanced : l.Balanced w.store.directory.size (b :: blocksOf (low ++ high))) :
    w.Follows (w.replace (.ofEntry e high) b l)
      (liveOf low ++ (Run.live b.run ++ liveOf high)) := by
  have after := toList_replace eq b l
  have sizes : (w.replace (.ofEntry e high) b l).store.directory.size = w.store.directory.size := by
    rw [← SearchTree.length_toList, ← SearchTree.length_toList, after, eq]
    simp
  obtain ⟨before, _, behind⟩ := ready.wellFormed.fits eq
  refine ⟨⟨?_, marked_replace ready.marked eq b l⟩, fun _ covered => covered, rfl, ?_⟩
  · refine ready.wellFormed.splice [e] [e.withBlock b] eq after rfl before
      (.cons fits .nil) behind (by simp) ?_ (Nat.le_refl _) ?_
    · intro e' member
      exact .inl ⟨e, List.mem_singleton_self e, by rw [List.mem_singleton.mp member]⟩
    · rw [sizes]
      exact balanced
  · exact Store.liveRecords_at after

theorem Ready.follows_addBelow (ready : w.Ready)
    (eq : w.store.directory.toList = low ++ e :: high) {lower upper : Block} {l : Ledger}
    {first : Bytes}
    (left : (⟨e.anchor, ⟨w.store.nextId, lower⟩⟩ : Entry Published).Fits w.store.options.tuning
      (some first))
    (right : (⟨first, ⟨e.value.id, upper⟩⟩ : Entry Published).Fits w.store.options.tuning
      (high.head?.map (·.anchor)))
    (live : Run.live e.value.block.run = Run.live lower.run ++ Run.live upper.run)
    (balanced : l.Balanced w.store.directory.size (lower :: upper :: blocksOf (low ++ high))) :
    w.Follows ((w.replace (.ofEntry e high) upper l).addBelow (.ofEntry e high) first upper lower)
        w.store.liveRecords
      ∧ ((w.replace (.ofEntry e high) upper l).addBelow (.ofEntry e high) first upper
          lower).store.directory.toList
        = low ++ ⟨e.anchor, ⟨w.store.nextId, lower⟩⟩ :: ⟨first, ⟨e.value.id, upper⟩⟩ :: high := by
  let moved := w.replace (.ofEntry e high) upper l
  have replaced : moved.store.directory.toList = low ++ e.withBlock upper :: high :=
    toList_replace eq upper l
  have above : e.anchor < first := left.less first rfl
  have below : ∀ next ∈ high.head?, first < next.anchor := fun next member =>
    right.less next.anchor (Option.mem_map_of_mem _ member)
  have after : (moved.addBelow (.ofEntry e high) first upper lower).store.directory.toList
      = low ++ ⟨e.anchor, ⟨w.store.nextId, lower⟩⟩ :: ⟨first, ⟨e.value.id, upper⟩⟩ :: high :=
    toList_addBelow replaced above below upper lower
  have marked : (moved.addBelow (.ofEntry e high) first upper lower).Marked :=
    marked_addBelow (marked_replace ready.marked eq upper l) replaced above below upper lower
  refine ⟨⟨⟨?_, marked⟩, fun _ covered => covers_addBelow upper lower covered, rfl, ?_⟩, after⟩
  · exact ready.wellFormed.divide eq after rfl rfl rfl left right (.inr ⟨rfl, rfl⟩)
      balanced.publish
  · rw [Store.liveRecords_at after, Store.liveRecords_at eq, liveOf_cons, live, List.append_assoc]

/-- A block published above an entry has its content before the store is well-formed again. -/
theorem Ready.follows_addAbove (ready : w.Ready)
    (eq : w.store.directory.toList = low ++ e :: high) {p b : Block} (fresh : Block) (l : Ledger)
    {l' : Ledger} (left : (e.withBlock p).Fits w.store.options.tuning (some key))
    (right : (⟨key, ⟨w.store.nextId, b⟩⟩ : Entry Published).Fits w.store.options.tuning
      (high.head?.map (·.anchor)))
    (balanced : l'.Balanced (w.store.directory.size + 1) (b :: p :: blocksOf (low ++ high))) :
    w.Follows
      (((w.replace (.ofEntry e high) p l).addAbove (.ofEntry e high) key fresh).replace
        (.ofEntry ⟨key, ⟨w.store.nextId, fresh⟩⟩ high) b l')
      (liveOf low ++ (Run.live p.run ++ (Run.live b.run ++ liveOf high))) := by
  let moved := w.replace (.ofEntry e high) p l
  let opened := moved.addAbove (.ofEntry e high) key fresh
  let filled := opened.replace (.ofEntry ⟨key, ⟨w.store.nextId, fresh⟩⟩ high) b l'
  have replaced : moved.store.directory.toList = low ++ e.withBlock p :: high :=
    toList_replace eq p l
  have above : e.anchor < key := left.less key rfl
  have below : ∀ next ∈ high.head?, key < next.anchor := fun next member =>
    right.less next.anchor (Option.mem_map_of_mem _ member)
  have published : opened.store.directory.toList
      = (low ++ [e.withBlock p]) ++ ⟨key, ⟨w.store.nextId, fresh⟩⟩ :: high := by
    rw [List.append_assoc]
    exact toList_addAbove replaced above below fresh
  have after : filled.store.directory.toList
      = low ++ e.withBlock p :: ⟨key, ⟨w.store.nextId, b⟩⟩ :: high := by
    refine (toList_replace published b l').trans ?_
    rw [List.append_assoc]
    rfl
  have marked : filled.Marked :=
    marked_replace (marked_addAbove (marked_replace ready.marked eq p l) replaced above below fresh)
      published b l'
  refine ⟨⟨?_, marked⟩, fun _ covered => covers_addAbove fresh covered, rfl, ?_⟩
  · exact ready.wellFormed.divide eq after rfl rfl rfl left right (.inl ⟨rfl, rfl⟩)
      (balanced.perm (List.Perm.swap _ _ _))
  · rw [Store.liveRecords_at after, liveOf_cons]

/-- Storing a record in the block that owns its key stores it among the live records. -/
theorem Ready.follows_stored (ready : w.Ready) (owns : w.store.directory.Owns key low e high)
    (describable : (Record.live key value).Describable) {p : Block} {l : Ledger}
    (enrolled : p.Enrolled w.store.options.tuning) (prunes : Run.Prunes e.value.block.run p.run)
    (balanced : l.Balanced w.store.directory.size (p :: blocksOf (low ++ high)))
    (room : p.usedWith (p.at? key) (Record.live key value).size ≤ p.capacity) :
    w.Follows
      (w.replace (.ofEntry e high) (p.stored l (Record.live key value)).1
        (p.stored l (Record.live key value)).2)
      (Ascending.inserted Record.key (Record.live key value) w.store.liveRecords) := by
  obtain ⟨_, fits, _⟩ := ready.wellFormed.fits owns.eq
  obtain ⟨low_below, high_above⟩ := ready.wellFormed.apart owns
  have entry : (e.withBlock (p.stored l (Record.live key value)).1).Fits w.store.options.tuning
      (high.head?.map (·.anchor)) :=
    (fits.pruned prunes enrolled).stored rfl describable owns.least owns.inside room
  have follows := ready.follows_replace owns.eq entry (Block.balanced_stored enrolled balanced)
  have live : liveOf low ++ (Run.live (p.stored l (Record.live key value)).1.run ++ liveOf high)
      = Ascending.inserted Record.key (Record.live key value) w.store.liveRecords := by
    rw [enrolled.sound.run_stored, Run.live_inserted rfl, prunes.live,
      Store.liveRecords_at owns.eq, Ascending.inserted_between low_below high_above]
  exact live ▸ follows

theorem enrolled_fresh {l : Ledger} (wf : w.store.WellFormed) :
    (Block.create (l.arena.allocate w.store.options.newBlock).1 w.store.options.tuning
      true).Enrolled w.store.options.tuning :=
  ⟨Block.sound_create true (Options.newBlock_mem_classes wf.options), rfl, rfl, rfl⟩

theorem balanced_fresh {l : Ledger} {n : Nat} {blocks : List Block}
    (balanced : l.Balanced n blocks) (tuning : Tuning) (size : Nat) :
    ({ l with arena := (l.arena.allocate size).2 } : Ledger).Balanced n
      (Block.create (l.arena.allocate size).1 tuning true :: blocks) where
  allocated := by
    have allocated := balanced.allocated
    rw [total_cons]
    simp only [Arena.allocate, Block.capacity, Block.create]
    omega
  dataBytes := by
    rw [total_cons]
    simpa [Block.create] using balanced.dataBytes
  liveRecords := by
    rw [total_cons]
    simpa [Block.create, Block.liveCount] using balanced.liveRecords
  published := balanced.published

end

end Writer

end OrderedStore
