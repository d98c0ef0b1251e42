import OrderedStore.Store
import OrderedStore.Proofs.Directory.Segments
import OrderedStore.Proofs.Ledger.Balance

/-! # Stores in good order

The entries of a directory tile the keys: each block holds keys from its anchor up to the next one,
and starts at its anchor unless that is the empty key. Steps on a store exchange a few neighbouring
entries for others that tile the same keys, so the invariant is kept by one splicing lemma.
-/

namespace OrderedStore

/-- The block of an entry holds keys from its anchor up to `next`, the first of them at the anchor
unless that is the empty key. -/
structure Entry.Fits (tuning : Tuning) (e : Entry Published) (next : Option Bytes) : Prop where
  enrolled : e.value.block.Enrolled tuning
  starts : e.anchor = [] ∨ e.value.block.run.head?.map (·.key) = some e.anchor
  above : ∀ r ∈ e.value.block.run, e.anchor ≤ r.key
  below : ∀ r ∈ e.value.block.run, ∀ key ∈ next, r.key < key
  less : ∀ key ∈ next, e.anchor < key

/-- The entries hold the keys from one bound up to another, where no bound means the right edge. -/
inductive Tiles (tuning : Tuning) :
    Option Bytes → List (Entry Published) → Option Bytes → Prop where
  | nil {bound : Option Bytes} : Tiles tuning bound [] bound
  | cons {e : Entry Published} {next : Option Bytes} {rest : List (Entry Published)}
      {stop : Option Bytes} :
      e.Fits tuning next → Tiles tuning next rest stop →
        Tiles tuning (some e.anchor) (e :: rest) stop

/-- The entry with another block. -/
abbrev Entry.withBlock (e : Entry Published) (b : Block) : Entry Published :=
  ⟨e.anchor, ⟨e.value.id, b⟩⟩

/-- The live records of the entries, in their order. -/
def liveOf (entries : List (Entry Published)) : Run :=
  entries.flatMap fun e => Run.live e.value.block.run

def blocksOf (entries : List (Entry Published)) : List Block := entries.map (·.value.block)

@[simp] theorem liveOf_nil : liveOf [] = [] := rfl

@[simp] theorem liveOf_cons (e : Entry Published) (entries : List (Entry Published)) :
    liveOf (e :: entries) = Run.live e.value.block.run ++ liveOf entries := rfl

@[simp] theorem liveOf_append (l m : List (Entry Published)) :
    liveOf (l ++ m) = liveOf l ++ liveOf m := List.flatMap_append

namespace Tiles

variable {tuning : Tuning} {start middle stop : Option Bytes} {l m : List (Entry Published)}
  {e : Entry Published} {first : Bytes}

theorem append (before : Tiles tuning start l middle) (after : Tiles tuning middle m stop) :
    Tiles tuning start (l ++ m) stop := by
  induction before with
  | nil => exact after
  | cons fits _ ih => exact .cons fits (ih after)

theorem exists_of_append (h : Tiles tuning start (l ++ m) stop) :
    ∃ bound, Tiles tuning start l bound ∧ Tiles tuning bound m stop := by
  induction l generalizing start with
  | nil => exact ⟨start, .nil, h⟩
  | cons e l ih =>
      cases h with
      | cons fits rest =>
          obtain ⟨bound, before, after⟩ := ih rest
          exact ⟨bound, .cons fits before, after⟩

theorem start_eq_of_cons (h : Tiles tuning start (e :: l) stop) : start = some e.anchor := by
  cases h
  rfl

theorem start_eq (h : Tiles tuning start l none) : start = l.head?.map (·.anchor) := by
  cases h <;> rfl

theorem le_stop (h : Tiles tuning (some first) l stop) : ∀ key ∈ stop, first ≤ key := by
  generalize bound : some first = start at h
  induction h generalizing first with
  | nil =>
      rintro key rfl
      exact Option.some.inj bound ▸ List.le_refl _
  | @cons e next rest stop fits tail ih =>
      obtain rfl := Option.some.inj bound
      intro key member
      cases next with
      | none =>
          cases tail
          contradiction
      | some next =>
          exact List.le_trans (List.le_of_lt (fits.less next rfl)) (ih rfl key member)

theorem bounds (h : Tiles tuning start l stop) {r : Record} (member : r ∈ liveOf l) :
    (∀ key ∈ start, key ≤ r.key) ∧ ∀ key ∈ stop, r.key < key := by
  induction h with
  | nil => contradiction
  | @cons e next rest stop fits tail ih =>
      rw [liveOf_cons, List.mem_append] at member
      rcases member with member | member
      · have inside := (Run.mem_live.mp member).1
        constructor
        · rintro key ⟨⟩
          exact fits.above r inside
        · intro key stop_eq
          cases next with
          | none =>
              cases tail
              contradiction
          | some next =>
              exact Std.lt_of_lt_of_le (fits.below r inside next rfl) (tail.le_stop key stop_eq)
      · obtain ⟨least, most⟩ := ih member
        refine ⟨?_, most⟩
        rintro key ⟨⟩
        cases next with
        | none =>
            cases tail
            contradiction
        | some next => exact List.le_trans (List.le_of_lt (fits.less next rfl)) (least next rfl)

theorem lt_of_behind {next : Option Bytes} (fits : e.Fits tuning next)
    (tail : Tiles tuning next l stop) {r r' : Record} (inside : r ∈ e.value.block.run)
    (behind : r' ∈ liveOf l) : r.key < r'.key := by
  cases next with
  | none =>
      cases tail
      contradiction
  | some next =>
      exact Std.lt_of_lt_of_le (fits.below r inside next rfl) ((tail.bounds behind).1 next rfl)

theorem ascending (h : Tiles tuning start l stop) : Ascending Record.key (liveOf l) := by
  induction h with
  | nil => exact .nil
  | @cons e next rest stop fits tail ih =>
      refine List.pairwise_append.mpr ⟨fits.enrolled.sound.ascending.filter _, ih, ?_⟩
      intro x left y right
      exact lt_of_behind fits tail (Run.mem_live.mp left).1 right

theorem total_liveCount (h : Tiles tuning start l stop) :
    total Block.liveCount (blocksOf l) = (liveOf l).length := by
  induction h with
  | nil => rfl
  | cons fits _ ih =>
      rw [liveOf_cons, List.length_append, ← ih, ← fits.enrolled.sound.liveCount]
      exact total_cons _ _ _

/-- Entries up to the right edge have one that owns `key`, if they start at or below it. -/
theorem exists_owner (h : Tiles tuning (some first) l none) {key : Bytes} (least : first ≤ key) :
    ∃ low e high, l = low ++ e :: high ∧ e.anchor ≤ key
      ∧ ∀ next ∈ high.head?, key < next.anchor := by
  generalize bound : some first = start at h
  generalize edge : (none : Option Bytes) = stop at h
  induction h generalizing first with
  | nil => exact absurd (bound.trans edge.symm) (Option.some_ne_none _)
  | @cons e next rest stop fits tail ih =>
      obtain rfl := Option.some.inj bound
      subst edge
      cases rest with
      | nil => exact ⟨[], e, [], rfl, least, by simp⟩
      | cons above rest =>
          have next_eq : next = some above.anchor := tail.start_eq
          by_cases owned : key < above.anchor
          · exact ⟨[], e, above :: rest, rfl, least, by simpa using owned⟩
          · obtain ⟨low, owner, high, eq, holds, apart⟩ :=
              ih (List.not_lt.mp owned) next_eq.symm rfl
            exact ⟨e :: low, owner, high, by simp [eq], holds, apart⟩

end Tiles

theorem Options.newBlock_mem_classes {o : Options} (accepted : o.check = .ok ()) :
    o.newBlock ∈ o.ladder.classes := by
  by_cases contained : o.ladder.contains o.newBlock = true
  · simpa [Ladder.contains] using contained
  · by_cases sized : o.largestBlock < leastBlock ∨ mostBlock < o.largestBlock
        ∨ o.largestBlock % 16 ≠ 0
    · rw [Options.check, if_pos sized] at accepted
      contradiction
    · rw [Options.check, if_neg sized] at accepted
      simp [contained, bind, Except.bind, throw, throwThe, MonadExceptOf.throw] at accepted

theorem Options.largestBlock_le {o : Options} (accepted : o.check = .ok ()) :
    o.largestBlock ≤ mostBlock := by
  apply Nat.not_lt.mp
  intro large
  rw [Options.check, if_pos (.inr (.inl large))] at accepted
  contradiction

namespace Store

/-- The live records of a store, in the order of their keys. -/
def liveRecords (s : Store) : Run := liveOf s.directory.toList

theorem liveRecords_eq {s : Store} {entries : List (Entry Published)}
    (eq : s.directory.toList = entries) : s.liveRecords = liveOf entries := congrArg liveOf eq

theorem liveRecords_at {s : Store} {low high : List (Entry Published)} {e : Entry Published}
    (eq : s.directory.toList = low ++ e :: high) :
    s.liveRecords = liveOf low ++ (Run.live e.value.block.run ++ liveOf high) := by
  rw [liveRecords_eq eq, liveOf_append, liveOf_cons]

/-- What every step on a store keeps. -/
structure WellFormed (s : Store) : Prop where
  options : s.options.check = .ok ()
  tiles : Tiles s.options.tuning (some []) s.directory.toList none
  distinct : (s.directory.toList.map (·.value.id)).Nodup
  numbered : ∀ e ∈ s.directory.toList, e.value.id < s.nextId
  balanced : s.ledger.Balanced s.directory.size s.blocks

namespace WellFormed

variable {s s' : Store} {low high : List (Entry Published)} {e : Entry Published}

theorem fits (wf : s.WellFormed) (eq : s.directory.toList = low ++ e :: high) :
    Tiles s.options.tuning (some []) low (some e.anchor)
      ∧ e.Fits s.options.tuning (high.head?.map (·.anchor))
      ∧ Tiles s.options.tuning (high.head?.map (·.anchor)) high none := by
  have tiles := wf.tiles
  rw [eq] at tiles
  obtain ⟨bound, before, rest⟩ := tiles.exists_of_append
  cases rest with
  | @cons _ next _ _ fits after =>
      have next_eq := after.start_eq
      exact ⟨before, next_eq ▸ fits, next_eq ▸ after⟩

theorem enrolled (wf : s.WellFormed) (member : e ∈ s.directory.toList) :
    e.value.block.Enrolled s.options.tuning := by
  obtain ⟨low, high, eq⟩ := List.append_of_mem member
  obtain ⟨_, fits, _⟩ := wf.fits eq
  exact fits.enrolled

theorem enrolled_of_mem_blocks (wf : s.WellFormed) {b : Block} (member : b ∈ s.blocks) :
    b.Enrolled s.options.tuning := by
  obtain ⟨e, inside, rfl⟩ := List.mem_map.mp member
  exact wf.enrolled inside

theorem exists_owner (wf : s.WellFormed) (key : Bytes) :
    ∃ low e high, s.directory.Owns key low e high := by
  obtain ⟨low, e, high, eq, least, below⟩ := wf.tiles.exists_owner (List.nil_le key)
  exact ⟨low, e, high, eq, least, below⟩

theorem ascending (wf : s.WellFormed) : Ascending Record.key s.liveRecords := wf.tiles.ascending

theorem apart (wf : s.WellFormed) {key : Bytes} (owns : s.directory.Owns key low e high) :
    (∀ r ∈ liveOf low, r.key < key) ∧ ∀ r ∈ liveOf high, key < r.key := by
  obtain ⟨before, _, behind⟩ := wf.fits owns.eq
  constructor
  · intro r member
    exact Std.lt_of_lt_of_le ((before.bounds member).2 e.anchor rfl) owns.least
  · intro r member
    have below := owns.below
    cases above : high.head? with
    | none =>
        rw [List.head?_eq_none_iff.mp above] at member
        contradiction
    | some next =>
        rw [above] at below behind
        exact Std.lt_of_lt_of_le (below next rfl) ((behind.bounds member).1 next.anchor rfl)

/-- The owner of a key finds what the store holds there. -/
theorem liveAt?_eq (wf : s.WellFormed) {key : Bytes} (owns : s.directory.Owns key low e high) :
    e.value.block.liveAt? key = s.liveRecords.at? key := by
  obtain ⟨_, fits, _⟩ := wf.fits owns.eq
  obtain ⟨low_below, high_above⟩ := wf.apart owns
  have not_low : Run.at? (liveOf low) key = none :=
    Run.at?_eq_none.mpr fun r member => Std.ne_of_lt (low_below r member)
  have not_high : Run.at? (liveOf high) key = none :=
    Run.at?_eq_none.mpr fun r member => (Std.ne_of_lt (high_above r member)).symm
  rw [fits.enrolled.sound.liveAt?_eq, liveRecords_at owns.eq, Run.at?_append, Run.at?_append,
    not_low, not_high, Option.none_or, Option.or_none]

theorem balanced_at (wf : s.WellFormed) (eq : s.directory.toList = low ++ e :: high) :
    s.ledger.Balanced s.directory.size (e.value.block :: blocksOf (low ++ high)) := by
  have balanced := wf.balanced
  rw [blocks, eq, List.map_append, List.map_cons, Ledger.Balanced.middle, ← List.map_append]
    at balanced
  exact balanced

theorem nodup_exchanged {seg seg' : List (Entry Published)} {bound : Nat}
    (old : ((low ++ (seg ++ high)).map (·.value.id)).Nodup)
    (known : ∀ e ∈ low ++ (seg ++ high), e.value.id < bound)
    (distinct : (seg'.map (·.value.id)).Nodup)
    (numbers : ∀ e' ∈ seg', (∃ e ∈ seg, e.value.id = e'.value.id) ∨ bound ≤ e'.value.id) :
    ((low ++ (seg' ++ high)).map (·.value.id)).Nodup := by
  simp only [List.map_append, List.nodup_append, List.mem_append, List.mem_map] at old ⊢
  obtain ⟨low_distinct, ⟨_, high_distinct, seg_high⟩, low_rest⟩ := old
  refine ⟨low_distinct, ⟨distinct, high_distinct, ?_⟩, ?_⟩
  · rintro i ⟨e', inside, rfl⟩ j ⟨x, right, rfl⟩ same
    rcases numbers e' inside with ⟨e, member, number⟩ | fresh
    · exact seg_high _ ⟨e, member, number⟩ _ ⟨x, right, rfl⟩ same
    · have below := known x (by simp [right])
      omega
  · rintro i ⟨x, left, rfl⟩ j (⟨e', inside, rfl⟩ | ⟨y, right, rfl⟩) same
    · rcases numbers e' inside with ⟨e, member, number⟩ | fresh
      · exact low_rest _ ⟨x, left, rfl⟩ _ (.inl ⟨e, member, number⟩) same
      · have below := known x (by simp [left])
        omega
    · exact low_rest _ ⟨x, left, rfl⟩ _ (.inr ⟨y, right, rfl⟩) same

/-- Entries may be exchanged for others that tile the same keys, whose blocks are on the ledger and
have the same numbers or new ones. -/
theorem splice (wf : s.WellFormed) (seg seg' : List (Entry Published))
    (eq : s.directory.toList = low ++ (seg ++ high))
    (eq' : s'.directory.toList = low ++ (seg' ++ high)) (options : s'.options = s.options)
    {start next : Option Bytes} (before : Tiles s.options.tuning (some []) low start)
    (tiles : Tiles s.options.tuning start seg' next)
    (after : Tiles s.options.tuning next high none)
    (distinct : (seg'.map (·.value.id)).Nodup)
    (numbers : ∀ e' ∈ seg', (∃ e ∈ seg, e.value.id = e'.value.id)
      ∨ s.nextId ≤ e'.value.id ∧ e'.value.id < s'.nextId)
    (grows : s.nextId ≤ s'.nextId)
    (balanced : s'.ledger.Balanced s'.directory.size (blocksOf (seg' ++ (low ++ high)))) :
    s'.WellFormed := by
  have old_distinct := wf.distinct
  have old_numbered := wf.numbered
  rw [eq] at old_distinct old_numbered
  refine
    { options := options ▸ wf.options
      tiles := ?_
      distinct := ?_
      numbered := ?_
      balanced := ?_ }
  · rw [eq', options]
    exact before.append (tiles.append after)
  · rw [eq']
    exact nodup_exchanged old_distinct old_numbered distinct fun e' inside =>
      (numbers e' inside).imp_right And.left
  · intro x member
    rw [eq'] at member
    rcases List.mem_append.mp member with left | member
    · exact Nat.lt_of_lt_of_le (old_numbered x (by simp [left])) grows
    · rcases List.mem_append.mp member with inside | right
      · rcases numbers x inside with ⟨e, member, number⟩ | ⟨_, fresh⟩
        · exact number ▸ Nat.lt_of_lt_of_le (old_numbered e (by simp [member])) grows
        · exact fresh
      · exact Nat.lt_of_lt_of_le (old_numbered x (by simp [right])) grows
  · refine balanced.perm ?_
    rw [blocks, eq', blocksOf]
    refine List.Perm.map _ ?_
    rw [← List.append_assoc, ← List.append_assoc]
    exact List.Perm.append_right high List.perm_append_comm

/-- An entry may become two, of which one has its number and the other a new one. -/
theorem divide (wf : s.WellFormed) (eq : s.directory.toList = low ++ e :: high)
    {left right : Entry Published} (eq' : s'.directory.toList = low ++ left :: right :: high)
    (options : s'.options = s.options) (grows : s'.nextId = s.nextId + 1)
    (anchor : left.anchor = e.anchor) (fits_left : left.Fits s.options.tuning (some right.anchor))
    (fits_right : right.Fits s.options.tuning (high.head?.map (·.anchor)))
    (numbers : left.value.id = e.value.id ∧ right.value.id = s.nextId
      ∨ left.value.id = s.nextId ∧ right.value.id = e.value.id)
    (balanced : s'.ledger.Balanced (s.directory.size + 1)
      (left.value.block :: right.value.block :: blocksOf (low ++ high))) : s'.WellFormed := by
  have known := wf.numbered e (eq ▸ List.mem_append_right _ List.mem_cons_self)
  have sizes : s'.directory.size = s.directory.size + 1 := by
    rw [← SearchTree.length_toList, ← SearchTree.length_toList, eq', eq]
    simp
    omega
  obtain ⟨before, _, behind⟩ := wf.fits eq
  have tiles : Tiles s.options.tuning (some e.anchor) [left, right] (high.head?.map (·.anchor)) :=
    anchor ▸ .cons fits_left (.cons fits_right .nil)
  refine wf.splice [e] [left, right] eq eq' options before tiles behind ?_ ?_
    (grows ▸ Nat.le_succ _) (sizes ▸ balanced)
  · simp only [List.map_cons, List.map_nil, List.nodup_cons, List.mem_singleton]
    constructor
    · intro same
      omega
    · simp
  · have inside := List.mem_singleton_self e
    intro e' member
    rcases List.mem_cons.mp member with rfl | member
    · rcases numbers with ⟨old, _⟩ | ⟨new, _⟩
      · exact .inl ⟨e, inside, old.symm⟩
      · exact .inr ⟨Nat.le_of_eq new.symm, by omega⟩
    · obtain rfl := List.mem_singleton.mp member
      rcases numbers with ⟨_, new⟩ | ⟨_, old⟩
      · exact .inr ⟨Nat.le_of_eq new.symm, by omega⟩
      · exact .inl ⟨e, inside, old.symm⟩

/-- Options that describe a store open one. It is well-formed and holds nothing. -/
theorem of_check {o : Options} (accepted : o.check = .ok ()) :
    ∃ s, create o = .ok s ∧ s.WellFormed ∧ s.options = o ∧ s.liveRecords = [] := by
  let root := Block.create ((Arena.create o.tracked).allocate o.newBlock).1 o.tuning true
  have sound : root.Sound := Block.sound_create true (Options.newBlock_mem_classes accepted)
  have enrolled : root.Enrolled o.tuning := ⟨sound, rfl, rfl, rfl⟩
  refine ⟨_, by simp only [create, accepted, bind, Except.bind]; rfl, ?_, rfl, rfl⟩
  refine
    { options := accepted
      tiles := ?_
      distinct := ?_
      numbered := ?_
      balanced := ?_ }
  · have fits : Entry.Fits o.tuning ⟨[], ⟨0, root⟩⟩ none :=
      { enrolled := enrolled
        starts := .inl rfl
        above := fun r _ => List.nil_le r.key
        below := by simp
        less := by simp }
    exact .cons fits .nil
  · simp
  · simp
  · exact ⟨by simp [blocks, Block.capacity, Block.create, Arena.create, Arena.allocate],
      by simp [blocks, Block.create, Counters.addBlocks],
      by simp [blocks, Block.liveCount, Block.create, Counters.addBlocks], rfl⟩

end WellFormed

end Store

end OrderedStore
