import Mathlib.Data.List.Forall2
import OrderedStore.Proofs.Block.Compacted
import OrderedStore.Proofs.Store.Audits
import OrderedStore.Proofs.Store.Reachable

/-! # Compacting a whole store

Every block is compacted in its place, so that anchors, numbers and live records stay where they
are. Told step by step, a walk goes from a block to the one that is responsible for the next anchor,
as the directory names both after the block was compacted. It meets every block once. Afterwards
only a first record can be a tombstone, and a further walk finds nothing to do.
-/

namespace OrderedStore

/-- The bytes of a run in which only the first record can be a tombstone. -/
theorem Run.size_eq_of_live_behind {run : Run} (kept : ∀ r ∈ run.tail, r.deleted = false) :
    size run = liveSize run + size (run.head?.toList.filter (·.deleted)) := by
  cases run with
  | nil => rfl
  | cons first rest =>
      have live : rest.filter (!·.deleted) = rest := by simpa using kept
      cases deleted : first.deleted <;> simp [liveSize, deleted, live, size, Nat.add_comm]

theorem Run.tombstones_le_one {run : Run} (kept : ∀ r ∈ run.tail, r.deleted = false) :
    tombstones run ≤ 1 := by
  cases run with
  | nil => exact Nat.zero_le 1
  | cons first rest =>
      have none_gone : rest.countP (·.deleted) = 0 := by simpa using kept
      rw [tombstones, List.countP_cons, none_gone]
      split <;> omega

/-- `e'` is the entry with its block compacted. -/
structure Entry.Compacts (e e' : Entry Published) : Prop where
  anchor : e'.anchor = e.anchor
  id : e'.value.id = e.value.id
  block : ∃ shrank, e.value.block.Compacts shrank e'.value.block

namespace Store

/-- Compacts the block of an entry in its place, and tells whether it shrank. -/
def compactAt (s : Store) (e : Entry Published) : Bool × Store :=
  let (shrank, b, l) := e.value.block.compact s.ledger true
  (shrank, { s with directory := s.directory.publish e.anchor ⟨e.value.id, b⟩, ledger := l })

/-- The entry that a walk goes on to from an anchor: the one responsible for the next. -/
def onward? (s : Store) (anchor : Bytes) : Option (Entry Published) :=
  (s.directory.higher? anchor).bind fun next => s.directory.floor? next.anchor

/-- A walk that compacts one block after the other, from an entry on: the anchors of the blocks that
it visits, the number of those that shrank, and the store that it leaves. -/
inductive Sweeps : Store → Option (Entry Published) → List Bytes → Nat → Store → Prop where
  | ends {s : Store} : Sweeps s none [] 0 s
  | onward {s s' t : Store} {e : Entry Published} {shrank : Bool} {visited : List Bytes} {n : Nat} :
      s.compactAt e = (shrank, s') → Sweeps s' (s'.onward? e.anchor) visited n t →
      Sweeps s (some e) (e.anchor :: visited) (if shrank then n + 1 else n) t

/-- What compacting everything makes of a store: the number it answers and the store it leaves. -/
structure CompactedAll (s : Store) (shrank : Nat) (s' : Store) : Prop where
  blocks : List.Forall₂ Entry.Compacts s.directory.toList s'.directory.toList
  anchors : s'.directory.toList.map (·.anchor) = s.directory.toList.map (·.anchor)
  blockCount : s'.blockCount = s.blockCount
  contents : s'.liveRecords = s.liveRecords
  reads : ∀ key, s'.get key = s.get key
  tombstones : ∀ b ∈ s'.blocks, b.deletedCount ≤ 1 ∧ ∀ r ∈ b.run.tail, r.deleted = false
  /-- Bytes that are used and not live are those of first records that are tombstones. -/
  audited : ∃ totals, s'.audit = .ok totals ∧ totals.blocks = s'.blockCount
    ∧ totals.tombstones ≤ totals.blocks
    ∧ totals.usedBytes = totals.liveBytes
      + total (fun b => Run.size (b.run.head?.toList.filter (·.deleted))) s'.blocks
  counted : shrank = s.blocks.countP fun b => b.run.tail.any (·.deleted)
  again : s'.compactAll = (0, s')
  /-- The walk from the first block on ends, in this one way, and leaves this store. -/
  walked : ∃ t, (∀ visited n t', s.Sweeps s.directory.first? visited n t'
      ↔ visited = s.directory.toList.map (·.anchor) ∧ n = shrank ∧ t' = t)
    ∧ t.directory.toList = s'.directory.toList
    ∧ t.ledger = s'.ledger ∧ t.options = s'.options ∧ t.nextId = s'.nextId

section

variable {s : Store} {low high : List (Entry Published)} {e : Entry Published}

theorem Sweeps.unique {cursor : Option (Entry Published)} {visited visited' : List Bytes}
    {n n' : Nat} {t t' : Store} (sweeps : s.Sweeps cursor visited n t)
    (sweeps' : s.Sweeps cursor visited' n' t') : visited' = visited ∧ n' = n ∧ t' = t := by
  induction sweeps generalizing visited' n' t' with
  | ends =>
      cases sweeps'
      exact ⟨rfl, rfl, rfl⟩
  | onward compacted _ ih =>
      cases sweeps' with
      | onward compacted' later =>
          obtain ⟨rfl, rfl⟩ := Prod.mk.inj (compacted.symm.trans compacted')
          obtain ⟨rfl, rfl, rfl⟩ := ih later
          exact ⟨rfl, rfl, rfl⟩

theorem onward?_eq (eq : s.directory.toList = low ++ e :: high) :
    s.onward? e.anchor = high.head? := by
  have higher : s.directory.higher? e.anchor = high.head? := by
    rw [Directory.higher?, (Directory.owns_anchor eq).around_eq]
  rw [onward?, higher]
  cases high with
  | nil => rfl
  | cons next high =>
      have split : s.directory.toList = (low ++ [e]) ++ next :: high := by simp [eq]
      exact (Directory.owns_anchor split).floor?_eq

/-- A walk does to the entries that are left what is done to a list of them, in their order. -/
theorem exists_sweeps {done rest : List (Entry Published)}
    (eq : s.directory.toList = done ++ rest) (count : Nat) :
    ∃ n t, s.Sweeps rest.head? (rest.map (·.anchor)) n t
      ∧ t.directory.toList
        = done ++ (Tree.mapMembers WellFormed.compactEntry (count, s.ledger) rest).1
      ∧ (Tree.mapMembers WellFormed.compactEntry (count, s.ledger) rest).2 = (count + n, t.ledger)
      ∧ t.options = s.options ∧ t.nextId = s.nextId := by
  -- the entries that were visited have moved over to `done`, compacted
  induction rest generalizing s done count with
  | nil => exact ⟨0, s, .ends, eq, rfl, rfl, rfl⟩
  | cons e rest ih =>
      obtain ⟨shrank, s', compacted⟩ : ∃ shrank s', s.compactAt e = (shrank, s') := ⟨_, _, rfl⟩
      have here : (WellFormed.compactEntry (count, s.ledger) e).2
          = (if shrank then count + 1 else count, s'.ledger) := by
        cases compacted
        rfl
      have after : s'.directory.toList
          = (done ++ [(WellFormed.compactEntry (count, s.ledger) e).1]) ++ rest := by
        cases compacted
        rw [List.append_assoc]
        exact Directory.toList_publish_same eq _
      have same : s'.options = s.options ∧ s'.nextId = s.nextId := by
        cases compacted
        exact ⟨rfl, rfl⟩
      obtain ⟨n, t, sweeps, left, counted, options, numbers⟩ :=
        ih after (if shrank then count + 1 else count)
      have next : s'.onward? e.anchor = rest.head? := by
        rw [List.append_assoc, List.singleton_append] at after
        exact onward?_eq (e := (WellFormed.compactEntry (count, s.ledger) e).1) after
      refine ⟨_, t, .onward compacted (next ▸ sweeps), ?_, ?_, options.trans same.1,
        numbers.trans same.2⟩
      · rw [left, List.append_assoc, Tree.mapMembers_cons, here]
        rfl
      · rw [Tree.mapMembers_cons, here]
        refine counted.trans (congrArg (·, t.ledger) ?_)
        split <;> omega

theorem compacts_mapMembers {entries : List (Entry Published)} (state : Nat × Ledger)
    (wf : ∀ e ∈ entries, e.value.block.WellFormed) :
    List.Forall₂ Entry.Compacts entries
        (Tree.mapMembers WellFormed.compactEntry state entries).1
      ∧ (Tree.mapMembers WellFormed.compactEntry state entries).2.1
        = state.1 + entries.countP fun e => e.value.block.run.tail.any (·.deleted) := by
  induction entries generalizing state with
  | nil => exact ⟨.nil, rfl⟩
  | cons e entries ih =>
      obtain ⟨here, later⟩ := List.forall_mem_cons.mp wf
      have compacts := here.compacts state.2
      obtain ⟨related, counted⟩ := ih (WellFormed.compactEntry state e).2 later
      refine ⟨.cons ⟨rfl, rfl, _, compacts⟩ related, counted.trans ?_⟩
      have shrank : (e.value.block.compact state.2 true).1
          = e.value.block.run.tail.any (·.deleted) := by
        rw [Bool.eq_iff_iff, compacts.shrank_iff, List.any_eq_true]
      rw [List.countP_cons]
      simp only [shrank]
      split <;> omega

theorem live_behind {entries entries' : List (Entry Published)}
    (compacts : List.Forall₂ Entry.Compacts entries entries') :
    ∀ e ∈ entries', ∀ r ∈ e.value.block.run.tail, r.deleted = false := by
  induction compacts with
  | nil => nofun
  | cons here _ ih =>
      obtain ⟨shrank, block⟩ := here.block
      exact List.forall_mem_cons.mpr ⟨block.live_behind, ih⟩

/-- Where only first records can be tombstones, compacting everything does nothing. -/
theorem compactAll_of_live_behind
    (kept : ∀ e ∈ s.directory.toList, ∀ r ∈ e.value.block.run.tail, r.deleted = false) :
    s.compactAll = (0, s) := by
  have idle : ∀ e ∈ s.directory.toList,
      e.value.block.compact s.ledger true = (false, e.value.block, s.ledger) := by
    intro e member
    refine Block.compact_of_removable_nil ?_
    simpa [Run.removable] using kept e member
  rw [compactAll, Directory.mapState_eq_self]
  intro e member
  rw [idle e member]
  rfl

theorem WellFormed.audit_of_live_behind (wf : s.WellFormed)
    (kept : ∀ b ∈ s.blocks, ∀ r ∈ b.run.tail, r.deleted = false) :
    ∃ totals, s.audit = .ok totals ∧ totals.blocks = s.blockCount
      ∧ totals.tombstones ≤ totals.blocks
      ∧ totals.usedBytes = totals.liveBytes
        + total (fun b => Run.size (b.run.head?.toList.filter (·.deleted))) s.blocks := by
  refine ⟨_, wf.audit_eq, rfl, ?_, ?_⟩
  · have bounded : total (·.deletedCount) s.blocks ≤ s.blocks.length := by
      refine total_le_length fun b member => ?_
      rw [(wf.enrolled_of_mem_blocks member).sound.deletedCount]
      exact Run.tombstones_le_one (kept b member)
    have sizes : s.blocks.length = s.blockCount := by
      rw [blocks, List.length_map]
      exact SearchTree.length_toList s.directory
    exact sizes ▸ bounded
  · have live : Run.size s.liveRecords = total Block.liveBytes s.blocks :=
      (total_liveBytes s.directory.toList).symm
    change total (·.used) s.blocks = Run.size s.liveRecords + _
    rw [live, ← total_add]
    refine total_congr fun b member => ?_
    rw [(wf.enrolled_of_mem_blocks member).sound.used]
    exact Run.size_eq_of_live_behind (kept b member)

theorem WellFormed.compactedAll (wf : s.WellFormed) :
    s.CompactedAll s.compactAll.1 s.compactAll.2 := by
  have yields := wf.yields_compactAll
  have mapped := compactAll_eq s
  obtain ⟨compacts, counted⟩ := compacts_mapMembers (0, s.ledger)
    fun e member => (wf.enrolled member).sound.toWellFormed
  have anchors : (Tree.mapMembers WellFormed.compactEntry (0, s.ledger) s.directory.toList).1.map
      (·.anchor) = s.directory.toList.map (·.anchor) := by
    apply Tree.map_mapMembers
    intro _ _
    rfl
  obtain ⟨n, t, sweeps, left, ended, options, numbers⟩ :=
    exists_sweeps (List.nil_append s.directory.toList).symm 0
  rw [← mapped] at compacts counted anchors left ended
  rw [Nat.zero_add] at counted
  have kept := live_behind compacts
  have kept_blocks : ∀ b ∈ s.compactAll.2.blocks, ∀ r ∈ b.run.tail, r.deleted = false := by
    intro b member
    obtain ⟨e, inside, rfl⟩ := List.mem_map.mp member
    exact kept e inside
  have walk : s.Sweeps s.directory.first? (s.directory.toList.map (·.anchor)) s.compactAll.1 t := by
    have number : s.compactAll.1 = n := by simpa using congrArg Prod.fst ended
    rw [SearchTree.first?_eq, number]
    exact sweeps
  exact
    { blocks := compacts
      anchors := anchors
      blockCount := by simpa [blockCount] using congrArg List.length anchors
      contents := yields.liveRecords
      reads := by
        intro key
        by_cases fits : Record.KeyFits key
        · rw [yields.wellFormed.get_eq fits, wf.get_eq fits, yields.liveRecords]
        · rw [get_of_not_fits fits, get_of_not_fits fits]
      tombstones := by
        intro b member
        rw [(yields.wellFormed.enrolled_of_mem_blocks member).sound.deletedCount]
        exact ⟨Run.tombstones_le_one (kept_blocks b member), kept_blocks b member⟩
      audited := yields.wellFormed.audit_of_live_behind kept_blocks
      counted := by
        rw [counted, blocks, List.countP_map]
        rfl
      again := compactAll_of_live_behind kept
      walked := by
        refine ⟨t, fun visited n t' => ⟨walk.unique, ?_⟩, left, ?_, options, numbers⟩
        · rintro ⟨rfl, rfl, rfl⟩
          exact walk
        · exact (congrArg Prod.snd ended).symm }

/-- Whatever calls led to a store, compacting everything leaves at most one tombstone in each block,
at its head, counts the blocks that had another, changes nothing else and need not be done again. -/
theorem Reachable.compactAll_settles {o : Options} (reachable : Reachable o s) :
    s.CompactedAll s.compactAll.1 s.compactAll.2 := reachable.wellFormed.compactedAll

/-- Three blocks: one without tombstones, one with a tombstone that stays, and one with two. -/
theorem compactAll_settles_after_deletes : ∃ s t,
    create { largestBlock := 64, newBlock := 64, compactionRatio := 1 } = .ok s
      ∧ t = [[2], [3], [4]].foldl (fun s key => (s.delete key).2)
        ([[1], [2], [3], [4], [5]].foldl (fun s key => (s.put key (.replicate 12 0)).2) s)
      ∧ t.CompactedAll t.compactAll.1 t.compactAll.2
      ∧ t.blocks.map (·.deletedCount) = [0, 1, 2]
      ∧ t.compactAll.1 = 1
      ∧ t.compactAll.2.blocks.map (·.deletedCount) = [0, 1, 1] := by
  obtain ⟨s, opened⟩ :
      ∃ s, create { largestBlock := 64, newBlock := 64, compactionRatio := 1 } = .ok s := ⟨_, rfl⟩
  have settles := Reachable.compactAll_settles (.delete [4] (.delete [3] (.delete [2]
    (.put [5] (.replicate 12 0) (.put [4] (.replicate 12 0) (.put [3] (.replicate 12 0)
      (.put [2] (.replicate 12 0) (.put [1] (.replicate 12 0) (.opened opened)))))))))
  cases opened
  exact ⟨_, _, rfl, rfl, settles, by decide +kernel, by decide +kernel, by decide +kernel⟩

end

end Store

end OrderedStore
