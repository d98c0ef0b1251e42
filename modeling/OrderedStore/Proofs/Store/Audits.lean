import OrderedStore.Proofs.Store.Tiling
import OrderedStore.Store.Audit

/-! # Audits of well-formed stores

An audit of a well-formed store finds nothing wrong. Its totals are those of the blocks, and the
live records among them are the live records of the store.
-/

namespace OrderedStore

theorem Run.isOrdered_of_ascending {run : Run} (asc : Ascending Record.key run) :
    Run.isOrdered run = true := by
  induction run with
  | nil => rfl
  | cons r run ih =>
      obtain ⟨above, asc⟩ := List.pairwise_cons.mp asc
      cases run with
      | nil => rfl
      | cons next rest =>
          rw [isOrdered, ih asc, Bool.and_true]
          exact decide_eq_true (above next List.mem_cons_self)

namespace Audit

/-- The totals with those of further blocks. -/
def addAll (a : Audit) (blocks : List Block) : Audit where
  blocks := a.blocks + blocks.length
  records := a.records + total (·.recordCount) blocks
  liveRecords := a.liveRecords + total Block.liveCount blocks
  tombstones := a.tombstones + total (·.deletedCount) blocks
  usedBytes := a.usedBytes + total (·.used) blocks
  liveBytes := a.liveBytes + total Block.liveBytes blocks
  capacityBytes := a.capacityBytes + total Block.capacity blocks

variable {tuning : Tuning} {e : Entry Published} {next before : Option Bytes}

theorem checkStart_ok (fits : e.Fits tuning next) (apart : ∀ last ∈ before, last < e.anchor) :
    checkStart before e.anchor e.value.block.run = .ok () := by
  cases run_eq : e.value.block.run with
  | nil => rfl
  | cons first rest =>
      have above : e.anchor ≤ first.key := fits.above first (run_eq ▸ List.mem_cons_self)
      have anchored : (!e.anchor.isEmpty && decide (first.key ≠ e.anchor)) = false := by
        rcases fits.starts with leftmost | head
        · rw [leftmost]
          rfl
        · rw [run_eq] at head
          have at_anchor : first.key = e.anchor := Option.some.inj head
          simp [at_anchor]
      have not_before : before.any (first.key ≤ ·) = false := by
        rw [Option.any_eq_false]
        intro last member
        simpa using Std.lt_of_lt_of_le (apart last member) above
      simp only [checkStart, anchored, not_before, Bool.false_eq_true, if_false]

theorem checkBlock_ok (fits : e.Fits tuning next) (apart : ∀ last ∈ before, last < e.anchor) :
    checkBlock before e = .ok () := by
  have sound := fits.enrolled.sound
  have start := checkStart_ok fits apart
  have ordered := Run.isOrdered_of_ascending sound.ascending
  have filled : (e.value.block.records.isEmpty && !e.anchor.isEmpty) = false := by
    rcases fits.starts with leftmost | head
    · rw [leftmost, Bool.and_eq_false_iff]
      exact .inr rfl
    · rw [Bool.and_eq_false_iff]
      left
      rw [← Array.isEmpty_toList]
      change e.value.block.run.isEmpty = false
      cases run_eq : e.value.block.run with
      | nil =>
          rw [run_eq] at head
          contradiction
      | cons r rest => rfl
  have counts : ¬(Run.size e.value.block.run ≠ e.value.block.used
      ∨ e.value.block.records.size ≠ e.value.block.recordCount
      ∨ Run.tombstones e.value.block.run ≠ e.value.block.deletedCount) := by
    have records : e.value.block.records.size = e.value.block.recordCount := by
      rw [sound.recordCount, Block.run, Array.length_toList]
    simp [← sound.used, records, ← sound.deletedCount]
  have room : ¬e.value.block.capacity < e.value.block.used := Nat.not_lt.mpr sound.room
  simp only [checkBlock, sound.valid, room, start, ordered, filled, counts, Bool.not_true,
    Bool.false_eq_true, if_false, bind, Except.bind, pure, Except.pure]

theorem add_eq (a : Audit) (fits : e.Fits tuning next) (blocks : List Block) :
    (a.add e.value.block).addAll blocks = a.addAll (e.value.block :: blocks) := by
  have sound := fits.enrolled.sound
  have records : e.value.block.records.size = e.value.block.recordCount := by
    rw [sound.recordCount, Block.run, Array.length_toList]
  simp only [add, addAll, total_cons, records, ← sound.used, ← sound.deletedCount, Block.liveCount,
    List.length_cons, Nat.add_assoc, Nat.add_comm 1]

theorem walk_eq {start stop : Option Bytes} {entries : List (Entry Published)}
    (tiles : Tiles tuning start entries stop) (a : Audit) (before : Option Bytes)
    (apart : ∀ last ∈ before, ∀ key ∈ start, last < key) :
    walk a before entries = .ok (a.addAll (blocksOf entries)) := by
  -- `before` is the last key of the blocks walked so far, below the start of those that are left
  induction tiles generalizing a before with
  | nil => rfl
  | @cons e next rest stop fits tail ih =>
      have here : ∀ last ∈ before, last < e.anchor := fun last member =>
        apart last member e.anchor rfl
      have later : ∀ last ∈ (if e.value.block.lastKey?.isSome then e.value.block.lastKey?
          else before), ∀ key ∈ next, last < key := by
        intro last member key next_key
        rw [Block.lastKey?_eq] at member
        cases last_eq : e.value.block.run.getLast? with
        | none =>
            rw [last_eq] at member
            exact List.lt_trans (here last member) (fits.less key next_key)
        | some r =>
            rw [last_eq] at member
            obtain rfl : r.key = last := Option.some.inj member
            exact fits.below r (List.mem_of_getLast? last_eq) key next_key
      have checked := checkBlock_ok fits here
      simp only [walk, checked]
      rw [ih (a.add e.value.block) _ later, add_eq a fits]
      rfl

end Audit

theorem total_liveBytes (entries : List (Entry Published)) :
    total Block.liveBytes (blocksOf entries) = Run.size (liveOf entries) := by
  induction entries with
  | nil => rfl
  | cons e entries ih =>
      rw [liveOf_cons, Run.size_append, ← ih]
      exact total_cons _ _ _

/-- An audit of a well-formed store finds nothing wrong and gives the totals. -/
theorem Store.WellFormed.audit_eq {s : Store} (wf : s.WellFormed) :
    s.audit = .ok {
      blocks := s.blockCount
      records := total (·.recordCount) s.blocks
      liveRecords := s.size
      tombstones := total (·.deletedCount) s.blocks
      usedBytes := s.usedBytes
      liveBytes := Run.size s.liveRecords
      capacityBytes := s.allocated } := by
  have walked := Audit.walk_eq wf.tiles {} none (by simp)
  rw [audit, walked, Except.ok.injEq, liveRecords, ← total_liveBytes, allocated,
    wf.balanced.allocated, blockCount, ← SearchTree.length_toList]
  simp only [Audit.addAll, Nat.zero_add, blocksOf, List.length_map]
  rfl

end OrderedStore
