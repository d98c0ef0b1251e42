import OrderedStore.Total
import OrderedStore.Proofs.Block.Soundness

/-! # Balanced ledgers

Counters move in small steps at many places, so the theory keeps one statement of what they count:
the sums over a list of blocks. The order of the list does not matter, and a step on one block is
judged with that block at the head.
-/

namespace OrderedStore

theorem total_perm {α : Type} {f : α → Nat} {l m : List α} (same : l.Perm m) :
    total f l = total f m := by
  induction same with
  | nil => rfl
  | cons a _ ih => simp only [total_cons, ih]
  | swap a b l => simp only [total_cons]; omega
  | trans _ _ ihl ihm => exact ihl.trans ihm

theorem total_congr {α : Type} {f g : α → Nat} {l : List α} (same : ∀ a ∈ l, f a = g a) :
    total f l = total g l := by
  induction l with
  | nil => rfl
  | cons a l ih =>
      obtain ⟨here, later⟩ := List.forall_mem_cons.mp same
      rw [total_cons, total_cons, here, ih later]

theorem total_add {α : Type} (f g : α → Nat) (l : List α) :
    total (fun a => f a + g a) l = total f l + total g l := by
  induction l with
  | nil => rfl
  | cons a l ih =>
      simp only [total_cons, ih]
      omega

/-- The block is sound, tuned like its store, and both its region and its records are accounted. -/
structure Block.Enrolled (tuning : Tuning) (b : Block) : Prop where
  sound : b.Sound
  tuning : b.tuning = tuning
  counted : b.counted = true
  accounted : b.lease.accounted = true

namespace Ledger

/-- The ledger accounts for exactly the given blocks, so many of which are published. -/
structure Balanced (l : Ledger) (published : Nat) (blocks : List Block) : Prop where
  allocated : l.arena.allocated = total Block.capacity blocks
  dataBytes : l.counters.dataBytes = (total Block.used blocks : Nat)
  liveRecords : l.counters.liveRecords = (total Block.liveCount blocks : Nat)
  published : l.counters.blocks = published

namespace Balanced

variable {l l' : Ledger} {n : Nat} {blocks blocks' : List Block} {b b' : Block}

theorem perm (h : l.Balanced n blocks) (same : blocks.Perm blocks') : l.Balanced n blocks' where
  allocated := total_perm same ▸ h.allocated
  dataBytes := total_perm same ▸ h.dataBytes
  liveRecords := total_perm same ▸ h.liveRecords
  published := h.published

theorem middle {low high : List Block} :
    l.Balanced n (low ++ b :: high) ↔ l.Balanced n (b :: (low ++ high)) :=
  ⟨fun h => h.perm List.perm_middle, fun h => h.perm List.perm_middle.symm⟩

theorem report (h : l.Balanced n blocks) {f : Counters → Counters}
    (keeps : ∀ c, (f c).dataBytes = c.dataBytes ∧ (f c).liveRecords = c.liveRecords
      ∧ (f c).blocks = c.blocks) : (b.report l f).Balanced n blocks := by
  unfold Block.report
  split
  · obtain ⟨dataBytes, liveRecords, published⟩ := keeps l.counters
    exact ⟨h.allocated, dataBytes ▸ h.dataBytes, liveRecords ▸ h.liveRecords,
      published ▸ h.published⟩
  · exact h

theorem publish (h : l.Balanced n blocks) : (l.count (·.addBlocks 1)).Balanced (n + 1) blocks where
  allocated := h.allocated
  dataBytes := h.dataBytes
  liveRecords := h.liveRecords
  published := by
    have published := h.published
    simp only [count, Counters.addBlocks]
    omega

theorem retire (h : l.Balanced (n + 1) blocks) :
    (l.count (·.addBlocks (-1))).Balanced n blocks where
  allocated := h.allocated
  dataBytes := h.dataBytes
  liveRecords := h.liveRecords
  published := by
    have published := h.published
    simp only [count, Counters.addBlocks]
    omega

end Balanced

end Ledger

end OrderedStore
