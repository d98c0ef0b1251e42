import OrderedStore.Block.Write
import OrderedStore.Proofs.Ledger.Balance

/-! # Growing a block

A block grows by moving to another region. Only its region differs then, and the ledger stays
balanced because the new region is counted before the old one is given back.
-/

namespace OrderedStore.Block

/-- `grown` is the block in a region of the ladder that is no smaller, and as well accounted. -/
structure Grows (b grown : Block) : Prop where
  same : grown = { b with lease := grown.lease }
  accounted : grown.lease.accounted = b.lease.accounted
  le : b.capacity ≤ grown.capacity
  sized : grown.capacity = b.capacity ∨ grown.capacity ∈ b.ladder.classes

namespace Grows

variable {b grown larger : Block}

theorem refl (b : Block) : b.Grows b := ⟨rfl, rfl, Nat.le_refl _, .inl rfl⟩

theorem tuning (h : b.Grows grown) : grown.tuning = b.tuning := by rw [h.same]

theorem ladder (h : b.Grows grown) : grown.ladder = b.ladder := congrArg Tuning.ladder h.tuning

theorem run (h : b.Grows grown) : grown.run = b.run := by
  rw [h.same]
  rfl

theorem at? (h : b.Grows grown) (key : Bytes) : grown.at? key = b.at? key := by
  rw [h.same]
  rfl

theorem used (h : b.Grows grown) : grown.used = b.used := by rw [h.same]

theorem trans (h : b.Grows grown) (h' : grown.Grows larger) : b.Grows larger where
  same := by
    rw [h'.same, h.same]
  accounted := h'.accounted.trans h.accounted
  le := Nat.le_trans h.le h'.le
  sized := by
    cases h'.sized with
    | inl kept => exact kept ▸ h.sized
    | inr sized => exact .inr (h.ladder ▸ sized)

theorem wellFormed (h : b.Grows grown) (wf : b.WellFormed) : grown.WellFormed := by
  have room : grown.used ≤ grown.capacity := by
    rw [h.used]
    exact Nat.le_trans wf.room h.le
  rw [h.same] at room ⊢
  exact { wf with room := room }

theorem sound (h : b.Grows grown) (sound : b.Sound) : grown.Sound where
  toWellFormed := h.wellFormed sound.toWellFormed
  capacity := by
    rw [h.ladder]
    cases h.sized with
    | inl kept => exact kept ▸ sound.capacity
    | inr sized => exact sized

theorem capacity_le (h : b.Grows grown) (small : b.capacity ≤ b.ladder.max) :
    grown.capacity ≤ grown.ladder.max := by
  rw [h.ladder]
  cases h.sized with
  | inl kept => exact kept ▸ small
  | inr sized => exact Ladder.le_max_of_mem sized

theorem enrolled {tuning : Tuning} (h : b.Grows grown) (enrolled : b.Enrolled tuning) :
    grown.Enrolled tuning where
  sound := h.sound enrolled.sound
  tuning := h.tuning.trans enrolled.tuning
  counted := by rw [h.same]; exact enrolled.counted
  accounted := h.accounted.trans enrolled.accounted

end Grows

section

variable (b : Block) (l : Ledger)

theorem capacity_moveTo (size : Nat) : (b.moveTo l size).1.capacity = size := by
  simp only [moveTo, capacity, Arena.sibling]
  split <;> rfl

theorem accounted_moveTo (size : Nat) :
    (b.moveTo l size).1.lease.accounted = b.lease.accounted := by
  simp only [moveTo, Arena.sibling]
  split
  · simp [Arena.allocate, *]
  · simp [Lease.detached, *]

theorem grows_moveTo {size : Nat} (larger : b.capacity ≤ size) (sized : size ∈ b.ladder.classes) :
    b.Grows (b.moveTo l size).1 where
  same := rfl
  accounted := accounted_moveTo b l size
  le := by rw [capacity_moveTo]; exact larger
  sized := by rw [capacity_moveTo]; exact .inr sized

theorem moveTo_of_accounted {b : Block} {l : Ledger} {size : Nat}
    (accounted : b.lease.accounted = true) :
    b.moveTo l size = ({ b with lease := (l.arena.allocate size).1 },
      b.report { l with arena := (l.arena.allocate size).2.release b.lease } .addExpansion) := by
  simp [moveTo, Arena.sibling, accounted]

theorem balanced_moveTo {b : Block} {l : Ledger} {n : Nat} {rest : List Block} (size : Nat)
    (accounted : b.lease.accounted = true) (balanced : l.Balanced n (b :: rest)) :
    (b.moveTo l size).2.Balanced n ((b.moveTo l size).1 :: rest) := by
  have allocated := balanced.allocated
  rw [total_cons, capacity] at allocated
  rw [moveTo_of_accounted accounted]
  refine Ledger.Balanced.report ?_ fun c => ⟨rfl, rfl, rfl⟩
  refine ⟨?_, balanced.dataBytes, balanced.liveRecords, balanced.published⟩
  rw [total_cons, capacity]
  simp only [Arena.allocate, Arena.release, accounted, if_true]
  omega

/-- Through capacities of the ladder a block grows until it holds `bytes`, if one of them does. -/
theorem growThrough_spec (bytes : Nat) (sizes : List Nat)
    (sized : ∀ size ∈ sizes, size ∈ b.ladder.classes) :
    b.Grows (growThrough bytes sizes b l).1
      ∧ ∀ size ∈ sizes, bytes ≤ size → bytes ≤ (growThrough bytes sizes b l).1.capacity := by
  induction sizes generalizing b l with
  | nil => exact ⟨.refl b, by simp⟩
  | cons size larger ih =>
      obtain ⟨here, above⟩ := List.forall_mem_cons.mp sized
      rw [growThrough]
      by_cases enough : bytes ≤ b.capacity
      · rw [if_pos enough]
        exact ⟨.refl b, fun _ _ _ => enough⟩
      · rw [if_neg enough]
        by_cases small : size ≤ b.capacity
        · rw [if_pos small]
          obtain ⟨grows, reached⟩ := ih b l above
          refine ⟨grows, List.forall_mem_cons.mpr ⟨fun fits => ?_, reached⟩⟩
          exact absurd (Nat.le_trans fits small) enough
        · rw [if_neg small]
          have step := grows_moveTo b l (Nat.le_of_not_le small) here
          obtain ⟨grows, reached⟩ := ih (b.moveTo l size).1 (b.moveTo l size).2
            (fun c member => step.ladder ▸ above c member)
          refine ⟨step.trans grows, List.forall_mem_cons.mpr ⟨fun fits => ?_, reached⟩⟩
          have kept := grows.le
          rw [capacity_moveTo] at kept
          exact Nat.le_trans fits kept

theorem balanced_growThrough {b : Block} {l : Ledger} {n : Nat} {rest : List Block} (bytes : Nat)
    (sizes : List Nat) (accounted : b.lease.accounted = true)
    (balanced : l.Balanced n (b :: rest)) :
    (growThrough bytes sizes b l).2.Balanced n ((growThrough bytes sizes b l).1 :: rest) := by
  induction sizes generalizing b l with
  | nil => exact balanced
  | cons size larger ih =>
      rw [growThrough]
      split
      · exact balanced
      · split
        · exact ih accounted balanced
        · exact ih ((accounted_moveTo b l size).trans accounted)
            (balanced_moveTo size accounted balanced)

theorem grows_reserve (bytes : Nat) : b.Grows (b.reserve l bytes).1 :=
  (growThrough_spec b l bytes b.ladder.classes fun _ member => member).1

theorem reserve_of_le {b : Block} {l : Ledger} {bytes : Nat} (room : bytes ≤ b.capacity) :
    b.reserve l bytes = (b, l) := by
  rw [reserve]
  cases b.ladder.classes with
  | nil => rfl
  | cons size larger => rw [growThrough, if_pos room]

theorem le_capacity_reserve {bytes : Nat} (small : bytes ≤ b.ladder.max) :
    bytes ≤ (b.reserve l bytes).1.capacity :=
  (growThrough_spec b l bytes b.ladder.classes fun _ member => member).2 _
    b.ladder.max_mem_classes small

theorem balanced_reserve {b : Block} {l : Ledger} {n : Nat} {rest : List Block} (bytes : Nat)
    (accounted : b.lease.accounted = true) (balanced : l.Balanced n (b :: rest)) :
    (b.reserve l bytes).2.Balanced n ((b.reserve l bytes).1 :: rest) :=
  balanced_growThrough bytes b.ladder.classes accounted balanced

end

end OrderedStore.Block
