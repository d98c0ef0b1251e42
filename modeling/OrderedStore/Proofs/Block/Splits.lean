import OrderedStore.Proofs.Block.Compaction
import OrderedStore.Proofs.Block.Pages
import OrderedStore.Proofs.Block.Reshapes

/-! # Splits and their undoing

A split cuts the run of a block in two and the page with it: the lower bytes are copied to a region
of their own, the upper ones slide down to the start of the old region. Merging the lower part back
slides them up again, and the block is what it was before but for its change stamp.
-/

namespace OrderedStore

namespace Page

/-- The first `boundary` bytes, which hold so many records, in a region of `size` bytes of their
own. -/
def lower (p : Page) (boundary records deleted size : Nat) : Page where
  bytes := (Bytes.zeros size).overwrite 0 (p.bytes.take boundary)
  used := boundary
  recordCount := records
  deletedCount := deleted

/-- The page without them: the other bytes slide down, and what falls free is cleared. -/
def upper (p : Page) (boundary records deleted : Nat) : Page where
  bytes := (p.bytes.copyWithin boundary p.used 0).clear (p.used - boundary) p.used
  used := p.used - boundary
  recordCount := p.recordCount - records
  deletedCount := p.deletedCount - deleted

/-- The page with the records of `left` in front: its own slide up to make room for them. -/
def joined (p left : Page) : Page where
  bytes := (p.bytes.copyWithin 0 p.used left.used).overwrite 0 left.data
  used := left.used + p.used
  recordCount := p.recordCount + left.recordCount
  deletedCount := p.deletedCount + left.deletedCount

end Page

namespace Block

/-- What a split cuts: the block as it is, or compacted, if that is forced. -/
def uncut (b : Block) (l : Ledger) (force : Bool) : Block × Ledger :=
  if force then (b.compact l true).2 else (b, l)

/-- The merge of the halves of a split gave the block back, and left nothing of the other half. -/
structure Undone (b : Block) (m : MergeResult) : Prop where
  merged : m.merged = true
  block : m.block = { b with stamp := b.stamp + 2 }
  invalid : m.left.valid = false
  emptied : m.left.run = [] ∧ m.left.used = 0 ∧ m.left.recordCount = 0 ∧ m.left.deletedCount = 0
  released : m.left.capacity = 0

/-- The two blocks that a block falls apart into. -/
structure Halves (b lower upper : Block) : Prop where
  wellFormed_lower : lower.WellFormed
  wellFormed_upper : upper.WellFormed
  lower_ne : lower.run ≠ []
  upper_ne : upper.run ≠ []
  whole : lower.run ++ upper.run = b.run
  apart : ∀ x ∈ lower.run, ∀ y ∈ upper.run, x.key < y.key
  sized : lower.capacity ∈ b.ladder.classes
  least : ∀ size ∈ b.ladder.classes, lower.used ≤ size → lower.capacity ≤ size
  page_lower : lower.page
    = b.page.lower lower.used lower.recordCount lower.deletedCount lower.capacity
  page_upper : upper.page = b.page.upper lower.used lower.recordCount lower.deletedCount
  page_joined : upper.page.joined lower.page = b.page
  undone : ∀ l, ∃ m, upper.merge lower l false true = .ok m ∧ b.Undone m

section

variable {b : Block} {l : Ledger} {lease : Lease} {count : Nat}

theorem WellFormed.uncut (wf : b.WellFormed) (l : Ledger) (force : Bool) :
    (b.uncut l force).1.WellFormed := by
  cases force with
  | false => exact wf
  | true => exact wf.compact l true

theorem ladder_uncut (b : Block) (l : Ledger) (force : Bool) :
    (b.uncut l force).1.ladder = b.ladder := by
  cases force with
  | false => rfl
  | true => exact ladder_compact l true

theorem WellFormed.run_uncut (wf : b.WellFormed) (l : Ledger) (force : Bool) :
    (b.uncut l force).1.run = if force then Run.compact b.run else b.run := by
  cases force with
  | false => rfl
  | true => exact wf.run_compact_force l

theorem WellFormed.used_uncut_le (wf : b.WellFormed) (l : Ledger) (force : Bool) :
    (b.uncut l force).1.used ≤ b.used := by
  cases force with
  | false => exact Nat.le_refl _
  | true =>
      have fewer := total_le_of_sublist Record.size (prunes_compact l true (b := b)).sublist
      have before := wf.used
      have after := (wf.compact l true).used
      exact before ▸ after ▸ fewer

theorem WellFormed.split_uncut (wf : b.WellFormed) (l : Ledger) (force : Bool) :
    b.split l force = (b.uncut l force).1.split (b.uncut l force).2 false := by
  have valid : (!b.valid) = false := by rw [wf.valid]; rfl
  have still : (!(b.uncut l force).1.valid) = false := by rw [(wf.uncut l force).valid]; rfl
  rw [split, valid, split, still]
  cases force <;> rfl

theorem apart_parts (wf : b.WellFormed) (count : Nat) :
    ∀ x ∈ (b.lowerPart lease count).run, ∀ y ∈ (b.upperPart count).run, x.key < y.key := by
  have asc := wf.ascending
  rw [← List.take_append_drop count b.run] at asc
  rw [run_upperPart]
  exact (List.pairwise_append.mp asc).2.2

theorem page_lowerPart (b : Block) (lease : Lease) (count : Nat) :
    (b.lowerPart lease count).page
      = b.page.lower (Run.size (b.run.take count)) count (Run.tombstones (b.run.take count))
          lease.size := by
  have cut : b.page.bytes.take (Run.size (b.run.take count)) = Run.encode (b.run.take count) := by
    have whole := Run.encode_append (b.run.take count) (b.run.drop count)
    rw [List.take_append_drop] at whole
    rw [page, Run.laid, whole, List.append_assoc]
    exact List.take_left' (Run.length_encode _)
  refine Page.ext ?_ rfl rfl rfl
  simp only [Page.lower, cut, Run.overwrite_zeros]
  rfl

theorem WellFormed.page_upperPart (wf : b.WellFormed) (count : Nat) :
    (b.upperPart count).page
      = b.page.upper (Run.size (b.run.take count)) count (Run.tombstones (b.run.take count)) := by
  have fits : Run.size (b.run.take count ++ b.run.drop count) ≤ b.capacity := by
    rw [List.take_append_drop, ← wf.used]
    exact wf.room
  have slid := Run.slide_down_laid fits
  have sizes := Run.size_append (b.run.take count) (b.run.drop count)
  rw [List.take_append_drop, ← wf.used] at slid sizes
  have rest : b.used - Run.size (b.run.take count) = Run.size (b.run.drop count) := by omega
  refine Page.ext ?_ rfl rfl rfl
  simp only [Page.upper, page, run_upperPart, rest]
  exact slid.symm

theorem page_joined (wf : b.WellFormed) {left : Block} (of_left : left.WellFormed)
    (room : left.used + b.used ≤ b.capacity) : (b.joined left).page = b.page.joined left.page := by
  have fits : Run.size (left.run ++ b.run) ≤ b.capacity := by
    rw [Run.size_append, ← wf.used, ← of_left.used]
    exact room
  have slid := Run.slide_up_laid fits
  have data : left.page.data = Run.encode left.run := of_left.data_page
  rw [← wf.used, ← of_left.used, ← data] at slid
  refine Page.ext ?_ rfl rfl rfl
  rw [page, run_joined]
  exact slid.symm

theorem joined_parts (wf : b.WellFormed) (inside : count ≤ b.run.length) :
    (b.upperPart count).joined (b.lowerPart lease count) = { b with stamp := b.stamp + 2 } := by
  have whole := List.take_append_drop count b.run
  have sizes := congrArg Run.size whole
  have tombs := congrArg Run.tombstones whole
  rw [Run.size_append] at sizes
  rw [Run.tombstones_append] at tombs
  have used : Run.size (b.run.take count) + (b.used - Run.size (b.run.take count)) = b.used := by
    rw [wf.used]
    omega
  have records : b.recordCount - count + count = b.recordCount := by
    rw [wf.recordCount]
    omega
  have deleted : b.deletedCount - Run.tombstones (b.run.take count)
      + Run.tombstones (b.run.take count) = b.deletedCount := by
    rw [wf.deletedCount]
    omega
  have array : (b.run.take count).toArray ++ b.records.extract count = b.records := by
    apply Array.toList_inj.mp
    rw [Array.toList_append]
    exact (congrArg _ (run_upperPart b count)).trans whole
  simp only [joined, used, records, deleted, array]

theorem WellFormed.exists_halves (wf : b.WellFormed) (small : b.used ≤ b.ladder.max)
    (many : 2 ≤ b.run.length) (l : Ledger) :
    ∃ lower, (b.split l false).lower = .ok (some lower) ∧ b.Halves lower (b.split l false).block := by
  obtain ⟨some_lower, some_upper⟩ := splitCount_bounds many b.used
  obtain ⟨size, held, room, sized⟩ :=
    Ladder.exists_holding? (Nat.le_trans (wf.size_take_le _) small)
  rw [wf.split_of_held many l held]
  generalize splitCount b.run b.used = count at *
  have capacity : (l.arena.sibling b.lease size).1.size = size := by
    rw [Arena.sibling]
    split <;> rfl
  generalize (l.arena.sibling b.lease size).1 = lease at *
  have inside : count ≤ b.run.length := Nat.le_of_lt some_upper
  have sized_lower : (b.lowerPart lease count).capacity = size := capacity
  have lower := wf.lowerPart inside (capacity.symm ▸ room)
  have upper := wf.upperPart count
  have together : Run.size (b.run.take count) + (b.used - Run.size (b.run.take count)) = b.used :=
    Nat.add_sub_cancel' (wf.size_take_le count)
  have fits : (b.lowerPart lease count).used + (b.upperPart count).used
      ≤ (b.upperPart count).capacity := together.symm ▸ wf.room
  refine ⟨b.lowerPart lease count, rfl,
    { wellFormed_lower := lower
      wellFormed_upper := upper
      lower_ne := run_lowerPart_ne lease some_lower some_upper
      upper_ne := run_upperPart_ne some_upper
      whole := by rw [run_upperPart]; exact List.take_append_drop count b.run
      apart := apart_parts wf count
      sized := sized_lower.symm ▸ sized
      least := fun c member fits => sized_lower.symm ▸ Ladder.holding?_le held member fits
      page_lower := page_lowerPart b lease count
      page_upper := wf.page_upperPart count
      page_joined := ?_
      undone := ?_ }⟩
  · rw [← page_joined upper lower fits, joined_parts wf inside]
    rfl
  · intro l'
    have merged := upper.merge_eq lower (apart_parts wf count) l' true
    have accepted : ¬((b.upperPart count).ladder.max
        < (b.lowerPart lease count).used + (b.upperPart count).used
          || !(true || (b.upperPart count).shouldMerge (b.lowerPart lease count))) = true := by
      rw [Bool.true_or, Bool.not_true, Bool.or_false, decide_eq_true_iff, Nat.not_lt]
      exact together.symm ▸ small
    simp only [reserve_of_le fits] at merged
    rw [if_neg accepted, if_neg (Nat.not_lt.mpr fits), joined_parts wf inside] at merged
    exact ⟨_, merged,
      { merged := rfl
        block := rfl
        invalid := rfl
        emptied := ⟨rfl, rfl, rfl, rfl⟩
        released := rfl }⟩

/-- A split leaves a block of fewer than two records whole, and has any other fall apart into
halves that a merge puts together again. -/
theorem WellFormed.split_halves (wf : b.WellFormed) (small : b.used ≤ b.ladder.max) (l : Ledger)
    (force : Bool) :
    (b.uncut l force).1.WellFormed
      ∧ (b.uncut l force).1.run = (if force then Run.compact b.run else b.run)
      ∧ ((b.split l force).lower = .ok none ↔ (b.uncut l force).1.run.length < 2)
      ∧ ((b.uncut l force).1.run.length < 2 → (b.split l force).block = (b.uncut l force).1)
      ∧ (2 ≤ (b.uncut l force).1.run.length → ∃ lower, (b.split l force).lower = .ok (some lower)
        ∧ (b.uncut l force).1.Halves lower (b.split l force).block) := by
  have cut := wf.uncut l force
  have small_cut : (b.uncut l force).1.used ≤ (b.uncut l force).1.ladder.max :=
    ladder_uncut b l force ▸ Nat.le_trans (wf.used_uncut_le l force) small
  rw [wf.split_uncut l force]
  refine ⟨cut, wf.run_uncut l force, ?_, ?_, fun many => cut.exists_halves small_cut many _⟩
  · constructor
    · intro whole
      refine Nat.lt_of_not_le fun many => ?_
      obtain ⟨lower, given, _⟩ := cut.exists_halves small_cut many (b.uncut l force).2
      rw [whole] at given
      cases given
    · intro few
      rw [cut.split_of_few few]
  · intro few
    rw [cut.split_of_few few]

end

/-- A block of four records, one of them deleted. -/
def fourfold : Block :=
  { scratch 64 ⟨⟨256⟩, 0.25, 0.5⟩ with
    records := #[⟨[1], List.replicate 5 0, false⟩, ⟨[2], List.replicate 9 0, true⟩,
      ⟨[3], List.replicate 5 0, false⟩, ⟨[4], List.replicate 7 0, false⟩]
    used := 46
    recordCount := 4
    deletedCount := 1 }

theorem split_halves_fourfold : ∃ lower,
    (fourfold.split (.create false) true).lower = .ok (some lower)
      ∧ (fourfold.uncut (.create false) true).1.Halves lower
        (fourfold.split (.create false) true).block := by
  obtain ⟨_, run_eq, _, _, halves⟩ := WellFormed.split_halves (b := fourfold) (by decide) (by decide)
    (.create false) true
  exact halves (by rw [run_eq]; decide)

end Block

end OrderedStore
