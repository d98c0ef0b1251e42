import OrderedStore.Proofs.Block.Reshapes
import OrderedStore.Proofs.Block.Writes
import OrderedStore.Proofs.Run.Updates
import OrderedStore.Proofs.Store.Tiling

/-! # Entries after a write

What a write does to the block of an entry leaves an entry that fits where the old one did: pruning
keeps the first record, a stored record takes its place between the anchors, a deletion keeps every
key. An entry that is cut gives two that fit side by side.
-/

namespace OrderedStore.Entry

section

variable {tuning : Tuning} {e : Entry Published} {next : Option Bytes} {b lower upper : Block}

namespace Fits

theorem pruned (fits : e.Fits tuning next) (prunes : Run.Prunes e.value.block.run b.run)
    (enrolled : b.Enrolled tuning) : (e.withBlock b).Fits tuning next where
  enrolled := enrolled
  starts := by
    rw [prunes.head]
    exact fits.starts
  above r member := fits.above r (prunes.subset member)
  below r member := fits.below r (prunes.subset member)
  less := fits.less

theorem stored (fits : e.Fits tuning next) {l : Ledger} {new : Record}
    (live : new.deleted = false) (describable : new.Describable) (least : e.anchor ≤ new.key)
    (below : ∀ key ∈ next, new.key < key)
    (room : e.value.block.usedWith (e.value.block.at? new.key) new.size ≤ e.value.block.capacity) :
    (e.withBlock (e.value.block.stored l new).1).Fits tuning next := by
  have run_eq : (e.value.block.stored l new).1.run
      = Ascending.inserted Record.key new e.value.block.run :=
    fits.enrolled.sound.run_stored new
  refine
    { enrolled := fits.enrolled.stored (l := l) live describable room
      starts := ?_
      above := ?_
      below := ?_
      less := fits.less }
  · rcases fits.starts with leftmost | head
    · exact .inl leftmost
    · right
      rw [run_eq]
      exact Ascending.head?_inserted fits.enrolled.sound.ascending head least
  · intro r member
    rw [run_eq] at member
    rcases Ascending.mem_inserted member with rfl | member
    · exact least
    · exact fits.above r member
  · intro r member
    rw [run_eq] at member
    rcases Ascending.mem_inserted member with rfl | member
    · exact below
    · exact fits.below r member

theorem marked (fits : e.Fits tuning next) {key : Bytes} {r : Record}
    (found : e.value.block.liveAt? key = some r) :
    (e.withBlock (e.value.block.marked r)).Fits tuning next := by
  obtain ⟨low, high, before, after⟩ := fits.enrolled.sound.exists_run_marked found
  have same_keys : ∀ m ∈ (e.value.block.marked r).run,
      ∃ m' ∈ e.value.block.run, m'.key = m.key := by
    intro m member
    rw [after] at member
    rw [before]
    rcases List.mem_append.mp member with member | member
    · exact ⟨m, List.mem_append_left _ member, rfl⟩
    · rcases List.mem_cons.mp member with rfl | member
      · exact ⟨r, by simp, rfl⟩
      · exact ⟨m, by simp [member], rfl⟩
  refine
    { enrolled := fits.enrolled.marked found
      starts := ?_
      above := ?_
      below := ?_
      less := fits.less }
  · have starts := fits.starts
    rw [before] at starts
    rw [after]
    cases low <;> exact starts
  · intro m member
    obtain ⟨m', member', same⟩ := same_keys m member
    exact same ▸ fits.above m' member'
  · intro m member
    obtain ⟨m', member', same⟩ := same_keys m member
    exact same ▸ fits.below m' member'

theorem upTo (fits : e.Fits tuning next) {key : Bytes} (above : e.anchor < key)
    (lies_below : ∀ r ∈ e.value.block.run, r.key < key) : e.Fits tuning (some key) where
  enrolled := fits.enrolled
  starts := fits.starts
  above := fits.above
  below := by
    rintro r member _ ⟨⟩
    exact lies_below r member
  less := by
    rintro _ ⟨⟩
    exact above

/-- A block of one record fits under its key. -/
theorem of_single (enrolled : b.Enrolled tuning) {r : Record} (single : b.run = [r])
    (inside : ∀ key ∈ next, r.key < key) (id : Nat) :
    (⟨r.key, ⟨id, b⟩⟩ : Entry Published).Fits tuning next := by
  have only : ∀ m ∈ b.run, m = r := by
    intro m member
    rw [single] at member
    exact List.mem_singleton.mp member
  refine
    { enrolled := enrolled
      starts := .inr (by rw [single]; rfl)
      above := ?_
      below := ?_
      less := inside }
  · intro m member
    exact only m member ▸ List.le_refl r.key
  · intro m member
    exact only m member ▸ inside

/-- The lower part of an entry fits below the first key of the upper one, unless it has nothing that
starts at the anchor. -/
theorem lowerPart (fits : e.Fits tuning next) {r : Record} {rest : Run}
    (prunes : Run.Prunes e.value.block.run (lower.run ++ r :: rest))
    (enrolled : lower.Enrolled tuning) (starts : lower.run ≠ [] ∨ e.anchor = [])
    (less : e.anchor < r.key) (id : Nat) :
    (⟨e.anchor, ⟨id, lower⟩⟩ : Entry Published).Fits tuning (some r.key) := by
  obtain ⟨_, _, across⟩ := List.pairwise_append.mp (prunes.ascending fits.enrolled.sound.ascending)
  refine
    { enrolled := enrolled
      starts := ?_
      above := fun m member => fits.above m (prunes.subset (List.mem_append_left _ member))
      below := ?_
      less := ?_ }
  · rcases starts with filled | leftmost
    · have head : lower.run.head? = e.value.block.run.head? := by
        rw [← prunes.head]
        cases lower_eq : lower.run with
        | nil => exact absurd lower_eq filled
        | cons m lower_rest => rfl
      rw [head]
      exact fits.starts
    · exact .inl leftmost
  · rintro m member _ ⟨⟩
    exact across m member r List.mem_cons_self
  · rintro _ ⟨⟩
    exact less

theorem upperPart (fits : e.Fits tuning next) {low rest : Run} {r : Record}
    (prunes : Run.Prunes e.value.block.run (low ++ upper.run)) (enrolled : upper.Enrolled tuning)
    (upper_eq : upper.run = r :: rest) :
    (⟨r.key, ⟨e.value.id, upper⟩⟩ : Entry Published).Fits tuning next := by
  have inside : ∀ m ∈ upper.run, m ∈ e.value.block.run := fun m member =>
    prunes.subset (List.mem_append_right _ member)
  have ascending := enrolled.sound.ascending
  refine
    { enrolled := enrolled
      starts := .inr (by rw [upper_eq]; rfl)
      above := ?_
      below := fun m member => fits.below m (inside m member)
      less := fits.below r (inside r (upper_eq ▸ List.mem_cons_self)) }
  intro m member
  rw [upper_eq] at member ascending
  rcases List.mem_cons.mp member with rfl | member
  · exact List.le_refl _
  · exact List.le_of_lt ((List.pairwise_cons.mp ascending).1 m member)

/-- An entry may be cut at the first key of its upper part. -/
theorem cut (fits : e.Fits tuning next)
    (prunes : Run.Prunes e.value.block.run (lower.run ++ upper.run))
    (enrolled_lower : lower.Enrolled tuning) (enrolled_upper : upper.Enrolled tuning)
    (starts : lower.run ≠ [] ∨ e.anchor = []) {first : Bytes}
    (first_eq : upper.run.head?.map (·.key) = some first) (less : e.anchor < first) (id : Nat) :
    (⟨e.anchor, ⟨id, lower⟩⟩ : Entry Published).Fits tuning (some first)
      ∧ (⟨first, ⟨e.value.id, upper⟩⟩ : Entry Published).Fits tuning next := by
  cases upper_eq : upper.run with
  | nil =>
      rw [upper_eq] at first_eq
      contradiction
  | cons r rest =>
      have right := fits.upperPart prunes enrolled_upper upper_eq
      rw [upper_eq] at first_eq prunes
      obtain rfl : r.key = first := Option.some.inj first_eq
      exact ⟨fits.lowerPart prunes enrolled_lower starts less id, right⟩

/-- Two entries side by side fit as one that has the records of both. -/
theorem joined {left : Entry Published} (fits_left : left.Fits tuning (some e.anchor))
    (fits : e.Fits tuning next) (enrolled : b.Enrolled tuning)
    (run_eq : b.run = left.value.block.run ++ e.value.block.run) (id : Nat) :
    (⟨left.anchor, ⟨id, b⟩⟩ : Entry Published).Fits tuning next := by
  have less : left.anchor < e.anchor := fits_left.less e.anchor rfl
  refine
    { enrolled := enrolled
      starts := ?_
      above := ?_
      below := ?_
      less := fun key member => List.lt_trans less (fits.less key member) }
  · rcases fits_left.starts with leftmost | head
    · exact .inl leftmost
    · right
      rw [run_eq]
      cases left_eq : left.value.block.run with
      | nil =>
          rw [left_eq] at head
          contradiction
      | cons r rest =>
          rw [left_eq] at head
          exact head
  · intro r member
    rw [run_eq] at member
    rcases List.mem_append.mp member with member | member
    · exact fits_left.above r member
    · exact List.le_trans (List.le_of_lt less) (fits.above r member)
  · intro r member key bound
    rw [run_eq] at member
    rcases List.mem_append.mp member with member | member
    · exact List.lt_trans (fits_left.below r member e.anchor rfl) (fits.less key bound)
    · exact fits.below r member key bound

/-- A block starts above its anchor only if that is the empty key. -/
theorem anchor_lt (fits : e.Fits tuning next) {low high : Run} {r : Record} (filled : low ≠ [])
    (prunes : Run.Prunes e.value.block.run (low ++ r :: high)) : e.anchor < r.key := by
  cases low with
  | nil => contradiction
  | cons m low =>
      have ascending := prunes.ascending fits.enrolled.sound.ascending
      exact Std.lt_of_le_of_lt (fits.above m (prunes.subset List.mem_cons_self))
        ((List.pairwise_cons.mp ascending).1 r (by simp))

end Fits

end

end OrderedStore.Entry
