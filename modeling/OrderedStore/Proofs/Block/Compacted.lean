import OrderedStore.Proofs.Block.Refinement

/-! # What compactions leave

A compaction takes away the tombstones behind the first record. They are counted while the records
slide together, so that a block whose only tombstone comes first counts as unchanged, and a second
compaction finds nothing to do although there still is a tombstone. The share of tombstones decides
whether a compaction that is not forced runs at all; if it runs, it does what a forced one does.
-/

namespace OrderedStore

theorem Run.removable_ne_nil_iff {run : Run} :
    removable run ≠ [] ↔ ∃ r ∈ run.tail, r.deleted = true := by
  simp [removable]

theorem Run.compact_eq (run : Run) : compact run = run.head?.toList ++ live run.tail := by
  cases run <;> rfl

namespace Block

/-- `c` is the block without the tombstones behind its first record; the flag tells whether there
were any. -/
structure Compacts (b : Block) (shrank : Bool) (c : Block) : Prop where
  wellFormed : c.WellFormed
  run : c.run = b.run.head?.toList ++ Run.live b.run.tail
  /-- The bytes in use are those of these records, each as it was. -/
  data : c.page.data = Run.encode (b.run.head?.toList ++ Run.live b.run.tail)
  page : b.page.compact b.tuning true = .ok (shrank, c.page)
  used : c.used + Run.size (b.run.tail.filter (·.deleted)) = b.used
  recordCount : c.recordCount + (b.run.tail.filter (·.deleted)).length = b.recordCount
  deletedCount : c.deletedCount + (b.run.tail.filter (·.deleted)).length = b.deletedCount
  shrank_iff : shrank = true ↔ ∃ r ∈ b.run.tail, r.deleted = true
  stamp : shrank = true → c.stamp = b.stamp + 1
  unchanged : shrank = false → c = b
  region : c.lease = b.lease ∧ c.tuning = b.tuning ∧ c.counted = b.counted

section

variable {b c : Block} {l : Ledger}

theorem Compacts.live_behind {shrank : Bool} (compacts : b.Compacts shrank c) :
    ∀ r ∈ c.run.tail, r.deleted = false := by
  rw [compacts.run]
  cases b.run with
  | nil => nofun
  | cons first rest => exact fun r member => (Run.mem_live.mp member).2

theorem compact_of_not_shrank {force : Bool} (idle : (b.compact l force).1 = false) :
    b.compact l force = (false, b, l) := by
  rcases compact_cases b l force with same | removed
  · exact same
  · rw [removed] at idle
    contradiction

theorem compact_of_shrank {force : Bool} (shrank : (b.compact l force).1 = true) :
    (b.compact l force).2.1 = b.compacted := by
  rcases compact_cases b l force with same | removed
  · rw [same] at shrank
    contradiction
  · rw [removed]

theorem counted_compact (b : Block) (l : Ledger) (force : Bool) :
    (b.compact l force).2.1.counted = b.counted := by
  rcases compact_cases b l force with same | removed
  · rw [same]
  · rw [removed]
    rfl

theorem WellFormed.shrank_iff (wf : b.WellFormed) (l : Ledger) :
    (b.compact l true).1 = true ↔ Run.removable b.run ≠ [] := by
  constructor
  · intro shrank clean
    rw [compact_of_removable_nil clean] at shrank
    contradiction
  · intro littered
    cases shrank : (b.compact l true).1 with
    | true => rfl
    | false =>
        have run_eq := wf.run_compact_force l
        rw [compact_of_not_shrank shrank] at run_eq
        exact absurd (run_eq ▸ Run.removable_compact b.run) littered

theorem compact_unforced_eq (b : Block) (l : Ledger) :
    b.compact l false = if b.wantsCompaction then b.compact l true else (false, b, l) := by
  cases wants : b.wantsCompaction <;> simp [compact, wants]

theorem answers_compact_of_removable_nil (clean : Run.removable b.run = []) (l : Ledger)
    (flags : List Bool) :
    b.answers l (flags.map .compact) = (flags.map fun _ => .ok (.flag false), b, l) := by
  have idle (force : Bool) : b.compact l force = (false, b, l) := by
    cases force with
    | true => exact compact_of_removable_nil clean
    | false => rw [compact_unforced_eq, compact_of_removable_nil clean, ite_self]
  induction flags with
  | nil => rfl
  | cons force flags ih => simp only [List.map_cons, answers, answer, idle, ih]

theorem WellFormed.compacts (wf : b.WellFormed) (l : Ledger) :
    b.Compacts (b.compact l true).1 (b.compact l true).2.1 := by
  have after := wf.compact l true
  have run_eq := wf.run_compact_force l
  have sizes := Run.size_compact_add_size_removable b.run
  have lengths := Run.length_compact_add_length_removable b.run
  have tombs := Run.tombstones_compact_add_length_removable b.run
  exact
    { wellFormed := after
      run := run_eq.trans (Run.compact_eq b.run)
      data := by rw [after.data_page, image, run_eq, Run.compact_eq]
      page := wf.compact_page l true
      used := by rw [after.used, run_eq, wf.used]; exact sizes
      recordCount := by rw [after.recordCount, run_eq, wf.recordCount]; exact lengths
      deletedCount := by rw [after.deletedCount, run_eq, wf.deletedCount]; exact tombs
      shrank_iff := (wf.shrank_iff l).trans Run.removable_ne_nil_iff
      stamp := fun shrank => by rw [compact_of_shrank shrank]; rfl
      unchanged := fun idle => by rw [compact_of_not_shrank idle]
      region := ⟨lease_compact l true, tuning_compact l true, counted_compact b l true⟩ }

/-- A forced compaction takes away the tombstones behind the first record and nothing else, one that
is not forced does the same or nothing, and after either there is nothing left for another. -/
theorem WellFormed.compact_settles (wf : b.WellFormed) (l : Ledger) :
    b.Compacts (b.compact l true).1 (b.compact l true).2.1
      ∧ ((b.compact l true).1 = false → (b.compact l true).2.2 = l)
      ∧ (b.compact l false = (false, b, l) ∨ b.compact l false = b.compact l true)
      ∧ ∀ force, force = true ∨ (b.compact l force).1 = true →
        ∀ (l' : Ledger) (flags : List Bool),
          (b.compact l force).2.1.answers l' (flags.map .compact)
            = (flags.map fun _ => .ok (.flag false), (b.compact l force).2.1, l') := by
  have unforced := compact_unforced_eq b l
  refine ⟨wf.compacts l, ?_, ?_, ?_⟩
  · intro idle
    rw [compact_of_not_shrank idle]
  · rw [unforced]
    cases b.wantsCompaction with
    | true => exact .inr rfl
    | false => exact .inl rfl
  · intro force ran l' flags
    have forced : b.compact l force = b.compact l true := by
      cases force with
      | true => rfl
      | false =>
          rw [unforced] at ran ⊢
          cases wants : b.wantsCompaction <;> simp [wants] at ran ⊢
    rw [forced]
    refine answers_compact_of_removable_nil ?_ l' flags
    rw [wf.run_compact_force]
    exact Run.removable_compact b.run

end

/-- A block with a tombstone at its head and another behind a live record. -/
def overgrown : Block :=
  { scratch 64 ⟨⟨256⟩, 0.25, 0.5⟩ with
    records := #[⟨[1], List.replicate 5 0, true⟩, ⟨[2], List.replicate 9 0, false⟩,
      ⟨[3], List.replicate 5 0, true⟩]
    used := 34
    recordCount := 3
    deletedCount := 2 }

theorem compact_settles_overgrown :
    overgrown.Compacts true (overgrown.compact (.create false) true).2.1
      ∧ (overgrown.compact (.create false) true).2.1.deletedCount = 1
      ∧ ((overgrown.compact (.create false) true).2.1.answers (.create false)
        ([true, false].map .compact)).1 = [.ok (.flag false), .ok (.flag false)] := by
  obtain ⟨compacts, _, _, further⟩ :=
    WellFormed.compact_settles (b := overgrown) (by decide) (.create false)
  have shrank : (overgrown.compact (.create false) true).1 = true := rfl
  rw [shrank] at compacts
  have left : (overgrown.compact (.create false) true).2.1.deletedCount + 1 = 2 :=
    compacts.deletedCount
  exact ⟨compacts, Nat.add_right_cancel left,
    congrArg Prod.fst (further true (.inl rfl) (.create false) [true, false])⟩

end Block

end OrderedStore
