import OrderedStore.Proofs.Writer.Puts

/-! # The rounds of a put

A put tries the block that owns its key, and while that is full it splits it and tries again. Here
these rounds are told without a bound on their number. A put that succeeds within a bound runs
through no more rounds than the bound allows, and each of them adds at most one block.
-/

namespace OrderedStore.Writer

/-- A put that has to split the owner of its key a number of times until there is room. -/
inductive Rounds (key value : Bytes) : Writer → Nat → Writer → Prop where
  | done {w : Writer} {span : Span} {b b' : Block} {l : Ledger} :
      w.target key = .ok (span, b) → b.put w.store.ledger key value = .ok (.done, b', l) →
      Rounds key value w 0 (w.replace span b' l)
  | split {w w₁ w' : Writer} {span : Span} {b full : Block} {l : Ledger} {n : Nat} :
      w.target key = .ok (span, b) → b.put w.store.ledger key value = .ok (.needsSplit, full, l) →
      w.split span full l key = (.ok (), w₁) → Rounds key value w₁ n w' →
      Rounds key value w (n + 1) w'

variable {w w₁ w' : Writer} {span : Span} {b : Block} {l : Ledger} {key value : Bytes}

theorem rounds_of_putWithin {splits : Nat} (found : w.target key = .ok (span, b))
    (stored : putWithin key value splits w span b = (.ok (), w')) :
    ∃ n ≤ splits, Rounds key value w n w' := by
  induction splits generalizing w span b with
  | zero =>
      cases tried : b.put w.store.ledger key value with
      | error cause => simp [putWithin, tried] at stored
      | ok result =>
          obtain ⟨room, b', l⟩ := result
          cases room with
          | needsSplit => simp [putWithin, tried] at stored
          | done =>
              rw [putWithin_done 0 tried] at stored
              cases stored
              exact ⟨0, Nat.le_refl 0, .done found tried⟩
  | succ splits ih =>
      cases tried : b.put w.store.ledger key value with
      | error cause => simp [putWithin, tried] at stored
      | ok result =>
          obtain ⟨room, b', l⟩ := result
          cases room with
          | done =>
              rw [putWithin_done _ tried] at stored
              cases stored
              exact ⟨0, Nat.zero_le _, .done found tried⟩
          | needsSplit =>
              rw [putWithin, tried] at stored
              cases parted : w.split span b' l key with
              | mk result w₁ =>
                  cases result with
                  | error cause => simp [parted] at stored
                  | ok =>
                      cases found₁ : w₁.target key with
                      | error cause => simp [parted, found₁] at stored
                      | ok place =>
                          simp only [parted, found₁] at stored
                          obtain ⟨n, bounded, rounds⟩ := ih found₁ stored
                          exact ⟨n + 1, Nat.succ_le_succ bounded, .split found tried parted rounds⟩

theorem Rounds.putWithin_eq {n splits : Nat} (rounds : Rounds key value w n w')
    (found : w.target key = .ok (span, b)) (enough : n ≤ splits) :
    putWithin key value splits w span b = (.ok (), w') := by
  induction rounds generalizing splits span b with
  | done found' stored =>
      rw [found'] at found
      cases found
      exact putWithin_done splits stored
  | @split w w₁ w' _ _ full l n found' tried parted rest ih =>
      rw [found'] at found
      cases found
      have target₁ : ∃ place, w₁.target key = .ok place := by
        cases rest with
        | done found₁ _ => exact ⟨_, found₁⟩
        | split found₁ _ _ _ => exact ⟨_, found₁⟩
      obtain ⟨place, found₁⟩ := target₁
      cases splits with
      | zero => exact absurd enough (Nat.not_succ_le_zero n)
      | succ splits =>
          rw [putWithin, tried]
          simp only [parted, found₁]
          exact ih found₁ (Nat.le_of_succ_le_succ enough)

theorem isSome_published?_of_target (found : w.target key = .ok (span, b)) :
    (w.store.directory.published? span.anchor).isSome := by
  unfold target at found
  split at found
  · contradiction
  · split at found
    · contradiction
    · next p mine =>
      obtain ⟨rfl, _⟩ := Prod.mk.inj (Except.ok.inj found)
      exact Option.isSome_of_mem (Option.eq_some_of_filter_eq_some mine)

theorem blockCount_replace (used : (w.store.directory.published? span.anchor).isSome) :
    (w.replace span b l).store.blockCount = w.store.blockCount :=
  Directory.size_publish_same used _

theorem blockCount_addBelow_le (used : (w.store.directory.published? span.anchor).isSome)
    (middle : Bytes) (own new : Block) :
    (w.addBelow span middle own new).store.blockCount ≤ w.store.blockCount + 1 := by
  have still := Directory.isSome_published?_publish used middle ⟨span.owner, own⟩
  have same := Directory.size_publish_same still ⟨w.store.nextId, new⟩
  exact Nat.le_trans (Nat.le_of_eq same) (Directory.size_publish_le _ middle _)

theorem blockCount_addAbove_le (middle : Bytes) (new : Block) :
    (w.addAbove span middle new).store.blockCount ≤ w.store.blockCount + 1 :=
  Directory.size_publish_le _ middle _

theorem blockCount_split_le (used : (w.store.directory.published? span.anchor).isSome)
    (parted : w.split span b l key = (.ok (), w₁)) :
    w₁.store.blockCount ≤ w.store.blockCount + 1 := by
  have kept : (w.replace span (b.split l false).block (b.split l false).ledger).store.blockCount
      = w.store.blockCount := blockCount_replace used
  have still := Directory.isSome_published?_publish used span.anchor
    ⟨span.owner, (b.split l false).block⟩
  simp only [Writer.split] at parted
  split at parted
  · simp at parted
  · simp at parted
  · obtain rfl := (Prod.mk.inj parted).2
    exact kept ▸ blockCount_addBelow_le still _ _ _
  · simp at parted
  · obtain rfl := (Prod.mk.inj parted).2
    split
    · exact kept ▸ blockCount_addAbove_le _ _
    · exact kept ▸ blockCount_addBelow_le still _ _ _

theorem Rounds.blockCount_le {n : Nat} (rounds : Rounds key value w n w') :
    w'.store.blockCount ≤ w.store.blockCount + n := by
  induction rounds with
  | done found _ => exact Nat.le_of_eq (blockCount_replace (isSome_published?_of_target found))
  | split found _ parted _ ih =>
      have one := blockCount_split_le (isSome_published?_of_target found) parted
      omega

end OrderedStore.Writer
