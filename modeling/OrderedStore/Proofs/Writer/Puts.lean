import OrderedStore.Proofs.Writer.Writes

/-! # Puts through splits

A put into a full block splits it and goes on with the part that owns the key, which has fewer
records. A block of one record cannot be split: the key then gets an empty block of its own, below
the record or above it. Above it, the store is well-formed again only when the record is in its
place, so that this case is one exchange of entries.
-/

namespace OrderedStore

theorem Block.Enrolled.ladder_max {o : Options} {b : Block} (enrolled : b.Enrolled o.tuning) :
    b.ladder.max = o.largestBlock := by
  rw [Block.ladder, enrolled.tuning]
  rfl

namespace Writer

section

variable {w : Writer} {low high : List (Entry Published)} {e : Entry Published} {key value : Bytes}

theorem putWithin_done {span : Span} {b b' : Block} {l' : Ledger} (splits : Nat)
    (done : b.put w.store.ledger key value = .ok (.done, b', l')) :
    putWithin key value splits w span b = (.ok (), w.replace span b' l') := by
  cases splits <;> simp only [putWithin, done]

/-- A put into the block that owns the key is done, or the block is full. -/
theorem Ready.put_step (ready : w.Ready) (owns : w.store.directory.Owns key low e high)
    (describable : (Record.live key value).Describable)
    (small : (Record.live key value).size ≤ w.store.options.largestBlock) :
    (∃ w', (∀ splits,
          putWithin key value splits w (.ofEntry e high) e.value.block = (.ok (), w'))
        ∧ w.Follows w' (Ascending.inserted Record.key (Record.live key value) w.store.liveRecords))
      ∨ ∃ (p : Block) (pl : Ledger),
        e.value.block.put w.store.ledger key value = .ok (.needsSplit, p, pl)
        ∧ p.Enrolled w.store.options.tuning ∧ Run.Prunes e.value.block.run p.run
        ∧ pl.Balanced w.store.directory.size (p :: blocksOf (low ++ high))
        ∧ p.run ≠ [] ∧ ∀ r, p.run = [r] → r.key ≠ key := by
  obtain ⟨_, fits, _⟩ := ready.wellFormed.fits owns.eq
  rw [← fits.enrolled.ladder_max] at small
  obtain ⟨p, pl, enrolled, prunes, balanced, ⟨room, done⟩ | ⟨full, stuck⟩⟩ :=
    Block.put_cases fits.enrolled describable small (ready.wellFormed.balanced_at owns.eq)
  · exact .inl ⟨_, fun splits => putWithin_done splits done,
      ready.follows_stored owns describable enrolled prunes balanced room⟩
  · have small' : (Record.live key value).size ≤ p.ladder.max := by
      rw [enrolled.ladder_max, ← fits.enrolled.ladder_max]
      exact small
    obtain ⟨filled, other⟩ := enrolled.sound.of_full small' full
    exact .inr ⟨p, pl, stuck, enrolled, prunes, balanced, filled, other⟩

/-- Cutting the owner of a key leaves one of the parts as its owner. -/
theorem Ready.follows_cut (ready : w.Ready) (owns : w.store.directory.Owns key low e high)
    {lower upper : Block} {l : Ledger} {first : Bytes}
    (prunes : Run.Prunes e.value.block.run (lower.run ++ upper.run))
    (enrolled_lower : lower.Enrolled w.store.options.tuning)
    (enrolled_upper : upper.Enrolled w.store.options.tuning)
    (starts : lower.run ≠ [] ∨ e.anchor = [])
    (first_eq : upper.run.head?.map (·.key) = some first) (less : e.anchor < first)
    (balanced : l.Balanced w.store.directory.size (lower :: upper :: blocksOf (low ++ high))) :
    w.Follows ((w.replace (.ofEntry e high) upper l).addBelow (.ofEntry e high) first upper lower)
        w.store.liveRecords
      ∧ ∃ low' e' high', ((w.replace (.ofEntry e high) upper l).addBelow (.ofEntry e high) first
            upper lower).store.directory.Owns key low' e' high'
          ∧ (e'.value.block = lower ∧ key < first ∨ e'.value.block = upper ∧ first ≤ key) := by
  obtain ⟨_, fits, _⟩ := ready.wellFormed.fits owns.eq
  obtain ⟨left, right⟩ := fits.cut prunes enrolled_lower enrolled_upper starts first_eq less
    w.store.nextId
  have live : Run.live e.value.block.run = Run.live lower.run ++ Run.live upper.run := by
    rw [← prunes.live, Run.live_append]
  obtain ⟨follows, after⟩ := ready.follows_addBelow owns.eq left right live balanced
  refine ⟨follows, ?_⟩
  by_cases lies_below : key < first
  · refine ⟨low, _, _, ⟨after, owns.least, ?_⟩, .inl ⟨rfl, lies_below⟩⟩
    rintro _ ⟨⟩
    exact lies_below
  · have least := List.not_lt.mp lies_below
    refine ⟨low ++ [⟨e.anchor, ⟨w.store.nextId, lower⟩⟩], ⟨first, ⟨e.value.id, upper⟩⟩, high,
      ⟨?_, least, owns.below⟩, .inr ⟨rfl, least⟩⟩
    rw [after, List.append_assoc]
    rfl

/-- A block of one record is left as it is, and the key gets an empty block below the record: that
happens only at the left edge, where a block may start above its anchor. -/
theorem Ready.exists_split_single (ready : w.Ready) (owns : w.store.directory.Owns key low e high)
    {p : Block} {l l' : Ledger} {r : Record} (enrolled : p.Enrolled w.store.options.tuning)
    (prunes : Run.Prunes e.value.block.run p.run)
    (balanced : l'.Balanced w.store.directory.size (p :: blocksOf (low ++ high)))
    (single : p.run = [r]) (same : p.split l false = ⟨.ok none, p, l'⟩) (less : key < r.key) :
    ∃ w', w.split (.ofEntry e high) p l key = (.ok (), w')
      ∧ w.Follows w' w.store.liveRecords
      ∧ ∃ low' e' high', w'.store.directory.Owns key low' e' high' ∧ e'.value.block.run = [] := by
  obtain ⟨_, fits, _⟩ := ready.wellFormed.fits owns.eq
  have first_eq : p.firstKey? = some r.key := by rw [Block.firstKey?_eq, single]; rfl
  have leftmost : e.anchor = [] := by
    rcases fits.starts with leftmost | head
    · exact leftmost
    · rw [← prunes.head, single] at head
      have at_anchor : r.key = e.anchor := Option.some.inj head
      exact absurd (at_anchor ▸ less) (List.not_lt.mpr owns.least)
  let fresh := Block.create (l'.arena.allocate w.store.options.newBlock).1
    w.store.options.tuning true
  have pruned : Run.Prunes e.value.block.run (fresh.run ++ p.run) := prunes
  obtain ⟨follows, low', e', high', owns', part⟩ :=
    ready.follows_cut owns pruned (enrolled_fresh (l := l') ready.wellFormed) enrolled
      (.inr leftmost) (by rw [single]; rfl) (Std.lt_of_le_of_lt owns.least less)
      (balanced_fresh balanced w.store.options.tuning w.store.options.newBlock)
  refine ⟨_, ?_, follows, low', e', high', owns', ?_⟩
  · simp only [split, same, first_eq, if_neg (List.lt_asymm less)]
    rfl
  · rcases part with ⟨in_fresh, _⟩ | ⟨_, reached⟩
    · rw [in_fresh]
      rfl
    · exact absurd less (List.not_lt.mpr reached)

/-- A block of several records falls into two, and the one that owns the key has fewer of them. -/
theorem Ready.exists_split_halves (ready : w.Ready) (owns : w.store.directory.Owns key low e high)
    {p lower upper : Block} {l l' : Ledger} (prunes : Run.Prunes e.value.block.run p.run)
    (parts : p.split l false = ⟨.ok (some lower), upper, l'⟩)
    (enrolled_lower : lower.Enrolled w.store.options.tuning)
    (enrolled_upper : upper.Enrolled w.store.options.tuning)
    (balanced : l'.Balanced w.store.directory.size (lower :: upper :: blocksOf (low ++ high)))
    (some_lower : lower.run ≠ []) (some_upper : upper.run ≠ [])
    (run_eq : p.run = lower.run ++ upper.run) :
    ∃ w', w.split (.ofEntry e high) p l key = (.ok (), w')
      ∧ w.Follows w' w.store.liveRecords
      ∧ ∃ low' e' high', w'.store.directory.Owns key low' e' high'
        ∧ e'.value.block.run.length < p.run.length := by
  obtain ⟨_, fits, _⟩ := ready.wellFormed.fits owns.eq
  cases upper_eq : upper.run with
  | nil => exact absurd upper_eq some_upper
  | cons r rest =>
      have first_eq : upper.firstKey? = some r.key := by rw [Block.firstKey?_eq, upper_eq]; rfl
      have pruned : Run.Prunes e.value.block.run (lower.run ++ upper.run) := run_eq ▸ prunes
      have less : e.anchor < r.key := fits.anchor_lt some_lower (upper_eq ▸ pruned)
      obtain ⟨follows, low', e', high', owns', part⟩ :=
        ready.follows_cut owns pruned enrolled_lower enrolled_upper (.inl some_lower)
          (by rw [upper_eq]; rfl) less balanced
      refine ⟨_, by simp only [split, parts, first_eq], follows, low', e', high', owns', ?_⟩
      have lower_pos := List.length_pos_iff.mpr some_lower
      have upper_pos := List.length_pos_iff.mpr some_upper
      rw [run_eq, List.length_append]
      rcases part with ⟨part, _⟩ | ⟨part, _⟩
      · rw [part]
        omega
      · rw [part]
        omega

/-- A full block splits, and the owner of the key has fewer records then, or the key gets a block of
its own above the only record. -/
theorem Ready.exists_split (ready : w.Ready) (owns : w.store.directory.Owns key low e high)
    {p : Block} {l : Ledger} (enrolled : p.Enrolled w.store.options.tuning)
    (prunes : Run.Prunes e.value.block.run p.run)
    (balanced : l.Balanced w.store.directory.size (p :: blocksOf (low ++ high)))
    (filled : p.run ≠ []) (other : ∀ r, p.run = [r] → r.key ≠ key) :
    (∃ w', w.split (.ofEntry e high) p l key = (.ok (), w')
        ∧ w.Follows w' w.store.liveRecords
        ∧ ∃ low' e' high', w'.store.directory.Owns key low' e' high'
          ∧ e'.value.block.run.length < p.run.length)
      ∨ e.anchor < key ∧ (∀ r ∈ p.run, r.key < key) ∧ w.split (.ofEntry e high) p l key =
        (.ok (), (w.replace (.ofEntry e high) p
          { l with arena := (l.arena.allocate w.store.options.newBlock).2 }).addAbove
            (.ofEntry e high) key (Block.create (l.arena.allocate w.store.options.newBlock).1
              w.store.options.tuning true)) := by
  obtain ⟨_, fits, _⟩ := ready.wellFormed.fits owns.eq
  have some_record := List.length_pos_iff.mpr filled
  rcases Block.split_cases enrolled balanced with
    ⟨few, same⟩ | ⟨lower, upper, l', parts, enrolled_lower, enrolled_upper, balanced', some_lower,
      some_upper, run_eq⟩
  · obtain ⟨r, single⟩ := List.length_eq_one_iff.mp (show p.run.length = 1 by omega)
    by_cases lies_above : r.key < key
    · right
      have above : e.anchor ≤ r.key :=
        fits.above r (prunes.subset (single ▸ List.mem_singleton_self r))
      have first_eq : p.firstKey? = some r.key := by rw [Block.firstKey?_eq, single]; rfl
      refine ⟨Std.lt_of_le_of_lt above lies_above, by simpa [single] using lies_above, ?_⟩
      simp only [split, same, first_eq, if_pos lies_above]
      rfl
    · left
      have less : key < r.key :=
        Std.lt_of_le_of_ne (List.not_lt.mp lies_above) (other r single).symm
      obtain ⟨w', parted, follows, low', e', high', owns', empty⟩ :=
        ready.exists_split_single owns enrolled prunes balanced single same less
      exact ⟨w', parted, follows, low', e', high', owns', by rw [empty]; exact some_record⟩
  · left
    exact ready.exists_split_halves owns prunes parts enrolled_lower enrolled_upper balanced'
      some_lower some_upper run_eq

theorem Ready.exists_put_fresh (ready : w.Ready)
    (eq : w.store.directory.toList = low ++ e :: high) (above : e.anchor < key)
    (below : ∀ next ∈ high.head?, key < next.anchor) (covered : w.covers key = true)
    (describable : (Record.live key value).Describable)
    (small : (Record.live key value).size ≤ w.store.options.largestBlock) {p fresh : Block}
    {l : Ledger} (enrolled : p.Enrolled w.store.options.tuning)
    (prunes : Run.Prunes e.value.block.run p.run) (lies_below : ∀ r ∈ p.run, r.key < key)
    (enrolled_fresh : fresh.Enrolled w.store.options.tuning) (empty : fresh.run = [])
    (balanced : l.Balanced w.store.directory.size (fresh :: p :: blocksOf (low ++ high))) :
    ∃ span w',
      ((w.replace (.ofEntry e high) p l).addAbove (.ofEntry e high) key fresh).target key
        = .ok (span, fresh)
      ∧ (∀ splits, putWithin key value splits
          ((w.replace (.ofEntry e high) p l).addAbove (.ofEntry e high) key fresh) span fresh
            = (.ok (), w'))
      ∧ w.Follows w'
        (Ascending.inserted Record.key (Record.live key value) w.store.liveRecords) := by
  let moved := w.replace (.ofEntry e high) p l
  let opened := moved.addAbove (.ofEntry e high) key fresh
  let mine : Entry Published := ⟨key, ⟨w.store.nextId, fresh⟩⟩
  let new := Record.live key value
  have replaced : moved.store.directory.toList = low ++ e.withBlock p :: high :=
    toList_replace eq p l
  have after : opened.store.directory.toList = (low ++ [e.withBlock p]) ++ mine :: high := by
    rw [List.append_assoc]
    exact toList_addAbove replaced above below fresh
  have marked : opened.Marked :=
    marked_addAbove (marked_replace ready.marked eq p l) replaced above below fresh
  have owns : w.store.directory.Owns key low e high := ⟨eq, List.le_of_lt above, below⟩
  have owns' : opened.store.directory.Owns key (low ++ [e.withBlock p]) mine high :=
    ⟨after, List.le_refl key, below⟩
  obtain ⟨found, _⟩ := target_eq marked (covers_addAbove fresh covered) owns'
  rw [← enrolled_fresh.ladder_max] at small
  obtain ⟨q, ql, done, enrolled_q, run_eq, balanced_q⟩ :=
    Block.put_empty enrolled_fresh empty describable small balanced.publish
  obtain ⟨_, fits, _⟩ := ready.wellFormed.fits eq
  have left : (e.withBlock p).Fits w.store.options.tuning (some key) :=
    (fits.pruned prunes enrolled).upTo above lies_below
  have right := Entry.Fits.of_single enrolled_q run_eq owns.inside w.store.nextId
  have follows := ready.follows_addAbove eq fresh l left right balanced_q
  obtain ⟨low_below, high_above⟩ := ready.wellFormed.apart owns
  have at_end : Ascending.inserted Record.key new (Run.live p.run) = Run.live p.run ++ [new] :=
    Ascending.inserted_of_below fun r member => lies_below r (Run.mem_live.mp member).1
  have live : liveOf low ++ (Run.live p.run ++ (Run.live q.run ++ liveOf high))
      = Ascending.inserted Record.key new w.store.liveRecords := by
    rw [Store.liveRecords_at eq, Ascending.inserted_between low_below high_above, ← prunes.live,
      at_end, run_eq, List.append_assoc]
    rfl
  rw [live] at follows
  exact ⟨.ofEntry mine high, _, found, fun splits => putWithin_done splits done, follows⟩

theorem Ready.exists_putWithin (splits : Nat) (ready : w.Ready)
    (owns : w.store.directory.Owns key low e high) (covered : w.covers key = true)
    (describable : (Record.live key value).Describable)
    (small : (Record.live key value).size ≤ w.store.options.largestBlock)
    (enough : e.value.block.run.length ≤ splits) :
    ∃ w', putWithin key value splits w (.ofEntry e high) e.value.block = (.ok (), w')
      ∧ w.Follows w'
        (Ascending.inserted Record.key (Record.live key value) w.store.liveRecords) := by
  -- a block that is full has a record, and its part that owns the key after a split has fewer
  induction splits generalizing w low e high with
  | zero =>
      rcases ready.put_step owns describable small with
        ⟨w', done, follows⟩ | ⟨p, _, _, _, prunes, _, filled, _⟩
      · exact ⟨w', done 0, follows⟩
      · have shorter := prunes.sublist.length_le
        have some_record := List.length_pos_iff.mpr filled
        omega
  | succ splits ih =>
      rcases ready.put_step owns describable small with
        ⟨w', done, follows⟩ | ⟨p, l, stuck, enrolled, prunes, balanced, filled, other⟩
      · exact ⟨w', done (splits + 1), follows⟩
      · rcases ready.exists_split owns enrolled prunes balanced filled other with
          ⟨w₁, parted, follows, low', e', high', owns', fewer⟩ | ⟨above, lies_below, parted⟩
        · have covered' := follows.covers key covered
          obtain ⟨found, _⟩ := target_eq follows.ready.marked covered' owns'
          have shorter := prunes.sublist.length_le
          obtain ⟨w', done, follows'⟩ := ih follows.ready owns' covered'
            (by rw [follows.options]; exact small) (by omega)
          rw [follows.liveRecords] at follows'
          refine ⟨w', ?_, follows.trans follows'⟩
          simp only [putWithin, stuck, parted, found, done]
        · have enrolled_new := enrolled_fresh (l := l) ready.wellFormed
          obtain ⟨span, w', found, done, follows⟩ := ready.exists_put_fresh owns.eq above owns.below
            covered describable small enrolled prunes lies_below enrolled_new rfl
            (balanced_fresh balanced w.store.options.tuning w.store.options.newBlock)
          refine ⟨w', ?_, follows⟩
          simp only [putWithin, stuck, parted, found, done]

/-- A writer stores every record that fits the largest block under a key that it covers. -/
theorem Ready.exists_put (ready : w.Ready) (covered : w.covers key = true)
    (describable : (Record.live key value).Describable)
    (small : (Record.live key value).size ≤ w.store.options.largestBlock) :
    ∃ w', w.put key value = (.ok (), w')
      ∧ w.Follows w'
        (Ascending.inserted Record.key (Record.live key value) w.store.liveRecords) := by
  obtain ⟨low, e, high, owns⟩ := ready.wellFormed.exists_owner key
  obtain ⟨found, _⟩ := target_eq ready.marked covered owns
  obtain ⟨_, fits, _⟩ := ready.wellFormed.fits owns.eq
  have enough := Nat.le_of_eq fits.enrolled.sound.recordCount.symm
  obtain ⟨w', done, follows⟩ :=
    ready.exists_putWithin e.value.block.recordCount owns covered describable small enough
  exact ⟨w', by simp only [put, found, done], follows⟩

end

end Writer

end OrderedStore
