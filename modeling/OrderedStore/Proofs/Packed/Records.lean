import OrderedStore.Proofs.Packed.Rewrites
import OrderedStore.Proofs.Store.Searches

/-! # Chunks among the records of a store

Records of all user keys lie in one run. What a user key is shown and what it changes concerns its
own chunks only, whatever lies beside them.
-/

namespace OrderedStore.Packed

/-- The chunks of a user key as they lie in a run of live records. -/
structure Stores (live : Run) (common : Bytes) (cs : List Chunk) : Prop where
  laid : Laid common cs
  records : live.filter (isChunkOf ·.key common) = cs.map Chunk.record
  short : ∀ c ∈ cs, encodedSize c.elements ≤ Record.maxValue

/-- The writes that take a field out of its chunk. -/
def removal (field : Bytes) (c : Chunk) : List Change :=
  if (erase field c.elements).isEmpty then [.delete c.key] else [(c.without field).put]

section

variable {common field : Bytes} {low high new : List Chunk} {old : Option Chunk} {c : Chunk}

theorem map_record_toList (old : Option Chunk) :
    old.toList.map Chunk.record = (old.map Chunk.record).toList := by
  cases old <;> rfl

theorem change_put (below : ∀ x ∈ low, x.key < c.key) (same : ∀ x ∈ old, x.key = c.key)
    (above : ∀ x ∈ high, c.key < x.key) :
    Run.change ((low ++ (old.toList ++ high)).map Chunk.record) c.put
      = (low ++ c :: high).map Chunk.record := by
  have low_below : ∀ r ∈ low.map Chunk.record, r.key < c.record.key := by
    intro r member
    obtain ⟨x, inside, rfl⟩ := List.mem_map.mp member
    exact below x inside
  have old_same : ∀ r ∈ old.map Chunk.record, r.key = c.record.key := by
    intro r member
    obtain ⟨x, inside, rfl⟩ := Option.map_eq_some_iff.mp member
    exact same x inside
  have high_above : ∀ r ∈ high.map Chunk.record, c.record.key < r.key := by
    intro r member
    obtain ⟨x, inside, rfl⟩ := List.mem_map.mp member
    exact above x inside
  rw [List.map_append, List.map_append, map_record_toList, List.map_append, List.map_cons]
  exact Ascending.inserted_append low_below old_same high_above

theorem change_delete (below : ∀ x ∈ low, x.key < c.key) (above : ∀ x ∈ high, c.key < x.key) :
    Run.change ((low ++ ([c] ++ high)).map Chunk.record) (.delete c.key)
      = (low ++ high).map Chunk.record := by
  have low_below : ∀ r ∈ low.map Chunk.record, r.key < c.key := by
    intro r member
    obtain ⟨x, inside, rfl⟩ := List.mem_map.mp member
    exact below x inside
  have high_above : ∀ r ∈ high.map Chunk.record, c.key < r.key := by
    intro r member
    obtain ⟨x, inside, rfl⟩ := List.mem_map.mp member
    exact above x inside
  have gone : ([c].map Chunk.record).filter (·.key ≠ c.key) = [] := by
    simp [Chunk.record, Record.live]
  rw [List.map_append, List.map_append, List.map_append, Run.change,
    Ascending.filter_ne_between low_below high_above, gone, List.nil_append]

theorem keys_around {cs : List Chunk} (asc : Ascending Chunk.key cs) (eq : cs = low ++ c :: high) :
    (∀ x ∈ low, x.key < c.key) ∧ ∀ x ∈ high, c.key < x.key := by
  rw [eq] at asc
  obtain ⟨_, rest, between⟩ := List.pairwise_append.mp asc
  exact ⟨fun x member => between x member c List.mem_cons_self, (List.pairwise_cons.mp rest).1⟩

/-- By induction on the chunks to be stored; each goes behind those stored before. -/
theorem foldl_put (laid : Laid common (low ++ (new ++ high))) :
    (new.map Chunk.put).foldl Run.change ((low ++ high).map Chunk.record)
      = (low ++ (new ++ high)).map Chunk.record := by
  induction new generalizing low with
  | nil => rfl
  | cons c new ih =>
      have shift : low ++ (c :: new ++ high) = (low ++ [c]) ++ (new ++ high) := by simp
      obtain ⟨below, above⟩ := keys_around laid.ascending_keys rfl
      have none_there : ∀ x ∈ (none : Option Chunk), x.key = c.key := by simp
      have first : Run.change ((low ++ high).map Chunk.record) c.put
          = (low ++ [c] ++ high).map Chunk.record := by
        rw [List.append_assoc]
        exact change_put below none_there fun x member => above x (List.mem_append_right _ member)
      rw [List.map_cons, List.foldl_cons, first, shift]
      exact ih (shift ▸ laid)

theorem foldl_put_over (laid : Laid common (low ++ (c :: new ++ high)))
    (same : ∀ o ∈ old, o.key = c.key) :
    ((c :: new).map Chunk.put).foldl Run.change ((low ++ (old.toList ++ high)).map Chunk.record)
      = (low ++ (c :: new ++ high)).map Chunk.record := by
  obtain ⟨below, above⟩ := keys_around laid.ascending_keys rfl
  have high_above : ∀ x ∈ high, c.key < x.key := fun x member =>
    above x (List.mem_append_right _ member)
  have none_there : ∀ x ∈ (none : Option Chunk), x.key = c.key := by simp
  have fresh := change_put below none_there high_above
  have replaced := change_put below same high_above
  rw [← foldl_put laid, List.map_cons, List.foldl_cons, List.foldl_cons, replaced]
  exact congrArg (List.foldl Run.change · _) fresh.symm

/-- Of the chunks around a field the one found for it is the last that does not lie above it. -/
theorem shown_chunk {cs : List Chunk} (around : Around common field cs low old high) :
    Run.shown? ((low ++ (old.toList ++ high)).map Chunk.record) (common ++ field) true
      = old.map Chunk.record := by
  have high_out : (high.map Chunk.record).filter (·.key ≤ common ++ field) = [] := by
    apply List.filter_eq_nil_iff.mpr
    intro r member
    obtain ⟨c, above, rfl⟩ := List.mem_map.mp member
    have far : ¬c.record.key ≤ common ++ field := List.not_le.mpr (around.above c above)
    simpa using far
  rw [Run.shown?, if_pos rfl, List.map_append, List.map_append, List.filter_append,
    List.filter_append, high_out, List.append_nil]
  cases old with
  | none =>
      rw [around.first rfl]
      rfl
  | some c =>
      have reached : c.record.key ≤ common ++ field := around.reached c rfl
      have here : ((some c).toList.map Chunk.record).filter (·.key ≤ common ++ field)
          = [c.record] := List.filter_cons_of_pos (decide_eq_true reached)
      rw [here, List.getLast?_concat]
      rfl

end

namespace Stores

variable {live live' : Run} {common field : Bytes} {cs low high : List Chunk} {old : Option Chunk}

theorem packable (stores : Stores live common cs) : ∀ c ∈ cs, Packable c.elements := by
  intro c member
  have sound := stores.laid.sound c member
  exact ⟨sound.ascending, sound.named, stores.short c member⟩

theorem fits (stores : Stores live common cs) : ∀ e ∈ elementsOf cs, e.Fits := by
  intro e member
  obtain ⟨c, inside, held⟩ := mem_elementsOf.mp member
  exact (stores.packable c inside).fits e held

theorem record_mem (stores : Stores live common cs) {c : Chunk} (member : c ∈ cs) :
    c.record ∈ live := by
  have stored : c.record ∈ live.filter (isChunkOf ·.key common) :=
    stores.records ▸ List.mem_map_of_mem member
  exact (List.mem_filter.mp stored).1

theorem exists_eq_record (stores : Stores live common cs) {r : Record} (member : r ∈ live)
    (is_chunk : isChunkOf r.key common = true) : ∃ c ∈ cs, r = c.record := by
  have listed : r ∈ live.filter (isChunkOf ·.key common) := List.mem_filter.mpr ⟨member, is_chunk⟩
  rw [stores.records] at listed
  obtain ⟨c, inside, same⟩ := List.mem_map.mp listed
  exact ⟨c, inside, same.symm⟩

theorem at?_eq_none (stores : Stores live common cs) {key : Bytes}
    (is_chunk : isChunkOf key common = true) (absent : ∀ c ∈ cs, c.key ≠ key) :
    live.at? key = none := by
  apply Run.at?_eq_none.mpr
  rintro r member rfl
  obtain ⟨c, inside, rfl⟩ := stores.exists_eq_record member is_chunk
  exact absent c inside rfl

theorem of_describable (laid : Laid common cs)
    (records : live.filter (isChunkOf ·.key common) = cs.map Chunk.record)
    (describable : ∀ r ∈ live, r.Describable) (fits : ∀ e ∈ elementsOf cs, e.Fits) :
    Stores live common cs := by
  refine ⟨laid, records, ?_⟩
  intro c member
  have stored : c.record ∈ live.filter (isChunkOf ·.key common) :=
    records ▸ List.mem_map_of_mem member
  have short := (describable c.record (List.mem_filter.mp stored).1).value
  have length := length_written fun e held => fits e (mem_elementsOf.mpr ⟨c, member, held⟩)
  exact length ▸ short

/-- The record shown for a field is the chunk found for it, or no chunk of the user key. -/
theorem chunkOf?_shown (stores : Stores live common cs) (asc : Ascending Record.key live)
    (around : Around common field cs low old high) :
    chunkOf? common ((live.shown? (common ++ field) true).map fun r => ⟨r.key, r.value⟩)
      = old.map fun c => ⟨c.key, written c.elements⟩ := by
  have closed : ∀ k k', isChunkOf k common = true → k ≤ k' → k' ≤ common ++ field →
      isChunkOf k' common = true := fun _ _ => isChunkOf_between
  have shown := Run.filter_shown? asc closed
  rw [stores.records, around.eq, shown_chunk around] at shown
  -- what lies right below the address may belong to another user key, and counts as none then
  cases record : live.shown? (common ++ field) true with
  | none =>
      rw [record] at shown
      cases old with
      | none => rfl
      | some c => contradiction
  | some r =>
      rw [record, Option.filter_some] at shown
      rw [chunkOf?, Option.map_some, Option.filter_some]
      dsimp only
      cases is_chunk : isChunkOf r.key common with
      | false =>
          rw [is_chunk] at shown
          cases old with
          | none => rfl
          | some c => contradiction
      | true =>
          rw [is_chunk] at shown
          cases old with
          | none => contradiction
          | some c =>
              obtain rfl : r = c.record := Option.some.inj shown
              rfl

/-- Writing a chunk with one field set writes it in the place of the chunk found for the field. -/
theorem records_set (stores : Stores live common cs) {e : Element}
    (around : Around common e.field cs low old high) (named : e.field ≠ [])
    (short : (common ++ e.field).length ≤ Record.maxKey) (threshold : Nat) :
    let new := divided common threshold ((opened common old).including e)
    (∀ c ∈ new.map Chunk.put, isChunkOf c.key common = true)
      ∧ ((new.map Chunk.put).foldl Run.change live).filter (isChunkOf ·.key common)
        = (low ++ (new ++ high)).map Chunk.record := by
  intro new
  obtain ⟨laid, _⟩ := stores.laid.set around named short threshold
  obtain ⟨_, rest, _⟩ := Laid.append_iff.mp laid
  have chunks : ∀ c ∈ new.map Chunk.put, isChunkOf c.key common = true := by
    intro change member
    obtain ⟨c, inside, rfl⟩ := List.mem_map.mp member
    exact (rest.sound c (List.mem_append_left _ inside)).isChunk
  refine ⟨chunks, ?_⟩
  rw [Run.filter_foldl_change_of_pass (isChunkOf · common) chunks, stores.records, around.eq]
  obtain ⟨es, new', first⟩ := exists_divided common threshold ((opened common old).including e)
  have new_eq : new = ⟨(opened common old).key, es⟩ :: new' := first
  rw [new_eq]
  apply foldl_put_over
  · rw [← new_eq]
    exact laid
  · intro o found
    rw [Option.mem_def.mp found]
    rfl

theorem records_delete {c : Chunk} (stores : Stores live common cs)
    (around : Around common field cs low (some c) high) :
    (∀ change ∈ removal field c, isChunkOf change.key common = true)
      ∧ ((removal field c).foldl Run.change live).filter (isChunkOf ·.key common)
        = (low ++ (remaining field c ++ high)).map Chunk.record := by
  have sound := stores.laid.sound c (around.mem c rfl)
  obtain ⟨laid, _⟩ := stores.laid.delete around
  obtain ⟨below, above⟩ := keys_around stores.laid.ascending_keys around.eq
  have chunks : ∀ change ∈ removal field c, isChunkOf change.key common = true := by
    intro change member
    have same : change.key = c.key := by
      rw [removal] at member
      split at member
      · rw [List.mem_singleton.mp member]
        rfl
      · rw [List.mem_singleton.mp member]
        rfl
    rw [same]
    exact sound.isChunk
  refine ⟨chunks, ?_⟩
  rw [Run.filter_foldl_change_of_pass (isChunkOf · common) chunks, stores.records, around.eq]
  rw [remaining] at laid ⊢
  rw [removal]
  by_cases nothing : (erase field c.elements).isEmpty = true
  · rw [if_pos nothing, if_pos nothing]
    exact change_delete below above
  · rw [if_neg nothing] at laid
    rw [if_neg nothing, if_neg nothing]
    apply foldl_put_over laid
    intro o found
    obtain rfl := Option.some.inj found
    rfl

theorem other {user user' : Bytes} {changes : List Change}
    (stores : Stores live (stem user') cs) (asc : Ascending Record.key live)
    (chunks : ∀ c ∈ changes, isChunkOf c.key (stem user) = true) (different : user ≠ user')
    (short : user.length < 4294967296) (short' : user'.length < 4294967296) :
    Stores (changes.foldl Run.change live) (stem user') cs := by
  have apart : ∀ c ∈ changes, isChunkOf c.key (stem user') = false := by
    intro c member
    apply Bool.eq_false_iff.mpr
    intro is_chunk
    exact different (eq_of_isChunkOf short short' (chunks c member) is_chunk)
  refine ⟨stores.laid, ?_, stores.short⟩
  rw [Run.filter_foldl_change_of_fail (isChunkOf · (stem user')) asc apart]
  exact stores.records

end Stores

end OrderedStore.Packed
