import OrderedStore.Proofs.Packed.Written
import OrderedStore.Proofs.Store.Walks

/-! # The parts of a user key

Each chunk of a user key is in charge of the fields from its marker up to the marker of the next
chunk. On a store that is written to through packed maps alone nothing else lies under the common
part of the chunk keys, so that the search for a field ends at the chunk in charge of it, and a chunk
that falls in two puts its upper half where there was nothing.
-/

namespace OrderedStore.Packed

/-- A chunk told by its marker. -/
structure Part where
  marker : Bytes
  elements : List Element
deriving Repr, DecidableEq

/-- The part that a chunk is of its user key. -/
def Chunk.part (common : Bytes) (c : Chunk) : Part := ⟨c.key.drop common.length, c.elements⟩

/-- All that lies under the common part of a user key, as chunks with ranges of fields: none of a
chunk's fields comes before its marker, and all come before the next one. -/
structure Parted (live : Run) (common : Bytes) (parts : List Part) : Prop where
  records : (live.filter (common.isPrefixOf ·.key)).map (fun r => (r.key, parse r.value))
    = parts.map fun part => (common ++ part.marker, .ok part.elements)
  ordered : Ascending Part.marker parts
  marked : ∀ part ∈ parts, part.marker ≠ []
  filled : ∀ part ∈ parts, part.elements ≠ []
  least : ∀ part ∈ parts, ∀ e ∈ part.elements, part.marker ≤ e.field
  apart : parts.Pairwise fun part next => ∀ e ∈ part.elements, e.field < next.marker

/-- A part that may hold a field: the field lies at or above its marker, and below all later
ones. -/
structure MayHold (parts : List Part) (field : Bytes) (part : Part) : Prop where
  mem : part ∈ parts
  reached : part.marker ≤ field
  before : ∀ next ∈ parts, part.marker < next.marker → field < next.marker

section

variable {live : Run} {user common field : Bytes} {cs : List Chunk} {parts : List Part}

theorem Chunk.Sound.key_eq {c : Chunk} (sound : c.Sound common) :
    c.key = common ++ (c.part common).marker := by
  obtain ⟨marker, _, key_eq⟩ := isChunkOf_iff.mp sound.isChunk
  rw [Chunk.part, key_eq, List.drop_left]

/-- Where all records are chunks, what lies under the common part is the chunks. -/
theorem AllChunks.filter_prefix {P : Bytes → Chunk → Prop} (all : AllChunks P live)
    (short : user.length < 4294967296) :
    live.filter ((stem user).isPrefixOf ·.key) = live.filter (isChunkOf ·.key (stem user)) := by
  apply List.filter_congr
  intro r member
  obtain ⟨user', short', is_chunk, _⟩ := all r member
  rw [Bool.eq_iff_iff, List.isPrefixOf_iff_prefix]
  constructor
  · exact isChunkOf_of_prefix short short' is_chunk
  · intro is_chunk
    obtain ⟨marker, _, key_eq⟩ := isChunkOf_iff.mp is_chunk
    exact key_eq ▸ List.prefix_append _ _

theorem Stores.parted (stores : Stores live common cs)
    (only : live.filter (common.isPrefixOf ·.key) = live.filter (isChunkOf ·.key common)) :
    Parted live common (cs.map (Chunk.part common)) := by
  have keys : ∀ c ∈ cs, c.key = common ++ (c.part common).marker := fun c member =>
    (stores.laid.sound c member).key_eq
  refine
    { records := ?_
      ordered := ?_
      marked := ?_
      filled := ?_
      least := ?_
      apart := ?_ }
  · rw [only, stores.records, List.map_map, List.map_map]
    apply List.map_congr_left
    intro c member
    have read : parse c.record.value = .ok c.elements := (stores.packable c member).parse_written
    rw [Function.comp_apply, Function.comp_apply, read, ← keys c member]
    rfl
  · rw [Ascending, List.pairwise_map]
    apply stores.laid.ascending_keys.imp_of_mem
    intro c c' member member' less
    rw [keys c member, keys c' member'] at less
    exact Bytes.append_lt_append_iff.mp less
  · intro part member
    obtain ⟨c, inside, rfl⟩ := List.mem_map.mp member
    obtain ⟨marker, filled, key_eq⟩ := isChunkOf_iff.mp (stores.laid.sound c inside).isChunk
    rw [keys c inside] at key_eq
    rw [List.append_cancel_left key_eq]
    exact filled
  · intro part member
    obtain ⟨c, inside, rfl⟩ := List.mem_map.mp member
    exact (stores.laid.sound c inside).filled
  · intro part member e held
    obtain ⟨c, inside, rfl⟩ := List.mem_map.mp member
    have least := (stores.laid.sound c inside).least e held
    rw [keys c inside] at least
    exact Bytes.append_le_append_iff.mp least
  · rw [List.pairwise_map]
    apply stores.laid.apart.imp_of_mem
    intro c c' _ member' apart e held
    have less := apart e held
    rw [keys c' member'] at less
    exact Bytes.append_lt_append_iff.mp less

namespace Parted

theorem mayHold (parted : Parted live common parts) {part : Part} (member : part ∈ parts)
    {e : Element} (held : e ∈ part.elements) : MayHold parts e.field part := by
  refine ⟨member, parted.least part member e held, ?_⟩
  intro next inside more
  obtain ⟨low, high, rfl⟩ := List.append_of_mem member
  obtain ⟨_, ordered, across⟩ := List.pairwise_append.mp parted.ordered
  obtain ⟨_, apart, _⟩ := List.pairwise_append.mp parted.apart
  rcases List.mem_append.mp inside with earlier | rest
  · exact absurd more (List.lt_asymm (across next earlier part List.mem_cons_self))
  · rcases List.mem_cons.mp rest with rfl | later
    · exact absurd more (List.lt_irrefl _)
    · exact (List.pairwise_cons.mp apart).1 next later e held

theorem exists_record (parted : Parted live common parts) {part : Part} (member : part ∈ parts) :
    ∃ r ∈ live, r.key = common ++ part.marker := by
  have listed : (common ++ part.marker, (.ok part.elements : Except Corruption _))
      ∈ parts.map fun part => (common ++ part.marker, .ok part.elements) :=
    List.mem_map_of_mem member
  rw [← parted.records] at listed
  obtain ⟨r, inside, same⟩ := List.mem_map.mp listed
  exact ⟨r, (List.mem_filter.mp inside).1, (Prod.mk.inj same).1⟩

theorem exists_part (parted : Parted live common parts) {r : Record} (member : r ∈ live)
    (starts : common <+: r.key) : ∃ part ∈ parts, r.key = common ++ part.marker := by
  have inside : r ∈ live.filter (common.isPrefixOf ·.key) :=
    List.mem_filter.mpr ⟨member, List.isPrefixOf_iff_prefix.mpr starts⟩
  have listed := List.mem_map_of_mem (f := fun r : Record => (r.key, parse r.value)) inside
  rw [parted.records] at listed
  obtain ⟨part, inside, same⟩ := List.mem_map.mp listed
  exact ⟨part, inside, (Prod.mk.inj same).1.symm⟩

/-- The record found for a field is the part that may hold the field, if there is one. -/
theorem mayHold_iff (parted : Parted live common parts) {record : Option Record}
    (finds : live.Finds (common ++ field) true record) (part : Part) :
    MayHold parts field part
      ↔ part ∈ parts ∧ ∃ r, record = some r ∧ r.key = common ++ part.marker := by
  constructor
  · rintro ⟨member, reached, before⟩
    refine ⟨member, ?_⟩
    obtain ⟨r, inside, key_eq⟩ := parted.exists_record member
    have at_address : r.key ≤ common ++ field :=
      key_eq ▸ Bytes.append_le_append_iff.mpr reached
    cases finds with
    | noneBelow none_below => exact absurd (none_below r inside) (List.not_lt.mpr at_address)
    | @greatest r' inside' reached' greatest =>
        have above : common ++ part.marker ≤ r'.key := key_eq ▸ greatest r inside at_address
        obtain ⟨next, listed, next_key⟩ :=
          parted.exists_part inside' (Bytes.prefix_of_between above reached')
        rw [next_key] at above reached'
        refine ⟨r', rfl, ?_⟩
        by_cases more : part.marker < next.marker
        · exact absurd (before next listed more)
            (List.not_lt.mpr (Bytes.append_le_append_iff.mp reached'))
        · rw [next_key, List.le_antisymm (List.not_lt.mp more)
            (Bytes.append_le_append_iff.mp above)]
  · rintro ⟨member, r, rfl, key_eq⟩
    cases finds with
    | greatest inside reached greatest =>
        rw [key_eq] at reached greatest
        refine ⟨member, Bytes.append_le_append_iff.mp reached, ?_⟩
        intro next listed more
        obtain ⟨r', inside', next_key⟩ := parted.exists_record listed
        apply List.not_le.mp
        intro at_field
        have no_more := greatest r' inside' (next_key ▸ Bytes.append_le_append_iff.mpr at_field)
        rw [next_key] at no_more
        exact List.not_le.mpr more (Bytes.append_le_append_iff.mp no_more)

end Parted

end

/-- When a set asks for two chunks, there is nothing yet under the key of the upper one. -/
theorem AsksSet.fresh {s : Store} {fields : Contents} {user field value : Bytes} {threshold : Nat}
    {changes : List Change} (asks : AsksSet s fields user field value threshold changes)
    {left right : Change} (two : changes = [left, right]) :
    left.key < right.key ∧ s.liveRecords.at? right.key = none := by
  cases asks with
  | nothing => contradiction
  | @chunk cs low high old addressable fits located =>
      obtain ⟨laid, _⟩ := Holds.set_layout located addressable fits threshold
      rcases divided_cases (stem user) threshold ((opened (stem user) old).including ⟨field, value⟩)
        with whole | ⟨lower, first, upper, _, _, halved⟩
      · simp [whole] at two
      · rw [halved] at two laid
        obtain ⟨rfl, rest⟩ := List.cons.inj two
        obtain ⟨rfl, _⟩ := List.cons.inj rest
        obtain ⟨below, behind⟩ := keys_around laid.ascending_keys rfl
        have less : (opened (stem user) old).key < stem user ++ first.field :=
          behind ⟨stem user ++ first.field, first :: upper⟩ (by simp)
        obtain ⟨_, tail, _⟩ := List.pairwise_append.mp laid.ascending_keys
        obtain ⟨_, tail⟩ := List.pairwise_cons.mp tail
        obtain ⟨above, _⟩ := List.pairwise_cons.mp tail
        have upper_sound := laid.sound ⟨stem user ++ first.field, first :: upper⟩ (by simp)
        refine ⟨less, located.stores.at?_eq_none upper_sound.isChunk ?_⟩
        intro c inside
        rw [located.around.eq] at inside
        rcases List.mem_append.mp inside with earlier | rest
        · exact Std.ne_of_lt (List.lt_trans (below c earlier) less)
        · rcases List.mem_append.mp rest with here | later
          · rw [Option.mem_toList.mp here] at less
            exact Std.ne_of_lt less
          · exact (Std.ne_of_lt (above c later)).symm

/-- The chunks of a user key in a store: what lies under the common part, where the search for a
field ends, and where a chunk goes that another one is split from. -/
structure Ranges (s : Store) (user common : Bytes) (parts : List Part) : Prop where
  parted : Parted s.liveRecords common parts
  holder : ∀ part ∈ parts, ∀ e ∈ part.elements, MayHold parts e.field part
  lands : ∀ field : Bytes, ∃ anchor record, s.locate (common ++ field) true = .ok (anchor, record)
    ∧ ∀ part, MayHold parts field part
      ↔ part ∈ parts ∧ ∃ r, record = some r ∧ r.key = common ++ part.marker
  fresh : ∀ {field value : Bytes} {threshold : Nat} {op : Operation SetReport}
    {left right : Change}, setField user field value threshold = .ok op →
    (s.execute op).changes.toList = [left, right] →
    left.key < right.key ∧ s.liveRecords.at? right.key = none

namespace Map.Reachable

variable {o : OrderedStore.Options} {m : Map}

theorem allChunks (reachable : Reachable o m) :
    AllChunks (fun _ _ => True) m.store.liveRecords := by
  induction reachable with
  | created opened made =>
      obtain ⟨_, _, nothing⟩ := Store.WellFormed.of_create opened
      rw [store_of_create made, nothing]
      exact .nil _
  | set user field value before ih =>
      obtain ⟨_, holds⟩ := before.exists_holds
      obtain ⟨_, asks, yields⟩ := holds.exists_asks_set user field value
      exact ih.set asks yields fun _ _ _ _ _ => trivial
  | delete user field before ih =>
      obtain ⟨_, holds⟩ := before.exists_holds
      obtain ⟨_, asks, yields⟩ := holds.exists_asks_delete user field
      exact ih.remove asks yields fun _ _ _ _ => trivial
  | another _ made ih =>
      rw [store_of_create made]
      exact ih

/-- On a store that is written to through packed maps alone the chunks of every user key have ranges
of their own, which decide where a field is looked up and where it is stored. -/
theorem exists_ranges (reachable : Reachable o m) {user common : Bytes}
    (named : chunkPrefix user = .ok common) : ∃ parts, Ranges m.store user common parts := by
  obtain ⟨short, rfl⟩ := chunkPrefix_eq_ok named
  obtain ⟨c, holds⟩ := reachable.exists_holds
  obtain ⟨cs, stores, _⟩ := holds.chunks user short
  have wf := holds.wellFormed
  have parted := stores.parted (reachable.allChunks.filter_prefix short)
  refine ⟨cs.map (Chunk.part (stem user)), parted, fun part => parted.mayHold, ?_, ?_⟩
  · intro field
    obtain ⟨anchor, located⟩ := wf.exists_locate (stem user ++ field) true
    exact ⟨anchor, _, located,
      parted.mayHold_iff (Run.finds_shown? wf.ascending (stem user ++ field) true)⟩
  · intro field value threshold op left right named two
    exact (holds.asks_set named).fresh two

/-- A chunk that takes more than five bytes falls in two, so that two fields make two chunks. -/
theorem exists_ranges_after_split : ∃ s m, Store.create {} = .ok s
    ∧ create s { maxValueSize := 5 } = .ok m ∧ chunkPrefix [117] = .ok (stem [117])
    ∧ (∃ parts, Ranges ((m.set [117] [97] [49]).2.set [117] [98] [50]).2.store [117]
      (stem [117]) parts)
    ∧ ((m.set [117] [97] [49]).2.set [117] [98] [50]).2.store.size = 2 := by
  obtain ⟨s, opened⟩ : ∃ s, Store.create {} = .ok s := ⟨_, rfl⟩
  obtain ⟨m, made⟩ : ∃ m, create s { maxValueSize := 5 } = .ok m := ⟨_, rfl⟩
  have reachable : Reachable {} m := .created opened made
  refine ⟨s, m, opened, made, rfl, exists_ranges (.set _ _ _ (.set _ _ _ reachable)) rfl, ?_⟩
  cases opened
  cases made
  decide +kernel

end Map.Reachable

end OrderedStore.Packed
