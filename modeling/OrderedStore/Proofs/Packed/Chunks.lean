import OrderedStore.Proofs.Packed.Elements
import OrderedStore.Proofs.Packed.Encoding
import OrderedStore.Proofs.Packed.Keys

/-! # The chunks of one user key

The chunks of a user key lie in the order of their fields: none of a chunk's fields comes before its
marker, and all of them come before the marker of the next chunk. The chunk that is found for a
field is therefore the only one that may hold it, and may be rewritten in its place: with a field
more or less, or as two chunks.
-/

namespace OrderedStore.Packed

/-- A chunk of a user key: its key and the elements of its value. -/
structure Chunk where
  key : Bytes
  elements : List Element
deriving Repr, DecidableEq

/-- All elements of some chunks in their order. -/
def elementsOf (cs : List Chunk) : List Element := cs.flatMap (·.elements)

namespace Chunk

/-- The record that a chunk is stored in. -/
def record (c : Chunk) : Record := .live c.key (written c.elements)

/-- The write that stores a chunk. -/
def put (c : Chunk) : Change := .put c.key (written c.elements)

/-- The chunk with an element in its place. -/
def including (c : Chunk) (e : Element) : Chunk := ⟨c.key, insert e c.elements⟩

/-- The chunk without a field. -/
def without (c : Chunk) (field : Bytes) : Chunk := ⟨c.key, erase field c.elements⟩

/-- A chunk whose elements lie in order, at or above its key, under keys that a record can have. -/
structure Sound (c : Chunk) (common : Bytes) : Prop where
  isChunk : isChunkOf c.key common = true
  bounded : c.key.length ≤ Record.maxKey
  filled : c.elements ≠ []
  ascending : Ascending Element.field c.elements
  named : ∀ e ∈ c.elements, e.field ≠ []
  short : ∀ e ∈ c.elements, (common ++ e.field).length ≤ Record.maxKey
  least : ∀ e ∈ c.elements, c.key ≤ common ++ e.field

end Chunk

/-- Chunks of one user key, each with all its fields below the key of the next. -/
structure Laid (common : Bytes) (cs : List Chunk) : Prop where
  sound : ∀ c ∈ cs, c.Sound common
  apart : cs.Pairwise fun c c' => ∀ e ∈ c.elements, common ++ e.field < c'.key

/-- The chunk that a field is written to: the one found for it, or the first chunk if there is
none. -/
def opened (common : Bytes) (old : Option Chunk) : Chunk := old.getD ⟨common ++ firstMarker, []⟩

/-- A chunk as one or, above the threshold, as two. -/
def divided (common : Bytes) (threshold : Nat) (c : Chunk) : List Chunk :=
  match splitAbove? threshold c.elements with
  | none => [c]
  | some i =>
    let marker := ((c.elements.drop i).head?.map (·.field)).getD []
    [⟨c.key, c.elements.take i⟩, ⟨common ++ marker, c.elements.drop i⟩]

/-- What is left of a chunk when a field is taken out of it: nothing, or the chunk without it. -/
def remaining (field : Bytes) (c : Chunk) : List Chunk :=
  if (erase field c.elements).isEmpty then [] else [c.without field]

@[simp] theorem elementsOf_nil : elementsOf [] = [] := rfl

@[simp] theorem elementsOf_cons (c : Chunk) (cs : List Chunk) :
    elementsOf (c :: cs) = c.elements ++ elementsOf cs := List.flatMap_cons

@[simp] theorem elementsOf_append (cs cs' : List Chunk) :
    elementsOf (cs ++ cs') = elementsOf cs ++ elementsOf cs' := List.flatMap_append

theorem mem_elementsOf {cs : List Chunk} {e : Element} :
    e ∈ elementsOf cs ↔ ∃ c ∈ cs, e ∈ c.elements := List.mem_flatMap

namespace Laid

variable {common : Bytes} {cs : List Chunk}

theorem nil (common : Bytes) : Laid common [] := ⟨List.forall_mem_nil _, .nil⟩

theorem singleton {c : Chunk} (sound : c.Sound common) : Laid common [c] :=
  ⟨by simpa using sound, List.pairwise_singleton _ _⟩

/-- The keys of the chunks ascend, since each chunk has an element. -/
theorem ascending_keys (laid : Laid common cs) : Ascending Chunk.key cs := by
  apply laid.apart.imp_of_mem
  intro c c' member _ apart
  obtain ⟨e, inside⟩ := List.exists_mem_of_ne_nil _ (laid.sound c member).filled
  exact Std.lt_of_le_of_lt ((laid.sound c member).least e inside) (apart e inside)

theorem append_iff {cs' : List Chunk} : Laid common (cs ++ cs') ↔ Laid common cs ∧ Laid common cs'
    ∧ ∀ c ∈ cs, ∀ c' ∈ cs', ∀ e ∈ c.elements, common ++ e.field < c'.key := by
  constructor
  · rintro ⟨sound, apart⟩
    obtain ⟨sound, sound'⟩ := List.forall_mem_append.mp sound
    obtain ⟨apart, apart', between⟩ := List.pairwise_append.mp apart
    exact ⟨⟨sound, apart⟩, ⟨sound', apart'⟩, between⟩
  · rintro ⟨laid, laid', between⟩
    exact ⟨List.forall_mem_append.mpr ⟨laid.sound, laid'.sound⟩,
      List.pairwise_append.mpr ⟨laid.apart, laid'.apart, between⟩⟩

end Laid

/-- Chunks around a field: those before the one found for it, that one and those behind. -/
structure Around (common field : Bytes) (cs low : List Chunk) (old : Option Chunk)
    (high : List Chunk) : Prop where
  eq : cs = low ++ (old.toList ++ high)
  first : old = none → low = []
  reached : ∀ c ∈ old, c.key ≤ common ++ field
  above : ∀ c ∈ high, common ++ field < c.key

/-- The chunks before the one that is found for an address. -/
def chunksBefore (address : Bytes) (cs : List Chunk) : List Chunk :=
  (cs.filter (·.key ≤ address)).dropLast

/-- The chunk that is found for an address: the last of those that do not start behind it. -/
def chunkAt? (address : Bytes) (cs : List Chunk) : Option Chunk :=
  (cs.filter (·.key ≤ address)).getLast?

/-- The chunks that start behind an address. -/
def chunksBehind (address : Bytes) (cs : List Chunk) : List Chunk := cs.filter (address < ·.key)

theorem Laid.around {common : Bytes} {cs : List Chunk} (laid : Laid common cs) (field : Bytes) :
    Around common field cs (chunksBefore (common ++ field) cs) (chunkAt? (common ++ field) cs)
      (chunksBehind (common ++ field) cs) := by
  have parts := laid.ascending_keys.filter_le_append_filter_lt (common ++ field)
  have reached : ∀ c ∈ cs.filter (·.key ≤ common ++ field), c.key ≤ common ++ field :=
    fun c member => of_decide_eq_true (List.mem_filter.mp member).2
  rw [chunksBefore, chunkAt?, chunksBehind]
  generalize cs.filter (·.key ≤ common ++ field) = low at parts reached ⊢
  refine ⟨?_, ?_, fun c found => reached c (List.mem_of_getLast? found), ?_⟩
  · cases found : low.getLast? with
    | none =>
        rw [List.getLast?_eq_none_iff.mp found] at parts ⊢
        exact parts.symm
    | some c =>
        obtain ⟨init, rfl⟩ := List.getLast?_eq_some_iff.mp found
        rw [List.dropLast_concat, ← List.append_assoc]
        exact parts.symm
  · intro missing
    rw [List.getLast?_eq_none_iff.mp missing]
    rfl
  · intro c member
    exact of_decide_eq_true (List.mem_filter.mp member).2

theorem Laid.exists_around {common : Bytes} {cs : List Chunk} (laid : Laid common cs)
    (field : Bytes) : ∃ low old high, Around common field cs low old high :=
  ⟨_, _, _, laid.around field⟩

namespace Around

variable {common field : Bytes} {cs low high : List Chunk} {old : Option Chunk}

theorem mem (around : Around common field cs low old high) : ∀ c ∈ old, c ∈ cs := by
  intro c found
  rw [around.eq, Option.mem_def.mp found]
  simp

theorem sides (laid : Laid common cs) (around : Around common field cs low old high) :
    (∀ e ∈ elementsOf low, e.field < field) ∧ ∀ e ∈ elementsOf high, field < e.field := by
  have parts := laid
  rw [around.eq] at parts
  obtain ⟨_, rest, between⟩ := Laid.append_iff.mp parts
  constructor
  · intro e member
    obtain ⟨c, inside, held⟩ := mem_elementsOf.mp member
    cases old with
    | none =>
        rw [around.first rfl] at inside
        contradiction
    | some o =>
        have less := between c inside o (by simp) e held
        exact Bytes.append_lt_append_iff.mp (Std.lt_of_lt_of_le less (around.reached o rfl))
  · intro e member
    obtain ⟨c, inside, held⟩ := mem_elementsOf.mp member
    have least := (rest.sound c (List.mem_append_right _ inside)).least e held
    exact Bytes.append_lt_append_iff.mp (Std.lt_of_lt_of_le (around.above c inside) least)

/-- Chunks in the place of the one found keep the layout, if they start where it does and have no
field but its own and the one it was found for. -/
theorem replaced (laid : Laid common cs) (around : Around common field cs low old high)
    {new : List Chunk} (laid_new : Laid common new)
    (starts : ∀ o ∈ old, ∀ c ∈ new, o.key ≤ c.key)
    (fields : ∀ e ∈ elementsOf new, e.field = field ∨ ∃ o ∈ old, e ∈ o.elements) :
    Laid common (low ++ (new ++ high)) := by
  have parts := laid
  rw [around.eq] at parts
  obtain ⟨laid_low, rest, before⟩ := Laid.append_iff.mp parts
  obtain ⟨_, laid_high, behind⟩ := Laid.append_iff.mp rest
  have new_high : ∀ c ∈ new, ∀ c' ∈ high, ∀ e ∈ c.elements, common ++ e.field < c'.key := by
    intro c inside c' above e held
    rcases fields e (mem_elementsOf.mpr ⟨c, inside, held⟩) with same | ⟨o, found, held⟩
    · rw [same]
      exact around.above c' above
    · exact behind o (Option.mem_toList.mpr found) c' above e held
  apply Laid.append_iff.mpr
  refine ⟨laid_low, Laid.append_iff.mpr ⟨laid_new, laid_high, new_high⟩, ?_⟩
  intro c below c' member e held
  rcases List.mem_append.mp member with inside | above
  · cases old with
    | none =>
        rw [around.first rfl] at below
        contradiction
    | some o => exact Std.lt_of_lt_of_le (before c below o (by simp) e held) (starts o rfl c' inside)
  · exact before c below c' (List.mem_append_right _ above) e held

end Around

theorem splitPoint_of_splitAbove? {threshold i : Nat} {es : List Element}
    (split : splitAbove? threshold es = some i) : splitPoint es = some i := by
  rw [splitAbove?] at split
  split at split
  · exact split
  · contradiction

theorem divided_cases (common : Bytes) (threshold : Nat) (c : Chunk) :
    divided common threshold c = [c]
      ∨ ∃ left first right, left ≠ [] ∧ c.elements = left ++ first :: right
        ∧ divided common threshold c
          = [⟨c.key, left⟩, ⟨common ++ first.field, first :: right⟩] := by
  unfold divided
  cases split : splitAbove? threshold c.elements with
  | none => exact .inl rfl
  | some i =>
      obtain ⟨pos, inside⟩ := splitPoint_bounds (splitPoint_of_splitAbove? split)
      right
      cases behind : c.elements.drop i with
      | nil => exact absurd (List.drop_eq_nil_iff.mp behind) (Nat.not_le.mpr inside)
      | cons first right =>
          refine ⟨c.elements.take i, first, right, ?_, ?_, by simp [behind]⟩
          · intro empty
            have length := congrArg List.length empty
            rw [List.length_take, List.length_nil] at length
            omega
          · rw [← behind]
            exact (List.take_append_drop i _).symm

@[simp] theorem elementsOf_divided (common : Bytes) (threshold : Nat) (c : Chunk) :
    elementsOf (divided common threshold c) = c.elements := by
  rcases divided_cases common threshold c with whole | ⟨left, first, right, _, parts, halved⟩
  · simp [whole]
  · simp [halved, parts]

theorem length_divided_iff {common : Bytes} {threshold : Nat} {c : Chunk} :
    (divided common threshold c).length = 2
      ↔ threshold < encodedSize c.elements ∧ 2 ≤ c.elements.length := by
  rw [divided, splitAbove?]
  by_cases above : threshold < encodedSize c.elements
  · rw [if_pos above]
    cases split : splitPoint c.elements with
    | none => simp [splitPoint_eq_none_iff.mp split]
    | some i =>
        obtain ⟨_, inside⟩ := splitPoint_bounds split
        have pair : 2 ≤ c.elements.length := by omega
        simp [above, pair]
  · simp [above]

theorem exists_divided (common : Bytes) (threshold : Nat) (c : Chunk) :
    ∃ es rest, divided common threshold c = ⟨c.key, es⟩ :: rest := by
  rcases divided_cases common threshold c with whole | ⟨left, _, _, _, _, halved⟩
  · exact ⟨c.elements, [], whole⟩
  · exact ⟨left, [_], halved⟩

namespace Chunk.Sound

variable {c : Chunk} {common : Bytes} {left right : List Element} {first : Element}

theorem keyFits (sound : c.Sound common) : Record.KeyFits c.key := by
  refine ⟨?_, sound.bounded⟩
  intro empty
  obtain ⟨marker, filled, key_eq⟩ := isChunkOf_iff.mp sound.isChunk
  exact filled (List.append_eq_nil_iff.mp (key_eq.symm.trans empty)).2

/-- A chunk that falls into two parts is laid out as two chunks. -/
theorem halves (sound : c.Sound common) (filled : left ≠ [])
    (parts : c.elements = left ++ first :: right) :
    Laid common [⟨c.key, left⟩, ⟨common ++ first.field, first :: right⟩] := by
  obtain ⟨is_chunk, bounded, _, asc, named, short, least⟩ := sound
  rw [parts] at asc named short least
  obtain ⟨asc_left, asc_right, between⟩ := List.pairwise_append.mp asc
  obtain ⟨named_left, named_right⟩ := List.forall_mem_append.mp named
  obtain ⟨short_left, short_right⟩ := List.forall_mem_append.mp short
  obtain ⟨least_left, _⟩ := List.forall_mem_append.mp least
  have sound_left : (⟨c.key, left⟩ : Chunk).Sound common :=
    ⟨is_chunk, bounded, filled, asc_left, named_left, short_left, least_left⟩
  have sound_right : (⟨common ++ first.field, first :: right⟩ : Chunk).Sound common := by
    refine ⟨isChunkOf_append common (named_right first List.mem_cons_self),
      short_right first List.mem_cons_self, List.cons_ne_nil _ _, asc_right, named_right,
      short_right, ?_⟩
    intro e member
    apply Bytes.append_le_append_iff.mpr
    rcases List.mem_cons.mp member with rfl | behind
    · exact List.le_refl _
    · exact List.le_of_lt ((List.pairwise_cons.mp asc_right).1 e behind)
  change Laid common ([⟨c.key, left⟩] ++ [⟨common ++ first.field, first :: right⟩])
  apply Laid.append_iff.mpr
  refine ⟨.singleton sound_left, .singleton sound_right, ?_⟩
  intro c₁ first_chunk c₂ second_chunk e held
  rw [List.mem_singleton.mp first_chunk] at held
  rw [List.mem_singleton.mp second_chunk]
  exact Bytes.append_lt_append_iff.mpr (between e held first List.mem_cons_self)

/-- Dividing a chunk lays it out with the elements it had, from where it started. -/
theorem divided (sound : c.Sound common) (threshold : Nat) :
    Laid common (divided common threshold c)
      ∧ elementsOf (Packed.divided common threshold c) = c.elements
      ∧ ∀ c' ∈ Packed.divided common threshold c, c.key ≤ c'.key := by
  rcases divided_cases common threshold c with whole | ⟨left, first, right, filled, parts, halved⟩
  · rw [whole]
    refine ⟨.singleton sound, by simp, ?_⟩
    intro c' member
    rw [List.mem_singleton.mp member]
    exact List.le_refl _
  · rw [halved]
    refine ⟨sound.halves filled parts, by simp [parts], ?_⟩
    intro c' member
    rcases List.mem_cons.mp member with rfl | second
    · exact List.le_refl _
    · rw [List.mem_singleton.mp second]
      exact sound.least first (by simp [parts])

end Chunk.Sound

end OrderedStore.Packed
