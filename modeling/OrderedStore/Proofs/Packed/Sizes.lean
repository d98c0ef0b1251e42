import OrderedStore.Proofs.Packed.Balance
import OrderedStore.Proofs.Packed.Refinement
import OrderedStore.Proofs.Packed.Written

/-! # Sizes of chunks

A set splits a chunk once at most, and a half may still take more than the threshold. What no set
leaves is a chunk beyond both the threshold and twice the largest element: a chunk grows by one
element at a time, and the halves of a split differ by one element at most. A set can therefore count
on room for its chunk in a block that has room for that much.
-/

namespace OrderedStore.Packed

/-- The most bytes that a chunk takes if no element takes more than `most`. -/
def Options.valueBound (p : Options) (most : Nat) : Nat :=
  max p.maxValueSize (countSize + 2 * most)

/-- A chunk whose elements and value keep within bounds. -/
structure Chunk.Within (c : Chunk) (most bound : Nat) : Prop where
  elements : ∀ e ∈ c.elements, e.size ≤ most
  value : encodedSize c.elements ≤ bound

/-- A chunk that has no field longer than `longest`, and no longer key than such a field makes. -/
structure Chunk.Short (c : Chunk) (common : Bytes) (longest : Nat) : Prop where
  fields : ∀ e ∈ c.elements, e.field.length ≤ longest
  key : c.key.length ≤ common.length + longest

theorem total_insert_le (e : Element) (es : List Element) :
    total Element.size (insert e es) ≤ total Element.size es + e.size := by
  induction es with
  | nil => simp [insert]
  | cons x es ih =>
      rw [insert]
      split
      · rw [total_cons, total_cons]
        omega
      · split
        · rw [total_cons, total_cons]
          omega
        · rw [total_cons]
          omega

theorem eq_nil_or_singleton_of_splitPoint {es : List Element} (whole : splitPoint es = none) :
    es = [] ∨ ∃ e, es = [e] := by
  cases es with
  | nil => exact .inl rfl
  | cons e es =>
      cases es with
      | nil => exact .inr ⟨e, rfl⟩
      | cons e' es => contradiction

/-- A chunk that is not split keeps to the threshold, or has one element. -/
theorem encodedSize_le_of_splitAbove? {threshold most : Nat} {es : List Element}
    (whole : splitAbove? threshold es = none) (small : ∀ e ∈ es, e.size ≤ most) :
    encodedSize es ≤ threshold ∨ encodedSize es ≤ countSize + most := by
  rw [splitAbove?] at whole
  split at whole
  · right
    apply Nat.add_le_add_left
    rcases eq_nil_or_singleton_of_splitPoint whole with rfl | ⟨e, rfl⟩
    · exact Nat.zero_le most
    · exact small e List.mem_cons_self
  · exact .inl (Nat.not_lt.mp ‹_›)

variable {common : Bytes} {c : Chunk} {old : Option Chunk} {e : Element}

namespace Chunk.Within

variable {most bound threshold : Nat}

/-- Dividing a chunk that has outgrown the bound by one element leads back below it. -/
theorem divided (small : ∀ e ∈ c.elements, e.size ≤ most)
    (grown : encodedSize c.elements ≤ bound + most) (above : threshold ≤ bound)
    (room : countSize + 2 * most ≤ bound) :
    ∀ d ∈ divided common threshold c, d.Within most bound := by
  unfold Packed.divided
  cases split : splitAbove? threshold c.elements with
  | none =>
      intro d member
      rw [List.mem_singleton.mp member]
      have size := encodedSize_le_of_splitAbove? split small
      exact ⟨small, by omega⟩
  | some i =>
      -- twice a half is no more than the whole and an element, so than the bound and two elements
      have halves := splitPoint_halves (splitPoint_of_splitAbove? split) small
      rw [encodedSize] at grown
      have left : encodedSize (c.elements.take i) ≤ bound := by
        rw [encodedSize]
        omega
      have right : encodedSize (c.elements.drop i) ≤ bound := by
        rw [encodedSize]
        omega
      intro d member
      rcases List.mem_cons.mp member with rfl | second
      · exact ⟨fun x held => small x (List.mem_of_mem_take held), left⟩
      · rw [List.mem_singleton.mp second]
        exact ⟨fun x held => small x (List.mem_of_mem_drop held), right⟩

theorem opened (common : Bytes) (within : ∀ o ∈ old, o.Within most bound)
    (room : countSize ≤ bound) : (opened common old).Within most bound := by
  cases old with
  | none => exact ⟨List.forall_mem_nil _, room⟩
  | some o => exact within o rfl

theorem set (within : ∀ o ∈ old, o.Within most bound) (small : e.size ≤ most)
    (above : threshold ≤ bound) (room : countSize + 2 * most ≤ bound) :
    ∀ d ∈ Packed.divided common threshold ((Packed.opened common old).including e),
      d.Within most bound := by
  obtain ⟨known, size⟩ := opened common within (Nat.le_of_add_right_le room)
  have more := total_insert_le e (Packed.opened common old).elements
  have grown : encodedSize (insert e (Packed.opened common old).elements) ≤ bound + most := by
    rw [encodedSize] at size ⊢
    omega
  apply divided _ grown above room
  intro x member
  rcases mem_insert member with rfl | held
  · exact small
  · exact known x held

theorem without (within : c.Within most bound) (field : Bytes) :
    (c.without field).Within most bound := by
  have part := erase_sublist field c.elements
  refine ⟨fun x held => within.elements x (part.subset held), ?_⟩
  exact Nat.le_trans (Nat.add_le_add_left (total_le_of_sublist _ part) _) within.value

end Chunk.Within

namespace Chunk.Short

variable {longest threshold : Nat}

theorem divided (short : c.Short common longest) (threshold : Nat) :
    ∀ d ∈ divided common threshold c, d.Short common longest := by
  rcases divided_cases common threshold c with whole | ⟨left, first, right, _, parts, halved⟩
  · rw [whole]
    simpa using short
  · obtain ⟨fields, key⟩ := short
    rw [parts] at fields
    obtain ⟨fields_left, fields_right⟩ := List.forall_mem_append.mp fields
    rw [halved]
    intro d member
    rcases List.mem_cons.mp member with rfl | second
    · exact ⟨fields_left, key⟩
    · rw [List.mem_singleton.mp second]
      refine ⟨fields_right, ?_⟩
      rw [List.length_append]
      exact Nat.add_le_add_left (fields_right first List.mem_cons_self) _

theorem set (shorts : ∀ o ∈ old, o.Short common longest) (named : e.field ≠ [])
    (short : e.field.length ≤ longest) :
    ∀ d ∈ Packed.divided common threshold ((opened common old).including e),
      d.Short common longest := by
  have before : (opened common old).Short common longest := by
    cases old with
    | none =>
        have pos : 1 ≤ longest := Nat.le_trans (List.length_pos_iff.mpr named) short
        have marked : (common ++ firstMarker).length = common.length + 1 := List.length_append
        exact ⟨List.forall_mem_nil _, Nat.le_trans (Nat.le_of_eq marked) (Nat.add_le_add_left pos _)⟩
    | some o => exact shorts o rfl
  apply divided
  refine ⟨?_, before.key⟩
  intro x member
  rcases mem_insert member with rfl | held
  · exact short
  · exact before.fields x held

theorem without (short : c.Short common longest) (field : Bytes) :
    (c.without field).Short common longest :=
  ⟨fun x held => short.fields x ((erase_sublist field c.elements).subset held), short.key⟩

end Chunk.Short

section

variable {s : Store} {fields : Contents} {user field value : Bytes} {threshold : Nat}

/-- A set adds one record at most: if it splits a chunk, one of the halves takes its place. -/
theorem AsksSet.length_le {changes : List Change}
    (asks : AsksSet s fields user field value threshold changes) :
    (changes.foldl Run.change s.liveRecords).length ≤ s.liveRecords.length + 1 := by
  cases asks with
  | nothing => exact Nat.le_succ _
  | @chunk cs low high old addressable fits located =>
      rcases divided_cases (stem user) threshold ((opened (stem user) old).including ⟨field, value⟩)
        with whole | ⟨left, first, right, filled, parts, halved⟩
      · rw [whole, List.map_cons, List.map_nil, List.foldl_cons, List.foldl_nil]
        exact Run.length_change_le _ _
      · rw [halved, List.map_cons, List.map_cons, List.map_nil, List.foldl_cons, List.foldl_cons,
          List.foldl_nil]
        cases old with
        | none =>
            -- one element is never split
            have pos := List.length_pos_iff.mpr filled
            have one := congrArg List.length parts
            have single : ((opened (stem user) none).including ⟨field, value⟩).elements.length = 1 :=
              rfl
            rw [List.length_append, List.length_cons] at one
            omega
        | some d =>
            have replaced := Run.length_change_le_of_mem (c := Chunk.put ⟨d.key, left⟩)
              (located.stores.record_mem (located.around.mem d rfl)) rfl
            exact Nat.le_trans (Run.length_change_le _ _) (Nat.succ_le_succ replaced)

end

section

variable {user field value : Bytes} {most longest threshold : Nat}

theorem keepsSet_within {p : Options} (small : (⟨field, value⟩ : Element).size ≤ most) :
    KeepsSet (fun _ d => d.Within most (p.valueBound most)) p.maxValueSize user field value :=
  fun _ _ within => .set within small (Nat.le_max_left _ _) (Nat.le_max_right _ _)

theorem keepsDeletions_within {bound : Nat} : KeepsDeletions fun _ d => d.Within most bound :=
  fun _ field _ within => within.without field

theorem keepsSet_short {owner : Bytes} (short : user = owner → field.length ≤ longest) :
    KeepsSet (fun other d => other = owner → d.Short (stem owner) longest) threshold user field
      value := by
  intro addressable old shorts d member same
  subst same
  exact .set (fun o found => shorts o found rfl) addressable.named (short rfl) d member

theorem keepsDeletions_short {owner : Bytes} :
    KeepsDeletions fun other d => other = owner → d.Short (stem owner) longest :=
  fun _ field _ short same => (short same).without field

end

namespace Map

variable {m : Map} {o : OrderedStore.Options} {p : Options} {user field value : Bytes}

theorem set_of_granted {c : Catalog} {l : Layout} (lays : Lays m.store c l)
    (addressable : Addressable user field) (below : m.store.atCeiling = false)
    (granted : l.grants m.store.options m.options user field value = .ok true) :
    (m.set user field value).1 = .ok .inserted ∨ (m.set user field value).1 = .ok .replaced := by
  have outcome := lays.set addressable value
  generalize m.set user field value = result at outcome ⊢
  cases outcome with
  | stored s splits _ _ _ =>
      cases (c user).get? field with
      | none => exact .inl rfl
      | some _ => exact .inr rfl
  | ceiling reached =>
      rw [below] at reached
      contradiction
  | large refused =>
      rw [granted] at refused
      contradiction
  | failed refused =>
      rw [granted] at refused
      contradiction

/-- The sizes in a map after calls, none of which sets an element of more than `most` bytes. -/
structure Bounded (m : Map) (o : OrderedStore.Options) (p : Options) (calls : List Call)
    (most : Nat) : Prop where
  values : ∀ r ∈ m.store.liveRecords, r.value.length ≤ p.valueBound most
  /-- No set adds more than one chunk. -/
  splits_once : ∀ user field value, (m.set user field value).2.store.size ≤ m.store.size + 1
  /-- Without a ceiling no set is refused, if a block has room for the longest field of the user key
  and a value at the bound. -/
  granted : o.memoryCeiling = none → ∀ {user common field value : Bytes} {longest : Nat},
    chunkPrefix user = .ok common → (⟨field, value⟩ : Element).size ≤ most →
    field.length ≤ longest →
    (∀ field' value', .set user field' value' ∈ calls → field'.length ≤ longest) →
    Record.headerSize + common.length + longest + p.valueBound most ≤ o.largestBlock →
    (m.set user field value).1 ≠ .ok .refused ∧ (Addressable user field →
      (m.set user field value).1 = .ok .inserted ∨ (m.set user field value).1 = .ok .replaced)

theorem Packs.size_set_le {P : Bytes → Chunk → Prop} (packs : m.Packs o p P)
    (user field value : Bytes) : (m.set user field value).2.store.size ≤ m.store.size + 1 := by
  obtain ⟨c, holds⟩ := packs.holds
  obtain ⟨changes, asks, yields⟩ := holds.exists_asks_set user field value
  rw [yields.wellFormed.size_eq, holds.wellFormed.size_eq, yields.liveRecords]
  exact asks.length_le

theorem fits_of_room (checked : o.check = .ok ()) {e : Element} {most : Nat} (small : e.size ≤ most)
    (room : p.valueBound most ≤ o.largestBlock) : e.Fits := by
  have twice : countSize + 2 * most ≤ p.valueBound most := Nat.le_max_right _ _
  have block := OrderedStore.Options.largestBlock_le checked
  rw [OrderedStore.Options.mostBlock] at block
  rw [Element.size] at small
  constructor
  · rw [Varint.limit]
    omega
  · rw [Varint.limit]
    omega

/-- Without a ceiling a set is carried out where a block has room for the longest field and a value at
the bound. -/
theorem set_of_room (unbounded : o.memoryCeiling = none) {most longest : Nat}
    (within : m.Packs o p fun _ d => d.Within most (p.valueBound most))
    (short : m.Packs o p fun other d => other = user → d.Short (stem user) longest)
    (addressable : Addressable user field) (small : (⟨field, value⟩ : Element).size ≤ most)
    (short_field : field.length ≤ longest)
    (room : Record.headerSize + (stem user).length + longest + p.valueBound most ≤ o.largestBlock) :
    (m.set user field value).1 = .ok .inserted ∨ (m.set user field value).1 = .ok .replaced := by
  obtain ⟨⟨c, holds⟩, rfl, rfl, all_within⟩ := within
  have checked := holds.wellFormed.options
  have block := OrderedStore.Options.largestBlock_le checked
  have fits : (⟨field, value⟩ : Element).Fits :=
    fits_of_room checked small (Nat.le_trans (Nat.le_add_left _ _) room)
  obtain ⟨l, lays⟩ := holds.exists_lays
  have located := lays.located addressable
  have within_old : ∀ d ∈ chunkAt? (stem user ++ field) (l user),
      d.Within most (m.options.valueBound most) := fun d found =>
    all_within.of_mem located.stores addressable.user_lt (located.around.mem d found)
  have short_old : ∀ d ∈ chunkAt? (stem user ++ field) (l user),
      d.Short (stem user) longest := fun d found =>
    short.chunks.of_mem located.stores addressable.user_lt (located.around.mem d found) rfl
  have below : m.store.atCeiling = false := by
    rw [Store.atCeiling, unbounded]
    rfl
  apply set_of_granted lays addressable below
  rw [Layout.grants, if_neg (Nat.not_le.mpr fits.value), admission_eq_ok_true_iff]
  intro d member
  have size := (Chunk.Within.set within_old small (Nat.le_max_left _ _) (Nat.le_max_right _ _)
    d member).value
  have key := (Chunk.Short.set short_old addressable.named short_field d member).key
  rw [OrderedStore.Options.mostBlock] at block
  rw [Record.headerSize] at room
  constructor
  · rw [Record.maxValue]
    omega
  · rw [Record.sizeOf, Record.headerSize]
    omega

/-- Calls on a new map leave no value beyond the bound, and no set is refused where a block has room
for it. -/
theorem answers_bounded {s : Store} (opened : Store.create o = .ok s) (made : create s p = .ok m)
    {calls : List Call} {most : Nat} (small : ∀ user field value, .set user field value ∈ calls →
      (⟨field, value⟩ : Element).size ≤ most) : (m.answers calls).2.Bounded o p calls most := by
  have within : (m.answers calls).2.Packs o p fun _ d => d.Within most (p.valueBound most) :=
    (Packs.of_create opened made _).answers
      (fun user field value member => keepsSet_within (small user field value member))
      keepsDeletions_within
  refine
    { values := ?_
      splits_once := within.size_set_le
      granted := ?_ }
  · intro r member
    obtain ⟨c, holds⟩ := within.holds
    obtain ⟨user, d, rfl, packable, kept⟩ := within.chunks.exists_chunk holds member
    exact Nat.le_trans (Nat.le_of_eq packable.length_written) kept.value
  · intro unbounded user common field value longest named small_field short_field short_fields room
    obtain ⟨_, rfl⟩ := chunkPrefix_eq_ok named
    have short : (m.answers calls).2.Packs o p
        fun other d => other = user → d.Short (stem user) longest := by
      apply (Packs.of_create opened made _).answers _ keepsDeletions_short
      intro user' field' value' member
      apply keepsSet_short
      rintro rfl
      exact short_fields field' value' member
    by_cases addressable : Addressable user field
    · have done := set_of_room unbounded within short addressable small_field short_field room
      refine ⟨?_, fun _ => done⟩
      intro refused
      rw [refused] at done
      simp at done
    · obtain ⟨cause, failed⟩ := set_of_not_addressable (m := (m.answers calls).2) addressable value
      refine ⟨?_, fun named => absurd named addressable⟩
      rw [failed]
      simp

/-- Sets of three fields of one user key, with elements of four bytes. -/
def threeSets : List Call :=
  [.set [117] [97] [49], .set [117] [98] [50], .set [117] [99] [51]]

/-- Each chunk takes six bytes: more than the threshold of five, and within the bound of ten. A block
has room for ten bytes, and a fourth set is carried out. -/
theorem answers_bounded_above_threshold : ∃ s m, Store.create {} = .ok s
    ∧ create s { maxValueSize := 5 } = .ok m
    ∧ (∀ user field value, .set user field value ∈ threeSets →
      (⟨field, value⟩ : Element).size ≤ 4)
    ∧ (m.answers threeSets).2.Bounded {} { maxValueSize := 5 } threeSets 4
    ∧ (m.answers threeSets).2.store.liveRecords.map (·.value.length) = [6, 6, 6]
    ∧ ((m.answers threeSets).2.set [117] [100] [52]).1 ≠ .ok .refused := by
  obtain ⟨s, opened⟩ : ∃ s, Store.create {} = .ok s := ⟨_, rfl⟩
  obtain ⟨m, made⟩ : ∃ m, create s { maxValueSize := 5 } = .ok m := ⟨_, rfl⟩
  have sets : ∀ {user field value}, .set user field value ∈ threeSets →
      (⟨field, value⟩ : Element).size ≤ 4 ∧ field.length ≤ 1 := by
    intro user field value member
    simp only [threeSets, List.mem_cons, Call.set.injEq, List.not_mem_nil, or_false] at member
    rcases member with ⟨_, rfl, rfl⟩ | ⟨_, rfl, rfl⟩ | ⟨_, rfl, rfl⟩ <;> decide
  have small : ∀ user field value, .set user field value ∈ threeSets →
      (⟨field, value⟩ : Element).size ≤ 4 := fun _ _ _ member => (sets member).1
  have bounded := answers_bounded opened made small
  refine ⟨s, m, opened, made, small, bounded, ?_, ?_⟩
  · cases opened
    cases made
    decide +kernel
  · have short : ∀ field value, .set [117] field value ∈ threeSets → field.length ≤ 1 :=
      fun _ _ member => (sets member).2
    exact (bounded.granted rfl rfl (by decide) (by decide) short (by decide)).1

end Map

end OrderedStore.Packed
