import OrderedStore.Proofs.Packed.Holdings

/-! # Setting and reading fields

Setting and reading a field of a store that lays out a catalog does what the catalog says. A set
that the layout does not grant changes nothing, and one that it grants is refused at the ceiling
only.
-/

namespace OrderedStore.Packed

section

variable {user field : Bytes}

theorem lookupPrefix_cases (user field : Bytes) :
    (∃ cause, lookupPrefix user field = .error cause)
      ∨ field ≠ [] ∧ lookupPrefix user field = .ok (stem user) := by
  by_cases empty : field.isEmpty = true
  · exact .inl ⟨_, if_pos empty⟩
  · have named : field ≠ [] := by simpa using empty
    rw [lookupPrefix, if_neg empty]
    by_cases short : user.length < 4294967296
    · exact .inr ⟨named, chunkPrefix_eq short⟩
    · exact .inl ⟨_, if_neg short⟩

/-- What is named but not addressable has an address that is too long for a key. -/
theorem not_keyFits (named : field ≠ []) (out : ¬Addressable user field) :
    ¬Record.KeyFits (stem user ++ field) := by
  intro fits
  apply out
  refine ⟨named, ?_⟩
  have short := fits.2
  rw [List.length_append, length_stem] at short
  exact short

end

namespace Map

variable {m : Map} {user field : Bytes}

theorem set_of_not_addressable (out : ¬Addressable user field) (value : Bytes) :
    ∃ cause, m.set user field value = (.error (.misuse cause), m) := by
  cases checked : Element.check field value with
  | error cause => exact ⟨cause, by simp only [set, setField, checked, bind, Except.bind]⟩
  | ok _ =>
      rcases lookupPrefix_cases user field with ⟨cause, refused⟩ | ⟨named, found⟩
      · exact ⟨cause, by simp only [set, setField, checked, refused, bind, Except.bind]⟩
      · refine ⟨Record.keyFault (stem user ++ field), ?_⟩
        simp only [set, setField, checked, found, bind, Except.bind, pure, Except.pure]
        rw [Store.WellFormed.execute_of_not_fits (not_keyFits named out)]

theorem get_of_not_addressable (out : ¬Addressable user field) :
    ∃ cause, m.get user field = .error (.misuse cause) := by
  rcases lookupPrefix_cases user field with ⟨cause, refused⟩ | ⟨named, found⟩
  · exact ⟨cause, by simp only [get, getField, refused, bind, Except.bind]⟩
  · refine ⟨Record.keyFault (stem user ++ field), ?_⟩
    simp only [get, getField, found, bind, Except.bind, pure, Except.pure]
    rw [Store.WellFormed.execute_of_not_fits (not_keyFits named out)]
    rfl

end Map

theorem admitsAll_put {s : Store} {cs : List Chunk} (keys : ∀ d ∈ cs, Record.KeyFits d.key)
    (fits : ∀ e ∈ elementsOf cs, e.Fits) :
    s.admitsAll (cs.map Chunk.put) = admission s.options.largestBlock cs := by
  induction cs with
  | nil => rfl
  | cons d cs ih =>
      obtain ⟨key_fits, keys⟩ := List.forall_mem_cons.mp keys
      rw [elementsOf_cons] at fits
      obtain ⟨fits_d, fits⟩ := List.forall_mem_append.mp fits
      have length := length_written fits_d
      rw [List.map_cons, Chunk.put, Store.admitsAll, ih keys fits, admission, ← length]
      by_cases long : Record.maxValue < (written d.elements).length
      · rw [Store.admits, Record.measure_of_long key_fits long, if_pos long]
        rfl
      · have describable : (Record.live d.key (written d.elements)).Describable :=
          ⟨key_fits, Nat.not_lt.mp long⟩
        rw [Store.admits_of_describable describable, if_neg long]
        by_cases small : (Record.live d.key (written d.elements)).size ≤ s.options.largestBlock
        · rw [decide_eq_true small]
          exact (if_neg (Nat.not_lt.mpr small)).symm
        · rw [decide_eq_false small]
          exact (if_pos (Nat.not_le.mp small)).symm

/-- What becomes of a set on a map whose store lays out a catalog: it is carried out, or refused at
the ceiling, or it is not granted. -/
inductive SetCase (m : Map) (c : Catalog) (l : Layout) (user field value : Bytes) :
    Except Fault SetResult × Map → Prop where
  | stored (s : Store) (splits : Nat) :
      l.grants m.store.options m.options user field value = .ok true →
      Lays s (c.set user field value) (l.set m.options user field value) →
      s.options = m.store.options → SetCase m c l user field value
        (.ok (if ((c user).get? field).isNone then .inserted else .replaced),
          ⟨s, m.options, splits⟩)
  | ceiling : m.store.atCeiling = true →
      SetCase m c l user field value (.ok .refused, { m with store := m.store.reject })
  | large : l.grants m.store.options m.options user field value = .ok false →
      SetCase m c l user field value (.ok .refused, m)
  | failed {cause : Misuse} : l.grants m.store.options m.options user field value = .error cause →
      SetCase m c l user field value (.error (.misuse cause), m)

namespace Holds

variable {m : Map} {c : Catalog} {user field : Bytes}

theorem set_layout {s : Store} {fields : Contents} {cs low high : List Chunk} {old : Option Chunk}
    (located : Located s fields user field cs low old high) (addressable : Addressable user field)
    {value : Bytes} (fits : (⟨field, value⟩ : Element).Fits) (threshold : Nat) :
    let all := low ++ (divided (stem user) threshold
      ((opened (stem user) old).including ⟨field, value⟩) ++ high)
    Laid (stem user) all ∧ (fields.insert field value).rows = (elementsOf all).map Element.row
      ∧ ∀ e ∈ elementsOf all, e.Fits := by
  intro all
  obtain ⟨stores, rows, around⟩ := located
  let e : Element := ⟨field, value⟩
  have around : Around (stem user) e.field cs low old high := around
  obtain ⟨laid, elements⟩ :=
    stores.laid.set around addressable.named addressable.keyFits.2 threshold
  have elements : elementsOf all = Ascending.inserted Element.field e (elementsOf cs) := elements
  refine ⟨laid, ?_, ?_⟩
  · rw [elements, row_inserted, ← rows]
    rfl
  · intro x member
    rw [elements] at member
    rcases Ascending.mem_inserted member with rfl | held
    · exact fits
    · exact stores.fits x held

theorem stores_set {s s' : Store} {fields : Contents} {cs low high : List Chunk}
    {old : Option Chunk} (located : Located s fields user field cs low old high)
    (addressable : Addressable user field) {value : Bytes}
    (fits : (⟨field, value⟩ : Element).Fits) {threshold : Nat}
    (yields : s.Yields s' (((divided (stem user) threshold
      ((opened (stem user) old).including ⟨field, value⟩)).map Chunk.put).foldl Run.change
        s.liveRecords)) :
    Stores s'.liveRecords (stem user) (low ++ (divided (stem user) threshold
      ((opened (stem user) old).including ⟨field, value⟩) ++ high)) := by
  obtain ⟨laid, _, all_fit⟩ := set_layout located addressable fits threshold
  let e : Element := ⟨field, value⟩
  have around : Around (stem user) e.field cs low old high := located.around
  obtain ⟨_, records⟩ :=
    located.stores.records_set around addressable.named addressable.keyFits.2 threshold
  rw [← yields.liveRecords] at records
  exact .of_describable laid records yields.wellFormed.describable all_fit

theorem exists_commit_set (wf : m.store.WellFormed) (addressable : Addressable user field)
    {value : Bytes} (fits : (⟨field, value⟩ : Element).Fits) {cs low high : List Chunk}
    {old : Option Chunk} (located : Located m.store (c user) user field cs low old high) :
    ∃ anchor changes splits, changes.toList = (divided (stem user) m.options.maxValueSize
        ((opened (stem user) old).including ⟨field, value⟩)).map Chunk.put
      ∧ m.set user field value = match m.store.commit anchor changes with
        | (.error cause, s) => (.error cause, { m with store := s })
        | (.ok false, s) => (.ok .refused, { m with store := s })
        | (.ok true, s) => (.ok (if ((c user).get? field).isNone then .inserted else .replaced),
            ⟨s, m.options, splits⟩) := by
  have checked : Element.check field value = .ok () := Element.check_of_fits fits
  let op : Operation SetReport :=
    ⟨stem user ++ field, true, false, ⟨false, none⟩,
      runSet (stem user) field value m.options.maxValueSize⟩
  have op_eq : setField user field value m.options.maxValueSize = .ok op := by
    simp only [setField, checked, addressable.lookupPrefix_eq, bind, Except.bind, pure, Except.pure]
    rfl
  obtain ⟨changes, split, ran, asked⟩ := exists_runSet (located.shown wf) located.packable fits
    m.options.maxValueSize ⟨false, none⟩
  rw [← located.get?_eq] at ran
  have outcome : m.store.outcome op = ⟨.ok true, changes, ⟨_, split⟩⟩ := ran
  have some_change : changes.toList ≠ [] := by
    obtain ⟨es, rest, first⟩ := exists_divided (stem user) m.options.maxValueSize
      ((opened (stem user) old).including ⟨field, value⟩)
    rw [asked, first]
    exact List.cons_ne_nil _ _
  obtain ⟨anchor, executed⟩ := wf.execute_of_accepts addressable.keyFits rfl outcome some_change
  refine ⟨anchor, changes, if split.isSome then m.splits + 1 else m.splits, asked, ?_⟩
  simp only [Map.set, op_eq, executed]
  rcases m.store.commit anchor changes with ⟨verdict | (_ | _), s⟩
  · rfl
  · rfl
  · cases split with
    | none => rfl
    | some _ => rfl

theorem get_eq (holds : Holds m.store c) (addressable : Addressable user field) :
    m.get user field = .ok ((c user).get? field) := by
  obtain ⟨cs, low, old, high, located⟩ := holds.located addressable
  have outcome : m.store.outcome ⟨stem user ++ field, true, true, none, runGet (stem user) field⟩
      = ⟨.ok ((c user).get? field).isSome, .empty, (c user).get? field⟩ := by
    rw [located.get?_eq]
    exact runGet_eq (located.shown holds.wellFormed) located.packable none .empty
  have executed := holds.wellFormed.execute_of_asks_nothing addressable.keyFits outcome
  simp only [Map.get, getField, addressable.lookupPrefix_eq, bind, Except.bind, pure, Except.pure]
  rw [executed]
  rfl

end Holds

namespace Lays

variable {m : Map} {c : Catalog} {l : Layout} {user field : Bytes}

theorem set_of_long (addressable : Addressable user field) (c : Catalog) (l : Layout)
    {value : Bytes} (long : Varint.limit ≤ value.length) :
    SetCase m c l user field value (m.set user field value) := by
  have checked : Element.check field value = .error .packedValueTooLong := by
    rw [Element.check, if_neg (Nat.not_le.mpr addressable.field_lt), if_pos long]
  have refused : m.set user field value = (.error (.misuse .packedValueTooLong), m) := by
    simp only [Map.set, setField, checked, bind, Except.bind]
  rw [refused]
  exact .failed (if_pos long)

theorem admitsAll_renewed (lays : Lays m.store c l) (addressable : Addressable user field)
    {value : Bytes} (fits : (⟨field, value⟩ : Element).Fits) :
    m.store.admitsAll ((l.renewed m.options user field value).map Chunk.put)
      = l.grants m.store.options m.options user field value := by
  obtain ⟨laid, _, all_fit⟩ :=
    Holds.set_layout (lays.located addressable) addressable fits m.options.maxValueSize
  obtain ⟨_, rest, _⟩ := Laid.append_iff.mp laid
  have keys : ∀ d ∈ l.renewed m.options user field value, Record.KeyFits d.key := fun d member =>
    (rest.sound d (List.mem_append_left _ member)).keyFits
  rw [elementsOf_append, elementsOf_append] at all_fit
  obtain ⟨_, rest_fit⟩ := List.forall_mem_append.mp all_fit
  rw [Layout.grants, if_neg (Nat.not_le.mpr fits.value)]
  exact admitsAll_put keys (List.forall_mem_append.mp rest_fit).1

theorem set_made (lays : Lays m.store c l) (addressable : Addressable user field) {value : Bytes}
    (fits : (⟨field, value⟩ : Element).Fits) {s : Store}
    (yields : m.store.Yields s (((l.renewed m.options user field value).map Chunk.put).foldl
      Run.change m.store.liveRecords)) :
    Lays s (c.set user field value) (l.set m.options user field value) := by
  have located := lays.located addressable
  obtain ⟨_, rows, _⟩ := Holds.set_layout located addressable fits m.options.maxValueSize
  let e : Element := ⟨field, value⟩
  have around : Around (stem user) e.field (l user) _ _ _ := located.around
  obtain ⟨chunks, _⟩ := located.stores.records_set around addressable.named addressable.keyFits.2
    m.options.maxValueSize
  exact lays.changed addressable.user_lt chunks yields
    (Holds.stores_set located addressable fits yields) rows

/-- Setting a field sets it in catalog and layout, if the layout grants it and the store is below
its ceiling. -/
theorem set (lays : Lays m.store c l) (addressable : Addressable user field) (value : Bytes) :
    SetCase m c l user field value (m.set user field value) := by
  by_cases long : Varint.limit ≤ value.length
  · exact set_of_long addressable c l long
  have fits : (⟨field, value⟩ : Element).Fits :=
    ⟨addressable.field_lt, Nat.not_le.mp long⟩
  have wf := lays.wellFormed
  obtain ⟨anchor, changes, splits, asked, answer⟩ :=
    Holds.exists_commit_set wf addressable fits (lays.located addressable)
  have verdict := lays.admitsAll_renewed addressable fits
  rw [Layout.renewed, ← asked] at verdict
  rw [answer]
  cases granted : l.grants m.store.options m.options user field value with
  | error cause =>
      rw [Store.commit_of_misuse (verdict.trans granted)]
      exact .failed granted
  | ok admitted =>
      cases admitted with
      | false =>
          rw [Store.commit_of_large (verdict.trans granted)]
          exact .large granted
      | true =>
          rcases wf.commit_of_admitted anchor (verdict.trans granted) with
            ⟨_, s, made, yields⟩ | ⟨reached, refused⟩
          · rw [made]
            rw [asked] at yields
            exact .stored s splits granted (lays.set_made addressable fits yields) yields.options
          · rw [refused]
            exact .ceiling ((Bool.and_eq_true _ _).mp reached).2

end Lays

end OrderedStore.Packed
