import OrderedStore.Proofs.Packed.Fields
import OrderedStore.Proofs.Packed.Listings

/-! # Deleting fields

Deleting a field rewrites its chunk without it, or deletes the chunk if nothing is left of it. What
is rewritten is smaller than what was there, so that only the ceiling can refuse it.
-/

namespace OrderedStore.Packed

namespace Map

variable {m : Map} {user field : Bytes}

theorem delete_of_not_addressable (out : ¬Addressable user field) :
    ∃ cause, m.delete user field = (.error (.misuse cause), m) := by
  rcases lookupPrefix_cases user field with ⟨cause, refused⟩ | ⟨named, found⟩
  · exact ⟨cause, by simp only [delete, deleteField, refused, bind, Except.bind]⟩
  · refine ⟨Record.keyFault (stem user ++ field), ?_⟩
    simp only [delete, deleteField, found, bind, Except.bind, pure, Except.pure]
    rw [Store.WellFormed.execute_of_not_fits (not_keyFits named out)]

/-- Another field lies in the same chunk, so that the chunk outlives the field. -/
def Crowded (m : Map) (user field : Bytes) : Prop :=
  ∃ chunks, m.chunks user = .ok chunks ∧ ∃ chunk ∈ chunks,
    (∃ e ∈ chunk.2, e.field = field) ∧ ∃ e ∈ chunk.2, e.field ≠ field

end Map

/-- What becomes of a deletion on a map whose store lays out a catalog: there is nothing to delete,
or the field is deleted, or its chunk cannot be rewritten at the ceiling. -/
inductive DeleteCase (m : Map) (c : Catalog) (l : Layout) (user field : Bytes) :
    Except Fault Bool × Map → Prop where
  | absent : (c user).get? field = none → DeleteCase m c l user field (.ok false, m)
  | deleted (s : Store) : ((c user).get? field).isSome →
      ¬(m.store.atCeiling = true ∧ m.Crowded user field) →
      Lays s (c.erase user field) (l.erase user field) →
      s.options = m.store.options → DeleteCase m c l user field (.ok true, { m with store := s })
  | ceiling : ((c user).get? field).isSome → m.store.atCeiling = true → m.Crowded user field →
      DeleteCase m c l user field (.ok false, { m with store := m.store.reject })

theorem hasPuts_removal {changes : Changes} {field : Bytes} {d : Chunk}
    (asked : changes.toList = removal field d) :
    changes.hasPuts = !(erase field d.elements).isEmpty := by
  rw [Changes.hasPuts, asked, removal]
  cases (erase field d.elements).isEmpty with
  | true => rfl
  | false => rfl

namespace Holds

variable {m : Map} {c : Catalog} {user field : Bytes}

/-- What is written for a deletion is smaller than what was stored. -/
theorem storable_removal (holds : Holds m.store c) {cs low high : List Chunk} {d : Chunk}
    (located : Located m.store (c user) user field cs low (some d) high) :
    ∀ change ∈ removal field d, change.Storable m.store.options := by
  have member := located.around.mem d rfl
  have packable := located.packable d rfl
  have inside := located.stores.record_mem member
  have described := holds.wellFormed.describable d.record inside
  have room := holds.wellFormed.size_le d.record inside
  have kept := erase_sublist field d.elements
  have less : encodedSize (erase field d.elements) ≤ encodedSize d.elements :=
    Nat.add_le_add_left (total_le_of_sublist _ kept) _
  have fits : ∀ e ∈ erase field d.elements, e.Fits := fun e held =>
    packable.fits e (kept.subset held)
  have shorter : (written (erase field d.elements)).length ≤ (written d.elements).length := by
    rw [length_written fits, packable.length_written]
    exact less
  intro change asked
  rw [removal] at asked
  split at asked
  · rw [List.mem_singleton.mp asked]
    trivial
  · rw [List.mem_singleton.mp asked]
    refine ⟨⟨described.key, Nat.le_trans shorter described.value⟩, ?_⟩
    have smaller : (Record.live d.key (written (erase field d.elements))).size ≤ d.record.size :=
      Nat.add_le_add_left shorter _
    exact Nat.le_trans smaller room

theorem stores_delete {s s' : Store} {fields : Contents} {cs low high : List Chunk} {d : Chunk}
    (located : Located s fields user field cs low (some d) high)
    (yields : s.Yields s' ((removal field d).foldl Run.change s.liveRecords)) :
    Stores s'.liveRecords (stem user) (low ++ (remaining field d ++ high)) := by
  obtain ⟨stores, _, around⟩ := located
  obtain ⟨laid, elements⟩ := stores.laid.delete around
  obtain ⟨_, records⟩ := stores.records_delete around
  rw [← yields.liveRecords] at records
  have all_fit : ∀ e ∈ elementsOf (low ++ (remaining field d ++ high)), e.Fits := by
    intro e held
    rw [elements] at held
    exact stores.fits e (List.mem_filter.mp held).1
  exact .of_describable laid records yields.wellFormed.describable all_fit

theorem exists_commit_delete (wf : m.store.WellFormed) (addressable : Addressable user field)
    {cs low high : List Chunk} {d : Chunk}
    (located : Located m.store (c user) user field cs low (some d) high)
    (present : (lookup field d.elements).isSome) :
    ∃ anchor changes, changes.toList = removal field d ∧ m.delete user field
      = ((m.store.commit anchor changes).1,
        { m with store := (m.store.commit anchor changes).2 }) := by
  let op : Operation Bool :=
    ⟨stem user ++ field, true, false, false, fun _ => runDelete (stem user) field⟩
  have op_eq : deleteField user field = .ok op := by
    simp only [deleteField, addressable.lookupPrefix_eq, bind, Except.bind, pure, Except.pure]
    rfl
  obtain ⟨changes, gone, ran, asked⟩ :=
    exists_runDelete (located.shown wf) (located.packable d rfl) present
  have outcome : m.store.outcome op = ⟨.ok true, changes, gone⟩ := ran
  have some_change : changes.toList ≠ [] := by
    rw [asked, removal]
    split
    · exact List.cons_ne_nil _ _
    · exact List.cons_ne_nil _ _
  obtain ⟨anchor, executed⟩ := wf.execute_of_accepts addressable.keyFits rfl outcome some_change
  exact ⟨anchor, changes, asked, by simp only [Map.delete, op_eq, executed]⟩

theorem delete_of_absent (holds : Holds m.store c) (addressable : Addressable user field)
    (absent : (c user).get? field = none) : m.delete user field = (.ok false, m) := by
  obtain ⟨cs, low, old, high, located⟩ := holds.located addressable
  rw [located.get?_eq] at absent
  have outcome : m.store.outcome
      ⟨stem user ++ field, true, false, false, fun _ => runDelete (stem user) field⟩
      = ⟨.ok false, .empty, false⟩ :=
    runDelete_of_none (located.shown holds.wellFormed) located.packable absent .empty
  have executed := holds.wellFormed.execute_of_asks_nothing addressable.keyFits outcome
  simp only [Map.delete, deleteField, addressable.lookupPrefix_eq, bind, Except.bind, pure,
    Except.pure]
  rw [executed]

/-- Of the chunks of a user key only the one found for a field has the field. -/
theorem crowded_iff (wf : m.store.WellFormed) (short : user.length < 4294967296)
    {cs low high : List Chunk} {d : Chunk}
    (located : Located m.store (c user) user field cs low (some d) high)
    (present : (lookup field d.elements).isSome) :
    m.Crowded user field ↔ (erase field d.elements).isEmpty = false := by
  obtain ⟨stores, rows, around⟩ := located
  have asc := (stores.laid.sound d (around.mem d rfl)).ascending
  have read := stores.chunks_eq wf short
  have others : (erase field d.elements).isEmpty = false ↔ ∃ e ∈ d.elements, e.field ≠ field := by
    rw [erase_eq asc, List.isEmpty_eq_false_iff_exists_mem]
    simp
  rw [others]
  constructor
  · rintro ⟨chunks, read', chunk, member, ⟨e, held, same⟩, other⟩
    obtain rfl := Except.ok.inj (read.symm.trans read')
    obtain ⟨d', inside, rfl⟩ := List.mem_map.mp member
    obtain ⟨below, above⟩ := around.sides stores.laid
    rw [around.eq] at inside
    rcases List.mem_append.mp inside with left | rest
    · have less := below e (mem_elementsOf.mpr ⟨d', left, held⟩)
      exact absurd same (Std.ne_of_lt less)
    · rcases List.mem_append.mp rest with here | right
      · obtain rfl : d' = d := by simpa using here
        exact other
      · have more := above e (mem_elementsOf.mpr ⟨d', right, held⟩)
        exact absurd same (Std.ne_of_lt more).symm
  · intro other
    rw [lookup_eq asc, Option.isSome_map, List.find?_isSome] at present
    obtain ⟨e, held, same⟩ := present
    exact ⟨_, read, (d.key, d.elements), List.mem_map_of_mem (around.mem d rfl),
      ⟨e, held, of_decide_eq_true same⟩, other⟩

end Holds

namespace Lays

variable {m : Map} {c : Catalog} {l : Layout} {user field : Bytes}

theorem delete_made (lays : Lays m.store c l) (short : user.length < 4294967296)
    {low high : List Chunk} {d : Chunk}
    (located : Located m.store (c user) user field (l user) low (some d) high) {s : Store}
    (yields : m.store.Yields s ((removal field d).foldl Run.change m.store.liveRecords)) :
    Lays s (c.erase user field) (l.erase user field) := by
  obtain ⟨chunks, _⟩ := located.stores.records_delete located.around
  obtain ⟨_, elements⟩ := located.stores.laid.delete located.around
  rw [Layout.erase, located.stores.laid.flatMap_remaining located.around]
  apply lays.changed short chunks yields (Holds.stores_delete located yields)
  rw [elements, row_filter, ← located.rows]
  rfl

/-- A field that is there is deleted, unless its chunk is to be rewritten at the ceiling. -/
theorem delete_of_present (lays : Lays m.store c l) (addressable : Addressable user field)
    (there : ((c user).get? field).isSome) : DeleteCase m c l user field (m.delete user field) := by
  have wf := lays.wellFormed
  obtain ⟨low, old, high, located⟩ :
      ∃ low old high, Located m.store (c user) user field (l user) low old high :=
    ⟨_, _, _, lays.located addressable⟩
  have present := there
  rw [located.get?_eq] at present
  cases old with
  | none => contradiction
  | some d =>
      have crowded := Holds.crowded_iff wf addressable.user_lt located present
      obtain ⟨anchor, changes, asked, answer⟩ :=
        Holds.exists_commit_delete wf addressable located present
      have storable : ∀ change ∈ changes.toList, change.Storable m.store.options :=
        asked ▸ lays.holds.storable_removal located
      have puts := hasPuts_removal asked
      rw [answer]
      rcases wf.commit_of_storable anchor storable with
        ⟨possible, s, made, yields⟩ | ⟨reached, refused⟩
      · rw [made]
        apply DeleteCase.deleted s there
        · rintro ⟨full, other⟩
          rw [puts, crowded.mp other, full] at possible
          contradiction
        · exact lays.delete_made addressable.user_lt located (asked ▸ yields)
        · exact yields.options
      · rw [refused]
        obtain ⟨some_put, full⟩ := (Bool.and_eq_true _ _).mp reached
        rw [puts, Bool.not_eq_true'] at some_put
        exact .ceiling there full (crowded.mpr some_put)

theorem delete (lays : Lays m.store c l) (addressable : Addressable user field) :
    DeleteCase m c l user field (m.delete user field) := by
  cases found : (c user).get? field with
  | none =>
      rw [lays.holds.delete_of_absent addressable found]
      exact .absent found
  | some value => exact lays.delete_of_present addressable (Option.isSome_of_eq_some found)

end Lays

end OrderedStore.Packed
