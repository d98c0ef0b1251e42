import OrderedStore.Proofs.Packed.Catalog
import OrderedStore.Proofs.Packed.Operations
import OrderedStore.Proofs.Store.Reachable

/-! # Stores that hold a catalog

A store holds a catalog if the chunks of every user key lie in it in order and have the fields that
the catalog has for the user key. It lays out a catalog if these chunks are those of a given layout.
Setting and deleting a field changes the chunks of one user key as it changes catalog and layout, or
leaves the store as it was but for the count of refusals.
-/

namespace OrderedStore.Packed

/-- For every user key the chunks in the store have the fields of the catalog. -/
structure Holds (s : Store) (c : Catalog) : Prop where
  wellFormed : s.WellFormed
  chunks : ∀ user : Bytes, user.length < 4294967296 → ∃ cs, Stores s.liveRecords (stem user) cs
    ∧ (c user).rows = (elementsOf cs).map Element.row

/-- For every user key the chunks in the store are those of the layout, and have the fields of the
catalog. -/
structure Lays (s : Store) (c : Catalog) (l : Layout) : Prop where
  wellFormed : s.WellFormed
  stores : ∀ user : Bytes, user.length < 4294967296 → Stores s.liveRecords (stem user) (l user)
  rows : ∀ user : Bytes, user.length < 4294967296 →
    (c user).rows = (elementsOf (l user)).map Element.row

/-- The chunks of a user key with those fields, around one field. -/
structure Located (s : Store) (fields : Contents) (user field : Bytes) (cs low : List Chunk)
    (old : Option Chunk) (high : List Chunk) : Prop where
  stores : Stores s.liveRecords (stem user) cs
  rows : fields.rows = (elementsOf cs).map Element.row
  around : Around (stem user) field cs low old high

namespace Located

variable {s : Store} {fields : Contents} {user field : Bytes} {cs low high : List Chunk}
  {old : Option Chunk}

theorem shown (located : Located s fields user field cs low old high) (wf : s.WellFormed) :
    Shown (stem user) old
      ((s.liveRecords.shown? (stem user ++ field) true).map fun r => ⟨r.key, r.value⟩) :=
  located.stores.chunkOf?_shown wf.ascending located.around

theorem packable (located : Located s fields user field cs low old high) :
    ∀ c ∈ old, Packable c.elements := by
  intro c found
  exact located.stores.packable c (located.around.mem c found)

theorem get?_eq (located : Located s fields user field cs low old high) :
    fields.get? field = lookup field (opened (stem user) old).elements := by
  rw [located.stores.laid.lookup_opened located.around, Contents.get?, located.rows,
    List.find?_map, Option.map_map]
  rfl

end Located

namespace Holds

variable {s s' : Store} {c : Catalog} {user field : Bytes}

theorem located (holds : Holds s c) (addressable : Addressable user field) :
    ∃ cs low old high, Located s (c user) user field cs low old high := by
  obtain ⟨cs, stores, rows⟩ := holds.chunks user addressable.user_lt
  obtain ⟨low, old, high, around⟩ := stores.laid.exists_around field
  exact ⟨cs, low, old, high, stores, rows, around⟩

theorem same (holds : Holds s c) (yields : s.Yields s' s.liveRecords) : Holds s' c := by
  refine ⟨yields.wellFormed, ?_⟩
  rw [yields.liveRecords]
  exact holds.chunks

theorem exists_lays (holds : Holds s c) : ∃ l, Lays s c l := by
  have some_chunks : ∀ user : Bytes, ∃ cs, user.length < 4294967296 →
      Stores s.liveRecords (stem user) cs ∧ (c user).rows = (elementsOf cs).map Element.row := by
    intro user
    by_cases short : user.length < 4294967296
    · obtain ⟨cs, chunks⟩ := holds.chunks user short
      exact ⟨cs, fun _ => chunks⟩
    · exact ⟨[], fun short' => absurd short' short⟩
  obtain ⟨l, chunks⟩ := Classical.axiomOfChoice some_chunks
  exact ⟨l, holds.wellFormed, fun user short => (chunks user short).1,
    fun user short => (chunks user short).2⟩

end Holds

namespace Lays

variable {s s' : Store} {c : Catalog} {l : Layout} {user field : Bytes}

theorem holds (lays : Lays s c l) : Holds s c :=
  ⟨lays.wellFormed, fun user short => ⟨l user, lays.stores user short, lays.rows user short⟩⟩

theorem located (lays : Lays s c l) (addressable : Addressable user field) :
    Located s (c user) user field (l user) (chunksBefore (stem user ++ field) (l user))
      (chunkAt? (stem user ++ field) (l user)) (chunksBehind (stem user ++ field) (l user)) :=
  have stores := lays.stores user addressable.user_lt
  ⟨stores, lays.rows user addressable.user_lt, stores.laid.around field⟩

theorem changed (lays : Lays s c l) (short : user.length < 4294967296) {changes : List Change}
    (chunks : ∀ change ∈ changes, isChunkOf change.key (stem user) = true)
    (yields : s.Yields s' (changes.foldl Run.change s.liveRecords)) {cs : List Chunk}
    (stores : Stores s'.liveRecords (stem user) cs) {fields : Contents}
    (rows : fields.rows = (elementsOf cs).map Element.row) :
    Lays s' (c.update user fields) (l.update user cs) := by
  refine ⟨yields.wellFormed, ?_, ?_⟩
  · intro other short'
    by_cases same : other = user
    · rw [same, PerUser.update_self]
      exact stores
    · rw [l.update_of_ne same, yields.liveRecords]
      exact (lays.stores other short').other lays.wellFormed.ascending chunks (Ne.symm same) short
        short'
  · intro other short'
    by_cases same : other = user
    · rw [same, PerUser.update_self, PerUser.update_self]
      exact rows
    · rw [c.update_of_ne same, l.update_of_ne same]
      exact lays.rows other short'

theorem erase_of_absent (lays : Lays s c l) (short : user.length < 4294967296)
    (absent : (c user).get? field = none) : l.erase user field = l := by
  have elsewhere : ∀ e ∈ elementsOf (l user), e.field ≠ field := by
    intro e held
    rw [Contents.get?, Option.map_eq_none_iff, lays.rows user short] at absent
    have other := List.find?_eq_none.mp absent e.row (List.mem_map_of_mem held)
    exact fun same => other (decide_eq_true same)
  rw [Layout.erase, (lays.stores user short).laid.flatMap_remaining_of_absent elsewhere]
  exact l.update_eq_self user

end Lays

theorem lays_empty {s : Store} (wf : s.WellFormed) (nothing : s.liveRecords = []) :
    Lays s .empty .empty := by
  refine ⟨wf, ?_, fun _ _ => rfl⟩
  intro user _
  rw [nothing]
  exact ⟨.nil _, rfl, List.forall_mem_nil _⟩

theorem row_inserted (e : Element) (es : List Element) :
    (Ascending.inserted Element.field e es).map Element.row
      = Ascending.inserted Prod.fst e.row (es.map Element.row) := by
  simp only [Ascending.inserted, List.map_append, List.map_cons, List.filter_map]
  rfl

theorem row_filter (field : Bytes) (es : List Element) :
    (es.filter (·.field ≠ field)).map Element.row
      = (es.map Element.row).filter (fun row => !decide (row.1 = field)) := by
  rw [List.filter_map]
  congr 1
  apply List.filter_congr
  intro e _
  exact decide_not

end OrderedStore.Packed
