import OrderedStore.Proofs.Packed.Reachable
import OrderedStore.Proofs.Packed.Refinement

/-! # What calls on fields write

A call that sets or deletes a field asks for nothing, or for the chunk that is found for the field to
be rewritten. All live records of a store that only such calls have written to are therefore chunks,
and what rewriting keeps of them holds for all of them.
-/

namespace OrderedStore

namespace Store.WellFormed

variable {s : Store} {ρ : Type}

theorem changes_execute (wf : s.WellFormed) {op : Operation ρ} (fits : Record.KeyFits op.key) :
    (s.execute op).changes = (s.outcome op).changes := by
  obtain ⟨_, executed⟩ := wf.execute_eq fits
  rw [executed]

theorem yields_execute_changes (wf : s.WellFormed) (op : Operation ρ) :
    s.Yields (s.execute op).store s.liveRecords
      ∨ s.Yields (s.execute op).store
        ((s.execute op).changes.toList.foldl Run.change s.liveRecords) := by
  by_cases fits : Record.KeyFits op.key
  · rw [wf.changes_execute fits]
    rcases wf.execute_cases op with ⟨_, _, yields⟩ | ⟨_, refused⟩ | ⟨_, kept⟩
    · exact .inr yields
    · rw [refused]
      exact .inl wf.yields_reject
    · rw [kept]
      exact .inl wf.yields_self
  · rw [execute_of_not_fits fits]
    exact .inl wf.yields_self

end Store.WellFormed

namespace Packed

theorem Element.fits_of_check {field value : Bytes} (checked : Element.check field value = .ok ()) :
    (⟨field, value⟩ : Element).Fits := by
  rw [Element.check] at checked
  split at checked
  · contradiction
  · split at checked
    · contradiction
    · exact ⟨Nat.not_le.mp ‹_›, Nat.not_le.mp ‹_›⟩

section

variable {user field value : Bytes} {threshold : Nat}

theorem setField_eq_ok {op : Operation SetReport}
    (named : setField user field value threshold = .ok op) :
    (⟨field, value⟩ : Element).Fits ∧ field ≠ [] ∧ op = ⟨stem user ++ field, true, false,
      ⟨false, none⟩, runSet (stem user) field value threshold⟩ := by
  cases checked : Element.check field value with
  | error cause => simp [setField, checked, bind, Except.bind] at named
  | ok _ =>
      rcases lookupPrefix_cases user field with ⟨cause, refused⟩ | ⟨filled, found⟩
      · simp [setField, checked, refused, bind, Except.bind] at named
      · simp only [setField, checked, found, bind, Except.bind, pure, Except.pure,
          Except.ok.injEq] at named
        exact ⟨Element.fits_of_check checked, filled, named.symm⟩

theorem deleteField_eq_ok {op : Operation Bool} (named : deleteField user field = .ok op) :
    field ≠ [] ∧ op = ⟨stem user ++ field, true, false, false,
      fun _ => runDelete (stem user) field⟩ := by
  rcases lookupPrefix_cases user field with ⟨cause, refused⟩ | ⟨filled, found⟩
  · simp [deleteField, refused, bind, Except.bind] at named
  · simp only [deleteField, found, bind, Except.bind, pure, Except.pure, Except.ok.injEq] at named
    exact ⟨filled, named.symm⟩

end

/-- What a set asks for: nothing, or the chunk of its field with the field in its place. -/
inductive AsksSet (s : Store) (fields : Contents) (user field value : Bytes) (threshold : Nat) :
    List Change → Prop where
  | nothing : AsksSet s fields user field value threshold []
  | chunk {cs low high : List Chunk} {old : Option Chunk} : Addressable user field →
      (⟨field, value⟩ : Element).Fits → Located s fields user field cs low old high →
      AsksSet s fields user field value threshold ((divided (stem user) threshold
        ((opened (stem user) old).including ⟨field, value⟩)).map Chunk.put)

/-- What a deletion asks for: nothing, or the chunk of its field without the field. -/
inductive AsksDelete (s : Store) (fields : Contents) (user field : Bytes) :
    List Change → Prop where
  | nothing : AsksDelete s fields user field []
  | chunk {cs low high : List Chunk} {d : Chunk} : Addressable user field →
      Located s fields user field cs low (some d) high →
      AsksDelete s fields user field (removal field d)

namespace Holds

variable {s : Store} {c : Catalog} {user field value : Bytes} {threshold : Nat}

theorem asks_set (holds : Holds s c) {op : Operation SetReport}
    (named : setField user field value threshold = .ok op) :
    AsksSet s (c user) user field value threshold (s.execute op).changes.toList := by
  have wf := holds.wellFormed
  obtain ⟨fits, filled, rfl⟩ := setField_eq_ok named
  by_cases addressable : Addressable user field
  · obtain ⟨cs, low, old, high, located⟩ := holds.located addressable
    obtain ⟨changes, split, ran, asked⟩ := exists_runSet (located.shown wf) located.packable fits
      threshold ⟨false, none⟩
    have outcome : s.outcome ⟨stem user ++ field, true, false, ⟨false, none⟩,
        runSet (stem user) field value threshold⟩ = ⟨.ok true, changes, ⟨_, split⟩⟩ := ran
    rw [wf.changes_execute addressable.keyFits, outcome, asked]
    exact .chunk addressable fits located
  · rw [Store.WellFormed.execute_of_not_fits (not_keyFits filled addressable)]
    exact .nothing

theorem asks_delete (holds : Holds s c) {op : Operation Bool}
    (named : deleteField user field = .ok op) :
    AsksDelete s (c user) user field (s.execute op).changes.toList := by
  have wf := holds.wellFormed
  obtain ⟨filled, rfl⟩ := deleteField_eq_ok named
  by_cases addressable : Addressable user field
  · obtain ⟨cs, low, old, high, located⟩ := holds.located addressable
    rw [wf.changes_execute addressable.keyFits]
    cases present : lookup field (opened (stem user) old).elements with
    | none =>
        have outcome : s.outcome ⟨stem user ++ field, true, false, false,
            fun _ => runDelete (stem user) field⟩ = ⟨.ok false, .empty, false⟩ :=
          runDelete_of_none (located.shown wf) located.packable present .empty
        rw [outcome]
        exact .nothing
    | some value =>
        cases old with
        | none => contradiction
        | some d =>
            obtain ⟨changes, gone, ran, asked⟩ := exists_runDelete (located.shown wf)
              (located.packable d rfl) (Option.isSome_of_eq_some present)
            have outcome : s.outcome ⟨stem user ++ field, true, false, false,
                fun _ => runDelete (stem user) field⟩ = ⟨.ok true, changes, gone⟩ := ran
            rw [outcome, asked]
            exact .chunk addressable located
  · rw [Store.WellFormed.execute_of_not_fits (not_keyFits filled addressable)]
    exact .nothing

end Holds

/-- The chunk that a record is, if it is one. -/
def Chunk.ofRecord (r : Record) : Chunk := ⟨r.key, (parse r.value).toOption.getD []⟩

theorem Chunk.ofRecord_record {d : Chunk} (packable : Packable d.elements) :
    ofRecord d.record = d := by
  have read : parse d.record.value = .ok d.elements := packable.parse_written
  rw [ofRecord, read]
  rfl

/-- All records are chunks of user keys, and have a property. -/
def AllChunks (P : Bytes → Chunk → Prop) (live : Run) : Prop :=
  ∀ r ∈ live, ∃ user : Bytes, user.length < 4294967296 ∧ isChunkOf r.key (stem user) = true
    ∧ P user (.ofRecord r)

/-- A chunk that takes in a field keeps a property, whole or divided. -/
def KeepsSet (P : Bytes → Chunk → Prop) (threshold : Nat) (user field value : Bytes) : Prop :=
  Addressable user field → ∀ old : Option Chunk, (∀ o ∈ old, P user o) →
    ∀ d ∈ divided (stem user) threshold ((opened (stem user) old).including ⟨field, value⟩), P user d

/-- A chunk that loses a field keeps a property. -/
def KeepsDeletions (P : Bytes → Chunk → Prop) : Prop :=
  ∀ user field d, P user d → P user (d.without field)

namespace AllChunks

variable {P : Bytes → Chunk → Prop} {live : Run} {user field value : Bytes}

theorem nil (P : Bytes → Chunk → Prop) : AllChunks P [] := List.forall_mem_nil _

theorem of_mem (all : AllChunks P live) {cs : List Chunk} (stores : Stores live (stem user) cs)
    (short : user.length < 4294967296) {d : Chunk} (member : d ∈ cs) : P user d := by
  have is_chunk : isChunkOf d.record.key (stem user) = true := (stores.laid.sound d member).isChunk
  obtain ⟨user', short', is_chunk', holds⟩ := all d.record (stores.record_mem member)
  rw [Chunk.ofRecord_record (stores.packable d member)] at holds
  -- a chunk key tells its user key
  rw [eq_of_isChunkOf short short' is_chunk is_chunk']
  exact holds

/-- Every record of a store that holds a catalog is a chunk with the property. -/
theorem exists_chunk {s : Store} {c : Catalog} (all : AllChunks P s.liveRecords) (holds : Holds s c)
    {r : Record} (member : r ∈ s.liveRecords) :
    ∃ user d, r = Chunk.record d ∧ Packable d.elements ∧ P user d := by
  obtain ⟨user, short, is_chunk, property⟩ := all r member
  obtain ⟨cs, stores, _⟩ := holds.chunks user short
  obtain ⟨d, inside, rfl⟩ := stores.exists_eq_record member is_chunk
  have packable := stores.packable d inside
  rw [Chunk.ofRecord_record packable] at property
  exact ⟨user, d, rfl, packable, property⟩

theorem put (all : AllChunks P live) (short : user.length < 4294967296) {d : Chunk}
    (is_chunk : isChunkOf d.key (stem user) = true) (packable : Packable d.elements)
    (holds : P user d) : AllChunks P (Run.change live d.put) := by
  intro r member
  rcases Ascending.mem_inserted member with same | before
  · obtain rfl : r = d.record := same
    exact ⟨user, short, is_chunk, by rw [Chunk.ofRecord_record packable]; exact holds⟩
  · exact all r before

theorem delete (all : AllChunks P live) (key : Bytes) :
    AllChunks P (Run.change live (.delete key)) :=
  fun r member => all r (List.mem_filter.mp member).1

theorem foldl_put (all : AllChunks P live) (short : user.length < 4294967296) {new : List Chunk}
    (are_chunks : ∀ d ∈ new, isChunkOf d.key (stem user) = true)
    (packable : ∀ d ∈ new, Packable d.elements) (holds : ∀ d ∈ new, P user d) :
    AllChunks P ((new.map Chunk.put).foldl Run.change live) := by
  induction new generalizing live with
  | nil => exact all
  | cons d new ih =>
      obtain ⟨is_chunk, are_chunks⟩ := List.forall_mem_cons.mp are_chunks
      obtain ⟨packable_d, packable⟩ := List.forall_mem_cons.mp packable
      obtain ⟨holds_d, holds⟩ := List.forall_mem_cons.mp holds
      exact ih (all.put short is_chunk packable_d holds_d) are_chunks packable holds

variable {s s' : Store} {fields : Contents} {threshold : Nat} {changes : List Change}

theorem set (all : AllChunks P s.liveRecords)
    (asks : AsksSet s fields user field value threshold changes)
    (yields : s.Yields s' (changes.foldl Run.change s.liveRecords))
    (keeps : KeepsSet P threshold user field value) : AllChunks P s'.liveRecords := by
  cases asks with
  | nothing =>
      rw [yields.liveRecords]
      exact all
  | @chunk cs low high old addressable fits located =>
      have stores := Holds.stores_set located addressable fits yields
      have written : ∀ d ∈ divided (stem user) threshold
          ((opened (stem user) old).including ⟨field, value⟩), d ∈ low ++ (divided (stem user)
            threshold ((opened (stem user) old).including ⟨field, value⟩) ++ high) :=
        fun d member => List.mem_append_right _ (List.mem_append_left _ member)
      have before : ∀ o ∈ old, P user o := fun o found =>
        all.of_mem located.stores addressable.user_lt (located.around.mem o found)
      rw [yields.liveRecords]
      exact all.foldl_put addressable.user_lt
        (fun d member => (stores.laid.sound d (written d member)).isChunk)
        (fun d member => stores.packable d (written d member)) (keeps addressable old before)

theorem remove (all : AllChunks P s.liveRecords) (asks : AsksDelete s fields user field changes)
    (yields : s.Yields s' (changes.foldl Run.change s.liveRecords))
    (keeps : KeepsDeletions P) : AllChunks P s'.liveRecords := by
  cases asks with
  | nothing =>
      rw [yields.liveRecords]
      exact all
  | @chunk cs low high d addressable located =>
      have stores := Holds.stores_delete located yields
      have member := located.around.mem d rfl
      have before := all.of_mem located.stores addressable.user_lt member
      rw [yields.liveRecords, removal]
      by_cases nothing : (erase field d.elements).isEmpty = true
      · rw [if_pos nothing]
        exact all.delete d.key
      · have left : d.without field ∈ low ++ (remaining field d ++ high) := by
          rw [remaining, if_neg nothing]
          simp
        rw [if_neg nothing]
        exact all.put addressable.user_lt (stores.laid.sound _ left).isChunk
          (stores.packable _ left) (keeps user field d before)

end AllChunks

namespace Map

variable {m : Map} {user field value : Bytes}

theorem store_set {op : Operation SetReport}
    (named : setField user field value m.options.maxValueSize = .ok op) :
    (m.set user field value).2.store = (m.store.execute op).store := by
  simp only [set, named]
  cases (m.store.execute op).verdict with
  | error cause => rfl
  | ok accepted =>
      cases accepted with
      | false => rfl
      | true =>
          cases (m.store.execute op).report.split with
          | none => rfl
          | some _ => rfl

theorem store_delete {op : Operation Bool} (named : deleteField user field = .ok op) :
    (m.delete user field).2.store = (m.store.execute op).store := by
  simp only [delete, named]

end Map

namespace Holds

variable {m : Map} {c : Catalog}

theorem exists_asks_set (holds : Holds m.store c) (user field value : Bytes) :
    ∃ changes, AsksSet m.store (c user) user field value m.options.maxValueSize changes
      ∧ m.store.Yields (m.set user field value).2.store
        (changes.foldl Run.change m.store.liveRecords) := by
  cases named : setField user field value m.options.maxValueSize with
  | error cause =>
      refine ⟨[], .nothing, ?_⟩
      rw [Map.set, named]
      exact holds.wellFormed.yields_self
  | ok op =>
      rw [Map.store_set named]
      rcases holds.wellFormed.yields_execute_changes op with kept | made
      · exact ⟨[], .nothing, kept⟩
      · exact ⟨_, holds.asks_set named, made⟩

theorem exists_asks_delete (holds : Holds m.store c) (user field : Bytes) :
    ∃ changes, AsksDelete m.store (c user) user field changes
      ∧ m.store.Yields (m.delete user field).2.store
        (changes.foldl Run.change m.store.liveRecords) := by
  cases named : deleteField user field with
  | error cause =>
      refine ⟨[], .nothing, ?_⟩
      rw [Map.delete, named]
      exact holds.wellFormed.yields_self
  | ok op =>
      rw [Map.store_delete named]
      rcases holds.wellFormed.yields_execute_changes op with kept | made
      · exact ⟨[], .nothing, kept⟩
      · exact ⟨_, holds.asks_delete named, made⟩

end Holds

namespace Map

variable {m : Map} {o : OrderedStore.Options} {p : Options} {P : Bytes → Chunk → Prop}
  {user field value : Bytes}

theorem options_set (m : Map) (user field value : Bytes) :
    (m.set user field value).2.options = m.options := by
  cases named : setField user field value m.options.maxValueSize with
  | error cause => rw [set, named]
  | ok op =>
      simp only [set, named]
      rcases (m.store.execute op).verdict with cause | (_ | _)
      · rfl
      · rfl
      · cases (m.store.execute op).report.split with
        | none => rfl
        | some _ => rfl

theorem options_delete (m : Map) (user field : Bytes) :
    (m.delete user field).2.options = m.options := by
  cases named : deleteField user field with
  | error cause => rw [delete, named]
  | ok op => simp only [delete, named]

/-- A map over a store that holds nothing but chunks, all of them with a property. -/
structure Packs (m : Map) (o : OrderedStore.Options) (p : Options) (P : Bytes → Chunk → Prop) :
    Prop where
  holds : ∃ c, Holds m.store c
  storeOptions : m.store.options = o
  options : m.options = p
  chunks : AllChunks P m.store.liveRecords

namespace Packs

theorem of_create {s : Store} (opened : Store.create o = .ok s) (made : create s p = .ok m)
    (P : Bytes → Chunk → Prop) : m.Packs o p P := by
  obtain ⟨wf, options, nothing⟩ := Store.WellFormed.of_create opened
  obtain rfl := eq_of_create made
  exact ⟨⟨.empty, (lays_empty wf nothing).holds⟩, options, rfl, nothing ▸ .nil P⟩

theorem set (packs : m.Packs o p P) (keeps : KeepsSet P p.maxValueSize user field value) :
    (m.set user field value).2.Packs o p P := by
  obtain ⟨⟨c, holds⟩, storeOptions, rfl, chunks⟩ := packs
  obtain ⟨changes, asks, yields⟩ := holds.exists_asks_set user field value
  exact ⟨holds.exists_after_set user field value, yields.options.trans storeOptions,
    options_set m user field value, chunks.set asks yields keeps⟩

theorem delete (packs : m.Packs o p P) (keeps : KeepsDeletions P) :
    (m.delete user field).2.Packs o p P := by
  obtain ⟨⟨c, holds⟩, storeOptions, options, chunks⟩ := packs
  obtain ⟨changes, asks, yields⟩ := holds.exists_asks_delete user field
  exact ⟨holds.exists_after_delete user field, yields.options.trans storeOptions,
    (options_delete m user field).trans options, chunks.remove asks yields keeps⟩

theorem answer (packs : m.Packs o p P) {call : Call}
    (sets : ∀ user field value, .set user field value = call →
      KeepsSet P p.maxValueSize user field value) (deletions : KeepsDeletions P) :
    (m.answer call).2.Packs o p P := by
  cases call with
  | set user field value => exact packs.set (sets user field value rfl)
  | delete user field => exact packs.delete deletions
  | get user field => exact packs
  | size user => exact packs
  | fields user => exact packs

/-- By induction on the calls, each of which keeps the property. -/
theorem answers (packs : m.Packs o p P) {calls : List Call}
    (sets : ∀ user field value, .set user field value ∈ calls →
      KeepsSet P p.maxValueSize user field value) (deletions : KeepsDeletions P) :
    (m.answers calls).2.Packs o p P := by
  induction calls generalizing m with
  | nil => exact packs
  | cons call calls ih =>
      apply ih
      · apply packs.answer _ deletions
        intro user field value same
        exact sets user field value (same ▸ List.mem_cons_self)
      · intro user field value member
        exact sets user field value (List.mem_cons_of_mem _ member)

end Packs

end Map

end Packed

end OrderedStore
