import OrderedStore.Proofs.Packed.Holdings
import OrderedStore.Proofs.Store.Ranges

/-! # Listing the fields of a user key

The range from the common part of a user key up to its end has all of the user key's chunks in it,
in the order of their fields. Whatever else lies in the range is no chunk of the user key.
-/

namespace OrderedStore.Packed

section

variable {cs : List Chunk}

theorem mapM_parse (packable : ∀ c ∈ cs, Packable c.elements) :
    (cs.map Chunk.record).mapM
        (fun r => ((parse r.value).map (r.key, ·)).mapError Fault.corruption)
      = .ok (cs.map fun c => (c.key, c.elements)) := by
  induction cs with
  | nil => rfl
  | cons c cs ih =>
      obtain ⟨here, later⟩ := List.forall_mem_cons.mp packable
      have first : parse c.record.value = .ok c.elements := here.parse_written
      rw [List.map_cons, List.mapM_cons, first, ih later]
      rfl

theorem total_length (cs : List Chunk) :
    total (·.2.length) (cs.map fun c => (c.key, c.elements)) = (elementsOf cs).length := by
  induction cs with
  | nil => rfl
  | cons c cs ih => rw [List.map_cons, total_cons, ih, elementsOf_cons, List.length_append]

theorem flatMap_fields (cs : List Chunk) :
    ((cs.map fun c => (c.key, c.elements)).flatMap fun chunk => chunk.2.map (·.field))
      = (elementsOf cs).map (·.field) := by
  rw [List.flatMap_map, elementsOf, List.map_flatMap]

end

section

variable {m : Map} {user : Bytes}

theorem Map.chunks_of_long (long : 4294967296 ≤ user.length) :
    m.chunks user = .error (.misuse .userKeyTooLong) := by
  rw [chunks, chunkPrefix, if_neg (Nat.not_lt.mpr long)]
  rfl

theorem Stores.chunks_eq (wf : m.store.WellFormed) {cs : List Chunk}
    (stores : Stores m.store.liveRecords (stem user) cs) (short : user.length < 4294967296) :
    m.chunks user = .ok (cs.map fun c => (c.key, c.elements)) := by
  -- the range only has to have every chunk in it: the filter drops whatever else lies there
  have rows : (m.store.range (some (stem user)) (prefixEnd? (stem user)) false).filter
      (isChunkOf ·.key (stem user)) = cs.map Chunk.record := by
    rw [wf.range_eq, Scan.oriented_false, List.filter_filter, ← stores.records]
    apply List.filter_congr
    intro r _
    cases is_chunk : isChunkOf r.key (stem user) with
    | false => rfl
    | true => exact inRange_of_isChunkOf is_chunk
  rw [Map.chunks, chunkPrefix_eq short]
  change ((m.store.range _ _ _).filter _).mapM _ = _
  rw [rows]
  exact mapM_parse stores.packable

theorem Map.size_of_long (long : 4294967296 ≤ user.length) :
    m.size user = .error (.misuse .userKeyTooLong) := by
  rw [size, chunks_of_long long]
  rfl

theorem Map.fields_of_long (long : 4294967296 ≤ user.length) :
    m.fields user = .error (.misuse .userKeyTooLong) := by
  rw [fields, chunks_of_long long]
  rfl

namespace Holds

variable {c : Catalog}

theorem size_eq (holds : Holds m.store c) (short : user.length < 4294967296) :
    m.size user = .ok (c user).size := by
  obtain ⟨cs, stores, rows⟩ := holds.chunks user short
  have count : (c user).size = (elementsOf cs).length := by
    rw [Contents.size, rows, List.length_map]
  rw [Map.size, stores.chunks_eq holds.wellFormed short, count, ← total_length]
  rfl

theorem fields_eq (holds : Holds m.store c) (short : user.length < 4294967296) :
    m.fields user = .ok ((c user).rows.map (·.1)) := by
  obtain ⟨cs, stores, rows⟩ := holds.chunks user short
  have names : (c user).rows.map (·.1) = (elementsOf cs).map (·.field) := by
    rw [rows, List.map_map]
    rfl
  rw [Map.fields, stores.chunks_eq holds.wellFormed short, names, ← flatMap_fields]
  rfl

end Holds

end

end OrderedStore.Packed
