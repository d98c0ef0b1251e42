import OrderedStore.Block.Write
import OrderedStore.Proofs.Ledger.Balance

/-! # What an arena knows of its regions

Regions are taken from an arena, from outside of it, or from where another region is from, and they
are given back one by one, some after a new one has taken their place. Whatever happens to them, the
arena counts the regions that are in use and no others, and its table knows each of them: a region
that is given back is never a stranger to it.
-/

namespace OrderedStore

theorem SearchTree.get?_eq_some_iff {α κ : Type} [LE κ] [LT κ] [Std.IsLinearOrder κ]
    [Std.LawfulOrderLT κ] [DecidableLT κ] [DecidableEq κ] {key : α → κ} {t : SearchTree key} {k : κ}
    {a : α} : t.get? k = some a ↔ a ∈ t.toList ∧ key a = k := by
  rw [get?_eq]
  constructor
  · intro found
    exact ⟨List.mem_of_find?_eq_some found, by simpa using List.find?_some found⟩
  · rintro ⟨member, rfl⟩
    obtain ⟨low, high, eq⟩ := List.append_of_mem member
    have ascending : Ascending key (low ++ a :: high) := eq ▸ t.ascending
    obtain ⟨_, _, across⟩ := List.pairwise_append.mp ascending
    have other : low.find? (key · = key a) = none := by
      simp only [List.find?_eq_none, decide_eq_true_eq]
      exact fun b below => Std.ne_of_lt (across b below a List.mem_cons_self)
    rw [eq, List.find?_append, other, Option.none_or, List.find?_cons_of_pos (by simp)]

namespace Arena

/-- What the table finds wrong with a region that is given back. -/
inductive Mismatch where
  | neverAllocated
  | otherSize
deriving Repr, DecidableEq

/-- Gives a region back, unless the table, if there is one, does not know it with its length. -/
def giveBack (a : Arena) (r : Region) : Except Mismatch Arena :=
  if r.lease.accounted then
    match a.table.map (·.get? r.lease.id) with
    | none => .ok (a.release r.lease)
    | some none => .error .neverAllocated
    | some (some row) =>
      if row.2 = r.bytes.length then .ok (a.release r.lease) else .error .otherSize
  else .ok a

/-- The leases that an arena counts. -/
def counted (leases : List Lease) : List Lease := leases.filter (·.accounted)

/-- The arena accounts for exactly the given leases, as far as they are not detached. -/
structure Accounts (a : Arena) (leases : List Lease) : Prop where
  allocated : a.allocated = total (·.size) (counted leases)
  live : a.live = (counted leases).length
  distinct : ((counted leases).map (·.id)).Nodup
  numbered : ∀ l ∈ counted leases, l.id < a.nextId
  table : ∀ rows ∈ a.table, ∀ row, row ∈ rows.toList ↔ ∃ l ∈ counted leases, (l.id, l.size) = row

section

variable {a : Arena} {leases leases' : List Lease} {l : Lease}

theorem counted_cons_of_accounted (accounted : l.accounted = true) (leases : List Lease) :
    counted (l :: leases) = l :: counted leases := List.filter_cons_of_pos accounted

theorem counted_cons_of_detached (detached : l.accounted = false) (leases : List Lease) :
    counted (l :: leases) = counted leases :=
  List.filter_cons_of_neg (Bool.eq_false_iff.mp detached)

theorem release_of_detached (detached : l.accounted = false) : a.release l = a := by
  rw [release, detached]
  rfl

@[simp] theorem nextId_release (a : Arena) (l : Lease) : (a.release l).nextId = a.nextId := by
  unfold release
  split <;> rfl

theorem isSome_table_release (a : Arena) (l : Lease) :
    (a.release l).table.isSome = a.table.isSome := by
  unfold release
  split
  · exact Option.isSome_map
  · rfl

theorem mem_inserted_of_below {rows : List (Nat × Nat)} {row new : Nat × Nat}
    (below : ∀ row ∈ rows, row.1 < new.1) :
    row ∈ Ascending.inserted (fun row : Nat × Nat => row.1) new rows ↔ row = new ∨ row ∈ rows := by
  obtain ⟨all_below, _, _, none_above⟩ := Ascending.filter_of_below below
  rw [Ascending.inserted, all_below, none_above, List.mem_append, List.mem_singleton, or_comm]

namespace Accounts

theorem create (track : Bool) : (create track).Accounts [] where
  allocated := rfl
  live := rfl
  distinct := .nil
  numbered := List.forall_mem_nil _
  table := by
    cases track with
    | false => simp [Arena.create]
    | true =>
        rintro rows ⟨⟩ row
        simp [counted]

theorem perm (h : a.Accounts leases) (same : leases.Perm leases') : a.Accounts leases' := by
  have counted_same : (counted leases).Perm (counted leases') := same.filter _
  exact
    { allocated := h.allocated.trans (total_perm counted_same)
      live := h.live.trans counted_same.length_eq
      distinct := (counted_same.map _).nodup_iff.mp h.distinct
      numbered := fun l member => h.numbered l (counted_same.mem_iff.mpr member)
      table := fun rows tracked row => (h.table rows tracked row).trans
        (exists_congr fun l => and_congr_left' counted_same.mem_iff) }

theorem detached_iff (detached : l.accounted = false) :
    a.Accounts (l :: leases) ↔ a.Accounts leases := by
  have same := counted_cons_of_detached detached leases
  constructor
  · intro h
    exact ⟨same ▸ h.allocated, same ▸ h.live, same ▸ h.distinct, same ▸ h.numbered, same ▸ h.table⟩
  · intro h
    exact ⟨same.symm ▸ h.allocated, same.symm ▸ h.live, same.symm ▸ h.distinct,
      same.symm ▸ h.numbered, same.symm ▸ h.table⟩

theorem allocate (h : a.Accounts leases) (size : Nat) :
    (a.allocate size).2.Accounts ((a.allocate size).1 :: leases) := by
  have more : counted ((a.allocate size).1 :: leases) = (a.allocate size).1 :: counted leases :=
    counted_cons_of_accounted rfl leases
  constructor
  · rw [more, total_cons, ← h.allocated]
    exact Nat.add_comm _ _
  · rw [more, List.length_cons, ← h.live]
    rfl
  · rw [more, List.map_cons]
    refine List.nodup_cons.mpr ⟨?_, h.distinct⟩
    intro member
    obtain ⟨l, inside, same⟩ := List.mem_map.mp member
    exact Nat.ne_of_lt (h.numbered l inside) same
  · rw [more]
    refine List.forall_mem_cons.mpr ⟨Nat.lt_succ_self _, ?_⟩
    exact fun l member => Nat.lt_succ_of_lt (h.numbered l member)
  · intro rows tracked row
    obtain ⟨before, known, rfl⟩ := Option.map_eq_some_iff.mp tracked
    have below : ∀ row ∈ before.toList, row.1 < a.nextId := by
      intro row member
      obtain ⟨l, inside, rfl⟩ := (h.table before known row).mp member
      exact h.numbered l inside
    rw [more, SearchTree.toList_insert, mem_inserted_of_below below, h.table before known, eq_comm]
    simp only [List.mem_cons, exists_eq_or_imp]
    rfl

theorem release (h : a.Accounts (l :: leases)) : (a.release l).Accounts leases := by
  cases accounted : l.accounted with
  | false =>
      rw [release_of_detached accounted]
      exact (detached_iff accounted).mp h
  | true =>
      have more := counted_cons_of_accounted accounted leases
      have distinct := h.distinct
      rw [more] at distinct
      obtain ⟨other, distinct⟩ := List.nodup_cons.mp distinct
      rw [Arena.release, if_pos accounted]
      constructor
      · have allocated := h.allocated
        rw [more, total_cons] at allocated
        exact Nat.sub_eq_of_eq_add (allocated.trans (Nat.add_comm _ _))
      · have live := h.live
        rw [more, List.length_cons] at live
        exact Nat.sub_eq_of_eq_add live
      · exact distinct
      · exact fun l' member => h.numbered l' (more ▸ List.mem_cons_of_mem l member)
      · intro rows tracked row
        obtain ⟨before, known, rfl⟩ := Option.map_eq_some_iff.mp tracked
        have apart : ∀ l' ∈ counted leases, l'.id ≠ l.id := fun l' member same =>
          other (List.mem_map.mpr ⟨l', member, same⟩)
        rw [SearchTree.toList_erase, List.mem_filter, h.table before known, more,
          decide_eq_true_eq]
        constructor
        · rintro ⟨⟨l', member, rfl⟩, kept⟩
          rcases List.mem_cons.mp member with rfl | member
          · exact absurd rfl kept
          · exact ⟨l', member, rfl⟩
        · rintro ⟨l', member, rfl⟩
          exact ⟨⟨l', List.mem_cons_of_mem l member, rfl⟩, apart l' member⟩

theorem agrees (h : a.Accounts leases) (member : l ∈ leases) : a.agrees l = true := by
  cases accounted : l.accounted with
  | false => simp [Arena.agrees, accounted]
  | true =>
      have inside : l ∈ counted leases := List.mem_filter.mpr ⟨member, accounted⟩
      cases tracked : a.table with
      | none => simp [Arena.agrees, tracked]
      | some rows =>
          have known : rows.get? l.id = some (l.id, l.size) :=
            SearchTree.get?_eq_some_iff.mpr ⟨(h.table rows tracked _).mpr ⟨l, inside, rfl⟩, rfl⟩
          simp [Arena.agrees, tracked, known]

end Accounts

theorem giveBack_of_agrees {r : Region} (agrees : a.agrees r.lease = true)
    (length : r.bytes.length = r.lease.size) : a.giveBack r = .ok (a.release r.lease) := by
  cases accounted : r.lease.accounted with
  | false => simp [giveBack, release, accounted]
  | true =>
      cases tracked : a.table with
      | none => simp [giveBack, accounted, tracked]
      | some rows =>
          have known : rows.get? r.lease.id = some (r.lease.id, r.lease.size) := by
            simpa [Arena.agrees, accounted, tracked] using agrees
          simp [giveBack, accounted, tracked, known, length]

theorem accounted_sibling (a : Arena) (of : Lease) (size : Nat) :
    (a.sibling of size).1.accounted = of.accounted := by
  cases accounted : of.accounted <;> simp [sibling, accounted, allocate, Lease.detached]

end

end Arena

/-- Where a new region comes from. -/
inductive Region.Origin where
  | arena
  | detached
  /-- From where the region at a place is from. -/
  | sibling (place : Nat)
deriving Repr, DecidableEq

/-- An arena and the regions that are in use with it, detached ones among them. -/
structure Tenancy where
  arena : Arena
  regions : List Region
  /-- The numbers of all regions that the arena ever allocated, the latest first. -/
  numbers : List Nat

namespace Tenancy

def start (track : Bool) : Tenancy := ⟨.create track, [], []⟩

def leases (t : Tenancy) : List Lease := t.regions.map (·.lease)

/-- The regions that the arena has to count. -/
def counted (t : Tenancy) : List Region := t.regions.filter (·.lease.accounted)

/-- A lease of a new region, unless it is to be beside a region that there is not. -/
def lease? (t : Tenancy) (size : Nat) : Region.Origin → Option (Lease × Arena)
  | .arena => some (t.arena.allocate size)
  | .detached => some (.detached size, t.arena)
  | .sibling place => t.regions[place]?.map fun r => t.arena.sibling r.lease size

/-- The numbers after a new lease. -/
def numbered (t : Tenancy) (lease : Lease) : List Nat :=
  if lease.accounted then lease.id :: t.numbers else t.numbers

/-- What happens to regions. They are named by their places. -/
inductive Call where
  | take (origin : Region.Origin) (size : Nat)
  /-- A new region takes the place of another, which is given back then. -/
  | replace (place : Nat) (origin : Region.Origin) (size : Nat)
  | drop (place : Nat)
  | write (place offset : Nat) (bytes : Bytes)
deriving Repr, DecidableEq

def call (t : Tenancy) : Call → Except Arena.Mismatch Tenancy
  | .take origin size =>
    match t.lease? size origin with
    | none => .ok t
    | some (lease, arena) => .ok ⟨arena, t.regions ++ [.zeroed lease], t.numbered lease⟩
  | .replace place origin size =>
    match t.regions[place]?, t.lease? size origin with
    | some old, some (lease, arena) =>
      (arena.giveBack old).map fun arena =>
        ⟨arena, t.regions.set place (.zeroed lease), t.numbered lease⟩
    | _, _ => .ok t
  | .drop place =>
    match t.regions[place]? with
    | none => .ok t
    | some old =>
      (t.arena.giveBack old).map fun arena => ⟨arena, t.regions.eraseIdx place, t.numbers⟩
  | .write place offset bytes =>
    match t.regions[place]? with
    | none => .ok t
    | some r =>
      if offset + bytes.length ≤ r.bytes.length then
        .ok { t with regions := t.regions.set place (r.write offset bytes) }
      else .ok t

/-- Whether a region is counted, and its length. -/
def shapes (t : Tenancy) : List (Bool × Nat) :=
  t.regions.map fun r => (r.lease.accounted, r.bytes.length)

/-- Whether a new region is to be counted, beside regions of the given shapes. -/
def counts? (shapes : List (Bool × Nat)) : Region.Origin → Option Bool
  | .arena => some true
  | .detached => some false
  | .sibling place => shapes[place]?.map (·.1)

/-- What a call makes of the shapes of the regions. -/
def Call.reshape (shapes : List (Bool × Nat)) : Call → List (Bool × Nat)
  | .take origin size =>
    match counts? shapes origin with
    | none => shapes
    | some counted => shapes ++ [(counted, size)]
  | .replace place origin size =>
    match counts? shapes origin with
    | none => shapes
    | some counted => shapes.set place (counted, size)
  | .drop place => shapes.eraseIdx place
  | .write .. => shapes

/-- The calls in their order, up to the first region that the table does not know. -/
def run (t : Tenancy) (calls : List Call) : Except Arena.Mismatch Tenancy := calls.foldlM call t

/-- What every call keeps. -/
structure Kept (track : Bool) (t : Tenancy) : Prop where
  accounts : t.arena.Accounts t.leases
  sized : ∀ r ∈ t.regions, r.bytes.length = r.lease.size
  tracked : t.arena.table.isSome = track
  distinct : t.numbers.Nodup
  earlier : ∀ n ∈ t.numbers, n < t.arena.nextId
  listed : ∀ l ∈ Arena.counted t.leases, l.id ∈ t.numbers

/-- What a new lease brings, before the region is put to its place. -/
structure Grants (track : Bool) (t : Tenancy) (size : Nat) (lease : Lease) (arena : Arena) :
    Prop where
  accounts : arena.Accounts (lease :: t.leases)
  size : lease.size = size
  tracked : arena.table.isSome = track
  distinct : (t.numbered lease).Nodup
  earlier : ∀ n ∈ t.numbered lease, n < arena.nextId
  listed : ∀ l ∈ Arena.counted (lease :: t.leases), l.id ∈ t.numbered lease
  still : lease.accounted = false → arena = t.arena

section

variable {track : Bool} {t : Tenancy} {size place : Nat} {lease : Lease} {arena : Arena}

theorem exists_around {regions : List Region} {r : Region} (held : regions[place]? = some r) :
    ∃ low high, regions = low ++ r :: high ∧ regions.eraseIdx place = low ++ high
      ∧ ∀ new, regions.set place new = low ++ new :: high := by
  obtain ⟨inside, rfl⟩ := List.getElem?_eq_some_iff.mp held
  refine ⟨regions.take place, regions.drop (place + 1), ?_, ?_, fun new => ?_⟩
  · rw [List.getElem_cons_drop, List.take_append_drop]
  · exact List.eraseIdx_eq_take_drop_succ regions place
  · rw [List.set_eq_take_append_cons_drop, if_pos inside]

theorem Grants.fresh (grants : t.Grants track size lease arena)
    (accounted : lease.accounted = true) : lease.id ∉ t.numbers := by
  have distinct := grants.distinct
  rw [numbered, if_pos accounted] at distinct
  exact (List.nodup_cons.mp distinct).1

theorem counts?_shapes (t : Tenancy) (size : Nat) (origin : Region.Origin) :
    counts? t.shapes origin = (t.lease? size origin).map (·.1.accounted) := by
  cases origin with
  | arena => rfl
  | detached => rfl
  | sibling place =>
      rw [counts?, shapes, lease?, List.getElem?_map, Option.map_map, Option.map_map]
      cases t.regions[place]? with
      | none => rfl
      | some r => exact congrArg some (Arena.accounted_sibling t.arena r.lease size).symm

theorem length_shapes_le (nothing : t.regions[place]? = none) : t.shapes.length ≤ place := by
  rw [shapes, List.length_map]
  exact List.getElem?_eq_none_iff.mp nothing

theorem kept_start (track : Bool) : (start track).Kept track where
  accounts := .create track
  sized := List.forall_mem_nil _
  tracked := by cases track <;> rfl
  distinct := .nil
  earlier := List.forall_mem_nil _
  listed := List.forall_mem_nil _

namespace Kept

theorem grants_allocate (kept : t.Kept track) (size : Nat) :
    t.Grants track size (t.arena.allocate size).1 (t.arena.allocate size).2 where
  accounts := kept.accounts.allocate size
  size := rfl
  tracked := Option.isSome_map.trans kept.tracked
  distinct := List.nodup_cons.mpr
    ⟨fun member => Nat.lt_irrefl _ (kept.earlier _ member), kept.distinct⟩
  earlier := List.forall_mem_cons.mpr
    ⟨Nat.lt_succ_self _, fun n member => Nat.lt_succ_of_lt (kept.earlier n member)⟩
  listed := List.forall_mem_cons.mpr
    ⟨List.mem_cons_self, fun l member => List.mem_cons_of_mem _ (kept.listed l member)⟩
  still := Bool.noConfusion

theorem grants_detached (kept : t.Kept track) (size : Nat) :
    t.Grants track size (.detached size) t.arena where
  accounts := (Arena.Accounts.detached_iff rfl).mpr kept.accounts
  size := rfl
  tracked := kept.tracked
  distinct := kept.distinct
  earlier := kept.earlier
  listed := kept.listed
  still := fun _ => rfl

theorem grants (kept : t.Kept track) {origin : Region.Origin}
    (leased : t.lease? size origin = some (lease, arena)) : t.Grants track size lease arena := by
  cases origin with
  | arena =>
      cases leased
      exact kept.grants_allocate size
  | detached =>
      cases leased
      exact kept.grants_detached size
  | sibling place =>
      obtain ⟨r, _, leased⟩ := Option.map_eq_some_iff.mp leased
      rw [Arena.sibling] at leased
      split at leased
      · cases leased
        exact kept.grants_allocate size
      · cases leased
        exact kept.grants_detached size

theorem take (kept : t.Kept track) {origin : Region.Origin}
    (leased : t.lease? size origin = some (lease, arena)) :
    (⟨arena, t.regions ++ [.zeroed lease], t.numbered lease⟩ : Tenancy).Kept track := by
  have grants := kept.grants leased
  have joined : (lease :: t.leases).Perm ((t.regions ++ [Region.zeroed lease]).map (·.lease)) := by
    rw [List.map_append]
    exact (List.perm_append_singleton lease t.leases).symm
  exact
    { accounts := grants.accounts.perm joined
      sized := List.forall_mem_append.mpr
        ⟨kept.sized, List.forall_mem_singleton.mpr List.length_replicate⟩
      tracked := grants.tracked
      distinct := grants.distinct
      earlier := grants.earlier
      listed := fun l member => grants.listed l ((joined.filter _).mem_iff.mpr member) }

theorem drop (kept : t.Kept track) {r : Region} (held : t.regions[place]? = some r) :
    t.arena.giveBack r = .ok (t.arena.release r.lease)
      ∧ (⟨t.arena.release r.lease, t.regions.eraseIdx place, t.numbers⟩ : Tenancy).Kept track := by
  obtain ⟨low, high, before, after, _⟩ := exists_around held
  have apart : t.leases.Perm (r.lease :: (t.regions.eraseIdx place).map (·.lease)) := by
    rw [leases, after, before]
    exact List.perm_middle.map _
  have accounts := kept.accounts.perm apart
  refine ⟨Arena.giveBack_of_agrees (accounts.agrees List.mem_cons_self)
    (kept.sized r (List.mem_of_getElem? held)), ?_⟩
  exact
    { accounts := accounts.release
      sized := fun x member => kept.sized x (List.mem_of_mem_eraseIdx member)
      tracked := (Arena.isSome_table_release _ _).trans kept.tracked
      distinct := kept.distinct
      earlier := by
        rw [Arena.nextId_release]
        exact kept.earlier
      listed := by
        intro l member
        have inside := (List.mem_filter.mp member).1
        refine kept.listed l (List.mem_filter.mpr ⟨?_, (List.mem_filter.mp member).2⟩)
        exact apart.mem_iff.mpr (List.mem_cons_of_mem _ inside) }

theorem replace (kept : t.Kept track) {r : Region} (held : t.regions[place]? = some r)
    {origin : Region.Origin} (leased : t.lease? size origin = some (lease, arena)) :
    arena.giveBack r = .ok (arena.release r.lease)
      ∧ (⟨arena.release r.lease, t.regions.set place (.zeroed lease), t.numbered lease⟩ :
        Tenancy).Kept track := by
  have grants := kept.grants leased
  obtain ⟨low, high, before, _, set⟩ := exists_around held
  have apart : (lease :: t.leases).Perm
      (r.lease :: (t.regions.set place (.zeroed lease)).map (·.lease)) := by
    have out : (low ++ r :: high).Perm (r :: (low ++ high)) := List.perm_middle
    have put : (low ++ .zeroed lease :: high).Perm (.zeroed lease :: (low ++ high)) :=
      List.perm_middle
    rw [leases, set, before]
    exact ((out.map (·.lease)).cons lease).trans
      ((List.Perm.swap _ _ _).trans ((put.symm.map (·.lease)).cons r.lease))
  have accounts := grants.accounts.perm apart
  refine ⟨Arena.giveBack_of_agrees (accounts.agrees List.mem_cons_self)
    (kept.sized r (List.mem_of_getElem? held)), ?_⟩
  exact
    { accounts := accounts.release
      sized := by
        intro x member
        rcases List.mem_or_eq_of_mem_set member with member | rfl
        · exact kept.sized x member
        · exact List.length_replicate
      tracked := (Arena.isSome_table_release _ _).trans grants.tracked
      distinct := grants.distinct
      earlier := by
        rw [Arena.nextId_release]
        exact grants.earlier
      listed := by
        intro l member
        have inside := (List.mem_filter.mp member).1
        refine grants.listed l (List.mem_filter.mpr ⟨?_, (List.mem_filter.mp member).2⟩)
        exact apart.mem_iff.mpr (List.mem_cons_of_mem _ inside) }

theorem write (kept : t.Kept track) {r : Region} (held : t.regions[place]? = some r)
    {offset : Nat} {bytes : Bytes} (room : offset + bytes.length ≤ r.bytes.length) :
    ({ t with regions := t.regions.set place (r.write offset bytes) } : Tenancy).Kept track := by
  obtain ⟨low, high, before, _, set⟩ := exists_around held
  have same : (t.regions.set place (r.write offset bytes)).map (·.lease) = t.leases := by
    rw [leases, set, before, List.map_append, List.map_append]
    rfl
  refine ⟨?_, ?_, kept.tracked, kept.distinct, kept.earlier, ?_⟩
  · rw [leases, same]
    exact kept.accounts
  · intro x member
    rcases List.mem_or_eq_of_mem_set member with member | rfl
    · exact kept.sized x member
    · exact (Bytes.length_overwrite room).trans (kept.sized r (List.mem_of_getElem? held))
  · rw [leases, same]
    exact kept.listed

theorem call_replace (kept : t.Kept track) {r : Region} (held : t.regions[place]? = some r)
    {origin : Region.Origin} (leased : t.lease? size origin = some (lease, arena)) :
    t.call (.replace place origin size)
      = .ok ⟨arena.release r.lease, t.regions.set place (.zeroed lease), t.numbered lease⟩ := by
  obtain ⟨returned, _⟩ := kept.replace held leased
  simp only [Tenancy.call, held, leased, returned]
  rfl

theorem call_drop (kept : t.Kept track) {r : Region} (held : t.regions[place]? = some r) :
    t.call (.drop place)
      = .ok ⟨t.arena.release r.lease, t.regions.eraseIdx place, t.numbers⟩ := by
  obtain ⟨returned, _⟩ := kept.drop held
  simp only [Tenancy.call, held, returned]
  rfl

theorem shape_zeroed (kept : t.Kept track) {origin : Region.Origin}
    (leased : t.lease? size origin = some (lease, arena)) :
    counts? t.shapes origin = some lease.accounted ∧ (Region.zeroed lease).bytes.length = size := by
  constructor
  · rw [counts?_shapes t size, leased, Option.map_some]
  · exact List.length_replicate.trans (kept.grants leased).size

theorem call_takes (kept : t.Kept track) (origin : Region.Origin) (size : Nat) :
    ∃ t', t.call (.take origin size) = .ok t' ∧ t'.Kept track
      ∧ t'.shapes = Call.reshape t.shapes (.take origin size) := by
  cases leased : t.lease? size origin with
  | none =>
      refine ⟨t, by simp only [Tenancy.call, leased], kept, ?_⟩
      rw [Call.reshape, counts?_shapes t size, leased]
      rfl
  | some granted =>
      obtain ⟨counted, length⟩ := kept.shape_zeroed leased
      refine ⟨_, by simp only [Tenancy.call, leased], kept.take leased, ?_⟩
      rw [Call.reshape, counted, shapes, List.map_append, ← length]
      rfl

theorem call_replaces (kept : t.Kept track) (place : Nat) (origin : Region.Origin) (size : Nat) :
    ∃ t', t.call (.replace place origin size) = .ok t' ∧ t'.Kept track
      ∧ t'.shapes = Call.reshape t.shapes (.replace place origin size) := by
  cases leased : t.lease? size origin with
  | none =>
      have still : t.call (.replace place origin size) = .ok t := by
        cases held : t.regions[place]? <;> simp only [Tenancy.call, held, leased]
      refine ⟨t, still, kept, ?_⟩
      rw [Call.reshape, counts?_shapes t size, leased]
      rfl
  | some granted =>
      obtain ⟨counted, length⟩ := kept.shape_zeroed leased
      rw [Call.reshape, counted]
      cases held : t.regions[place]? with
      | none =>
          refine ⟨t, by simp only [Tenancy.call, held], kept, ?_⟩
          exact (List.set_eq_of_length_le (length_shapes_le held)).symm
      | some r =>
          refine ⟨_, kept.call_replace held leased, (kept.replace held leased).2, ?_⟩
          rw [shapes, List.map_set, ← length]
          rfl

theorem call_drops (kept : t.Kept track) (place : Nat) :
    ∃ t', t.call (.drop place) = .ok t' ∧ t'.Kept track
      ∧ t'.shapes = Call.reshape t.shapes (.drop place) := by
  cases held : t.regions[place]? with
  | none =>
      refine ⟨t, by simp only [Tenancy.call, held], kept, ?_⟩
      exact (List.eraseIdx_of_length_le (length_shapes_le held)).symm
  | some r =>
      refine ⟨_, kept.call_drop held, (kept.drop held).2, ?_⟩
      rw [Call.reshape, shapes, shapes, List.eraseIdx_eq_take_drop_succ,
        List.eraseIdx_eq_take_drop_succ, List.map_append, List.map_take, List.map_drop]

theorem call_writes (kept : t.Kept track) (place offset : Nat) (bytes : Bytes) :
    ∃ t', t.call (.write place offset bytes) = .ok t' ∧ t'.Kept track ∧ t'.shapes = t.shapes := by
  cases held : t.regions[place]? with
  | none => exact ⟨t, by simp only [Tenancy.call, held], kept, rfl⟩
  | some r =>
      by_cases room : offset + bytes.length ≤ r.bytes.length
      · refine ⟨_, by simp only [Tenancy.call, held, if_pos room], kept.write held room, ?_⟩
        obtain ⟨low, high, before, _, set⟩ := exists_around held
        have length : (r.write offset bytes).bytes.length = r.bytes.length :=
          Bytes.length_overwrite room
        rw [shapes, shapes, set, before, List.map_append, List.map_append, List.map_cons,
          List.map_cons, length]
        rfl
      · exact ⟨t, by simp only [Tenancy.call, held, if_neg room], kept, rfl⟩

/-- No call meets a region that the table does not know. -/
theorem call (kept : t.Kept track) (c : Call) :
    ∃ t', t.call c = .ok t' ∧ t'.Kept track ∧ t'.shapes = c.reshape t.shapes := by
  cases c with
  | take origin size => exact kept.call_takes origin size
  | replace place origin size => exact kept.call_replaces place origin size
  | drop place => exact kept.call_drops place
  | write place offset bytes => exact kept.call_writes place offset bytes

theorem run (kept : t.Kept track) (calls : List Call) :
    ∃ t', t.run calls = .ok t' ∧ t'.Kept track
      ∧ t'.shapes = calls.foldl Call.reshape t.shapes := by
  induction calls generalizing t with
  | nil => exact ⟨t, rfl, kept, rfl⟩
  | cons c calls ih =>
      obtain ⟨t₁, called, kept₁, shapes₁⟩ := kept.call c
      obtain ⟨t', ended, kept', shapes'⟩ := ih kept₁
      refine ⟨t', ?_, kept', ?_⟩
      · rw [Tenancy.run, List.foldlM_cons, called]
        exact ended
      · rw [shapes', shapes₁, List.foldl_cons]

end Kept

/-- The accounts of an arena are right, and they stay right whatever happens next. -/
structure Exact (track : Bool) (t : Tenancy) : Prop where
  allocated : t.arena.allocated = total (·.bytes.length) t.counted
  live : t.arena.live = t.counted.length
  /-- No two regions that the arena ever allocated have the same number. -/
  numbers : t.numbers.Nodup
  ids : (t.counted.map (·.lease.id)).Nodup ∧ ∀ r ∈ t.counted, r.lease.id ∈ t.numbers
  tracked : t.arena.table.isSome = track
  /-- The table gives the length of each counted region under its number, and nothing else. -/
  table : ∀ rows ∈ t.arena.table, ∀ id row, rows.get? id = some row
    ↔ ∃ r ∈ t.counted, r.lease.id = id ∧ row = (id, r.bytes.length)
  /-- Each region can be given back: the table knows it, and with its length. -/
  known : ∀ r ∈ t.regions, t.arena.giveBack r = .ok (t.arena.release r.lease)
  /-- Detached regions come and go without the arena. -/
  detached : (∀ r ∈ t.regions, r.lease.accounted = false → t.arena.giveBack r = .ok t.arena)
    ∧ ∀ origin size lease arena, t.lease? size origin = some (lease, arena) →
      lease.accounted = false → arena = t.arena
  sibling : ∀ place r size lease arena, t.regions[place]? = some r →
    t.lease? size (.sibling place) = some (lease, arena) → lease.accounted = r.lease.accounted
  /-- A new region has the size asked for. If the arena is to count it, it has a number that no
  region ever had. -/
  granted : ∀ origin size lease arena, t.lease? size origin = some (lease, arena) →
    lease.size = size ∧ (origin = .arena → lease.accounted = true)
      ∧ (lease.accounted = true → lease.id ∉ t.numbers)
  taken : ∀ origin size lease arena, t.lease? size origin = some (lease, arena) →
    t.call (.take origin size) = .ok ⟨arena, t.regions ++ [.zeroed lease], t.numbered lease⟩
  /-- The new region is there before the old one is given back. -/
  replaced : ∀ place r origin size lease arena, t.regions[place]? = some r →
    t.lease? size origin = some (lease, arena) → t.call (.replace place origin size)
      = .ok ⟨arena.release r.lease, t.regions.set place (.zeroed lease), t.numbered lease⟩
  dropped : ∀ place r, t.regions[place]? = some r → t.call (.drop place)
    = .ok ⟨t.arena.release r.lease, t.regions.eraseIdx place, t.numbers⟩
  /-- A block that moves to a larger region replaces its region by a sibling. -/
  moves : ∀ place r size (b : Block) (l : Ledger),
    t.regions[place]? = some r → b.lease = r.lease → l.arena = t.arena →
    t.call (.replace place (.sibling place) size) = .ok ⟨(b.moveTo l size).2.arena,
      t.regions.set place (.zeroed (b.moveTo l size).1.lease), t.numbered (b.moveTo l size).1.lease⟩

theorem counted_leases (t : Tenancy) : Arena.counted t.leases = t.counted.map (·.lease) :=
  List.filter_map

theorem Kept.exact (kept : t.Kept track) : t.Exact track := by
  have accounts := kept.accounts
  have known : ∀ r ∈ t.regions, t.arena.giveBack r = .ok (t.arena.release r.lease) :=
    fun r member => Arena.giveBack_of_agrees (accounts.agrees (List.mem_map_of_mem member))
      (kept.sized r member)
  have sized : ∀ r ∈ t.counted, r.lease.size = r.bytes.length := fun r member =>
    (kept.sized r (List.mem_filter.mp member).1).symm
  constructor
  · rw [accounts.allocated, counted_leases, total_map]
    exact total_congr sized
  · rw [accounts.live, counted_leases, List.length_map]
  · exact kept.distinct
  · refine ⟨?_, fun r member => kept.listed r.lease ?_⟩
    · have distinct := accounts.distinct
      rw [counted_leases, List.map_map] at distinct
      exact distinct
    · rw [counted_leases]
      exact List.mem_map_of_mem member
  · exact kept.tracked
  · intro rows tracked id row
    rw [SearchTree.get?_eq_some_iff, accounts.table rows tracked, counted_leases]
    constructor
    · rintro ⟨⟨l, member, rfl⟩, rfl⟩
      obtain ⟨r, inside, rfl⟩ := List.mem_map.mp member
      exact ⟨r, inside, rfl, by rw [sized r inside]⟩
    · rintro ⟨r, inside, rfl, rfl⟩
      exact ⟨⟨r.lease, List.mem_map_of_mem inside, by rw [sized r inside]⟩, rfl⟩
  · exact known
  · refine ⟨fun r member outside => ?_, fun origin size lease arena leased =>
      (kept.grants leased).still⟩
    rw [known r member, Arena.release_of_detached outside]
  · intro place r size lease arena held leased
    obtain ⟨r', held', leased⟩ := Option.map_eq_some_iff.mp leased
    obtain rfl := Option.some.inj (held.symm.trans held')
    have accounted := Arena.accounted_sibling t.arena r.lease size
    rw [leased] at accounted
    exact accounted
  · intro origin size lease arena leased
    have grants := kept.grants leased
    refine ⟨grants.size, ?_, grants.fresh⟩
    rintro rfl
    cases leased
    rfl
  · intro origin size lease arena leased
    simp only [Tenancy.call, leased]
  · exact fun place r origin size lease arena held leased => kept.call_replace held leased
  · exact fun place r held => kept.call_drop held
  · intro place r size b l held own same
    cases beside : t.arena.sibling r.lease size with
    | mk lease arena =>
        have leased : t.lease? size (.sibling place) = some (lease, arena) := by
          rw [lease?, held, Option.map_some, beside]
        have moved : (b.moveTo l size).1.lease = lease
            ∧ (b.moveTo l size).2.arena = arena.release r.lease := by
          cases counted : b.counted <;>
            simp [Block.moveTo, Block.report, counted, own, same, beside, Ledger.count]
        rw [moved.1, moved.2]
        exact kept.call_replace held leased

theorem run_exact (track : Bool) (calls : List Call) :
    ∃ t, (start track).run calls = .ok t ∧ t.Exact track
      ∧ t.shapes = calls.foldl Call.reshape [] := by
  obtain ⟨t, ended, kept, shapes⟩ := (kept_start track).run calls
  exact ⟨t, ended, kept.exact, shapes⟩

/-- Regions from the arena, from outside and beside another; one moves and one is given back. -/
def someCalls : List Call :=
  [.take .arena 8, .take .detached 4, .take (.sibling 0) 16, .take (.sibling 1) 2,
    .write 0 1 [7, 7], .replace 0 (.sibling 0) 32, .drop 1]

theorem run_exact_someCalls : ∃ t, (start true).run someCalls = .ok t ∧ t.Exact true
    ∧ t.shapes = [(true, 32), (true, 16), (false, 2)] ∧ t.arena.allocated = 48 ∧ t.arena.live = 2
    ∧ t.numbers = [3, 2, 1] ∧ t.arena.table.map (·.toList) = some [(2, 16), (3, 32)] := by
  obtain ⟨t, ended, exact, shapes⟩ := run_exact true someCalls
  have counts : ((start true).run someCalls).toOption.map (fun t =>
      (t.arena.allocated, t.arena.live, t.numbers)) = some (48, 2, [3, 2, 1]) := by
    decide +kernel
  have table : ((start true).run someCalls).toOption.map (fun t => t.arena.table.map (·.toList))
      = some (some [(2, 16), (3, 32)]) := by
    decide +kernel
  rw [ended] at counts table
  obtain ⟨allocated, live, numbers⟩ :
      t.arena.allocated = 48 ∧ t.arena.live = 2 ∧ t.numbers = [3, 2, 1] := by
    simpa [Except.toOption] using counts
  exact ⟨t, ended, exact, shapes, allocated, live, numbers, Option.some.inj table⟩

end

end Tenancy

end OrderedStore
