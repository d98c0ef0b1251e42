import OrderedStore.Proofs.Locks.Order
import OrderedStore.Total

/-! # Parties that lock several keys

A party takes the shards of its keys one after the other, waits at each for those who hold it, and
drops all of them together. Nobody asks for a shard that they hold already, and as long as there are
parties one of them can go on, so that all of them come to their end.
-/

namespace OrderedStore

inductive LockMode where
  | read
  | write
deriving Repr, DecidableEq

/-- Who locks several keys. -/
structure Party where
  mode : LockMode
  keys : List Bytes
  /-- The shards that the party holds, in the order in which it took them. -/
  taken : List Nat
  awaited : List Nat
deriving Repr, DecidableEq

namespace Party

/-- A party that has taken nothing yet. -/
def arrived (hash : Bytes → UInt64) (t : LockTable) (mode : LockMode) (keys : List Bytes) : Party :=
  ⟨mode, keys, [], t.orderBy hash keys⟩

/-- The party keeps whoever comes to lock shard `n`, itself as well, from doing so. -/
def Bars (p : Party) (mode : LockMode) (n : Nat) : Prop :=
  n ∈ p.taken ∧ (p.mode = .write ∨ mode = .write)

/-- The shard that the party asks for, if it awaits any. -/
def next (p : Party) : Nat := p.awaited.headD 0

/-- What always holds of a party: it takes each shard of its keys once, the lower ones first. -/
structure Orderly (hash : Bytes → UInt64) (t : LockTable) (p : Party) : Prop where
  parts : p.taken ++ p.awaited = t.orderBy hash p.keys
  once : p.taken.Nodup
  ahead : ∀ n ∈ p.awaited, ∀ m ∈ p.taken, m < n

theorem Orderly.of_parts {hash : Bytes → UInt64} {t : LockTable} {p : Party}
    (parts : p.taken ++ p.awaited = t.orderBy hash p.keys) : p.Orderly hash t := by
  have ascends := t.pairwise_orderBy hash p.keys
  rw [← parts] at ascends
  obtain ⟨held, _, ahead⟩ := List.pairwise_append.mp ascends
  exact ⟨parts, held.imp Nat.ne_of_lt, fun n later m now => ahead m now n later⟩

theorem Orderly.fresh {hash : Bytes → UInt64} {t : LockTable} {p : Party}
    (orderly : p.Orderly hash t) : ∀ n ∈ p.awaited, n ∉ p.taken := fun n later now =>
  Nat.lt_irrefl n (orderly.ahead n later n now)

end Party

namespace LockTable

/-- What parties do: one of them takes the next of its shards, or drops them when it has all. -/
inductive Moves : List Party → List Party → Prop where
  | take {low high : List Party} {p : Party} {n : Nat} {rest : List Nat} :
      p.awaited = n :: rest → (∀ q ∈ low ++ p :: high, ¬q.Bars p.mode n) →
      Moves (low ++ p :: high)
        (low ++ { p with taken := p.taken ++ [n], awaited := rest } :: high)
  | leave {low high : List Party} {p : Party} :
      p.awaited = [] → Moves (low ++ p :: high) (low ++ high)

/-- The parties that may be at a table at the same time. -/
inductive Locking (hash : Bytes → UInt64) (t : LockTable) : List Party → Prop where
  | idle : Locking hash t []
  | arrive {parties : List Party} (mode : LockMode) (keys : List Bytes) :
      Locking hash t parties → Locking hash t (.arrived hash t mode keys :: parties)
  | move {parties parties' : List Party} :
      Locking hash t parties → Moves parties parties' → Locking hash t parties'

/-- A number of moves, one after the other. -/
inductive Runs : Nat → List Party → List Party → Prop where
  | stay {parties : List Party} : Runs 0 parties parties
  | move {parties parties' parties'' : List Party} {count : Nat} :
      Moves parties parties' → Runs count parties' parties'' → Runs (count + 1) parties parties''

/-- How many moves parties make before all have left. -/
def work (parties : List Party) : Nat := total (·.awaited.length + 1) parties

section

variable {hash : Bytes → UInt64} {t : LockTable} {parties parties' : List Party}

theorem Moves.orderly (moves : Moves parties parties') (all : ∀ p ∈ parties, p.Orderly hash t) :
    ∀ p ∈ parties', p.Orderly hash t := by
  cases moves with
  | @take low high p n rest next free =>
      obtain ⟨before, others⟩ := List.forall_mem_append.mp all
      obtain ⟨here, behind⟩ := List.forall_mem_cons.mp others
      have parts := here.parts
      rw [next, List.append_cons] at parts
      exact List.forall_mem_append.mpr ⟨before, List.forall_mem_cons.mpr ⟨.of_parts parts, behind⟩⟩
  | leave _ =>
      obtain ⟨before, others⟩ := List.forall_mem_append.mp all
      exact List.forall_mem_append.mpr ⟨before, (List.forall_mem_cons.mp others).2⟩

theorem Locking.orderly (locking : Locking hash t parties) : ∀ p ∈ parties, p.Orderly hash t := by
  induction locking with
  | idle => exact List.forall_mem_nil _
  | arrive mode keys _ ih => exact List.forall_mem_cons.mpr ⟨.of_parts rfl, ih⟩
  | move _ moves ih => exact moves.orderly ih

/-- Each move brings the parties one move closer to their end. -/
theorem Moves.work_eq (moves : Moves parties parties') : work parties = work parties' + 1 := by
  cases moves with
  | take next _ =>
      simp only [work, total_append, total_cons, next, List.length_cons]
      omega
  | leave done =>
      simp only [work, total_append, total_cons, done, List.length_nil]
      omega

theorem Runs.work_eq {count : Nat} (runs : Runs count parties parties') :
    work parties = work parties' + count := by
  induction runs with
  | stay => rfl
  | move moves _ ih => rw [moves.work_eq, ih, Nat.add_assoc]

/-- Parties never wait for each other in a circle: one of them can go on. -/
theorem Locking.exists_moves (locking : Locking hash t parties) (some_party : parties ≠ []) :
    ∃ parties', Moves parties parties' := by
  by_cases complete : ∃ p ∈ parties, p.awaited = []
  · obtain ⟨p, member, done⟩ := complete
    obtain ⟨low, high, rfl⟩ := List.append_of_mem member
    exact ⟨_, .leave done⟩
  · -- nobody holds the greatest of the shards that are asked for next
    let p := parties.maxOn Party.next some_party
    have member : p ∈ parties := List.maxOn_mem
    cases next : p.awaited with
    | nil => exact absurd ⟨p, member, next⟩ complete
    | cons n rest =>
        have free : ∀ q ∈ parties, n ∉ q.taken := by
          intro q waits held
          cases later : q.awaited with
          | nil => exact complete ⟨q, waits, later⟩
          | cons m _ =>
              have ahead := (locking.orderly q waits).ahead m (later ▸ List.mem_cons_self) n held
              have greatest : q.next ≤ p.next := List.le_apply_maxOn_of_mem (f := Party.next) waits
              rw [Party.next, Party.next, later, next] at greatest
              exact Nat.lt_irrefl n (Nat.lt_of_lt_of_le ahead greatest)
        obtain ⟨low, high, split⟩ := List.append_of_mem member
        rw [split] at free ⊢
        exact ⟨_, .take next fun q waits bars => free q waits bars.1⟩

theorem Locking.exists_runs {parties : List Party} (locking : Locking hash t parties) :
    Runs (work parties) parties [] := by
  by_cases idle : parties = []
  · subst idle
    exact .stay
  · obtain ⟨parties', moves⟩ := locking.exists_moves idle
    have closer := moves.work_eq
    have later := (locking.move moves).exists_runs
    rw [closer]
    exact .move moves later
termination_by work parties

theorem Locking.after {count : Nat} (runs : Runs count parties parties')
    (locking : Locking hash t parties) : Locking hash t parties' := by
  induction runs with
  | stay => exact locking
  | move moves _ ih => exact ih (locking.move moves)

/-- If nobody else arrives, then in whatever order the parties move they can go on until all have
left, and they make the same number of moves. -/
theorem Locking.runs_out {count : Nat} (locking : Locking hash t parties)
    (runs : Runs count parties parties') :
    ∃ rest, Runs rest parties' [] ∧ work parties = rest + count :=
  ⟨work parties', (locking.after runs).exists_runs, runs.work_eq⟩

end

/-- For any hash: the shards of several keys are locked in strictly ascending order, they are those
of the keys and depend on the set of keys alone, what two lists of keys share comes in the same order
for both, and nobody who locks several keys ever asks for a shard that they hold. -/
theorem locks_ascend (hash : Bytes → UInt64) (t : LockTable) (keys : List Bytes) :
    (t.orderBy hash keys).Pairwise (· < ·)
      ∧ (∀ n, n ∈ t.orderBy hash keys ↔ ∃ key ∈ keys, t.shardBy hash key = n)
      ∧ (∀ keys', (∀ key, key ∈ keys ↔ key ∈ keys') →
        t.orderBy hash keys = t.orderBy hash keys')
      ∧ (∀ keys', (t.orderBy hash keys).filter (· ∈ t.orderBy hash keys')
        = (t.orderBy hash keys').filter (· ∈ t.orderBy hash keys))
      ∧ ∀ parties, Locking hash t parties → ∀ p ∈ parties,
        p.taken ++ p.awaited = t.orderBy hash p.keys ∧ p.taken.Nodup
          ∧ ∀ n ∈ p.awaited, n ∉ p.taken := by
  refine ⟨t.pairwise_orderBy hash keys, fun n => t.mem_orderBy hash, fun _ => t.orderBy_congr hash,
    t.shared_orderBy hash keys, ?_⟩
  intro parties locking p member
  have orderly := locking.orderly p member
  exact ⟨orderly.parts, orderly.once, orderly.fresh⟩

theorem locks_ascend_repeated_key :
    (create 31).order [[98], [97], [97]] = (create 31).order [[97], [98]]
      ∧ ∃ p, Locking Xxh64.hash (create 31) [p] ∧ p.taken = [21] ∧ p.awaited = [25]
        ∧ p.taken ++ p.awaited = (create 31).order p.keys ∧ ∀ n ∈ p.awaited, n ∉ p.taken := by
  obtain ⟨ascends, members, same, _, parties⟩ :=
    locks_ascend Xxh64.hash (create 31) [[98], [97], [97]]
  have order : (create 31).orderBy Xxh64.hash [[98], [97], [97]] = [21, 25] := by
    have low : (create 31).shardBy Xxh64.hash [97] = 21 := by decide +kernel
    have high : (create 31).shardBy Xxh64.hash [98] = 25 := by decide +kernel
    apply eq_of_ascending ascends (by decide)
    intro n
    rw [members]
    simp [low, high, or_comm, eq_comm]
  have locking : Locking Xxh64.hash (create 31) [⟨.write, [[98], [97], [97]], [21], [25]⟩] := by
    have arrived : Locking Xxh64.hash (create 31) [⟨.write, [[98], [97], [97]], [], [21, 25]⟩] :=
      order ▸ .arrive .write [[98], [97], [97]] .idle
    exact .move arrived (@Moves.take [] [] _ 21 [25] rfl (by simp [Party.Bars]))
  obtain ⟨parts, _, fresh⟩ := parties _ locking _ List.mem_cons_self
  exact ⟨same [[97], [98]] (by simp [or_comm]), _, locking, rfl, rfl, parts, fresh⟩

end LockTable

end OrderedStore
