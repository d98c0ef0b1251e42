import OrderedStore.Proofs.Packed.Deletions

/-! # Packed maps refine the reference catalog

Every call on a map whose store lays out a catalog and has no ceiling gives the answer that the
catalog gives, and leaves a store that lays out the catalog after it. Calls on a new map over a
freshly opened store are therefore calls on the empty catalog.
-/

namespace OrderedStore.Packed

namespace Map

/-- What a call answers, and the map after it. -/
def answer (m : Map) : Call → Except Fault Answer × Map
  | .set user field value =>
    let (result, m) := m.set user field value
    (result.map .set, m)
  | .get user field => ((m.get user field).map .value, m)
  | .delete user field =>
    let (result, m) := m.delete user field
    (result.map .flag, m)
  | .size user => ((m.size user).map .number, m)
  | .fields user => ((m.fields user).map .fields, m)

/-- What calls in their order answer, and the map after them. -/
def answers (m : Map) : List Call → List (Except Fault Answer) × Map
  | [] => ([], m)
  | call :: calls =>
    let (answer, m) := m.answer call
    let (answers, m) := m.answers calls
    (answer :: answers, m)

/-- A call that is answered with a fault, or is a set that was refused. -/
def Declined (result : Except Fault Answer) : Prop :=
  result = .ok (.set .refused) ∨ ∃ fault, result = .error fault

/-- A map over a store without a ceiling that lays out a catalog. -/
structure Shows (m : Map) (o : OrderedStore.Options) (p : Options) (c : Catalog) (l : Layout) :
    Prop where
  lays : Lays m.store c l
  storeOptions : m.store.options = o
  options : m.options = p
  unbounded : o.memoryCeiling = none

/-- An answer that the catalog gives to a call, with the map after it: it is the same map, or one
that shows the catalog after the call. -/
inductive Obeys (m : Map) (o : OrderedStore.Options) (p : Options) (c : Catalog) (l : Layout)
    (call : Call) : Except Fault Answer × Map → Prop where
  | same {result : Except Fault Answer} : c.Step o p l call result c l →
      Obeys m o p c l call (result, m)
  | changed {answer : Answer} {m' : Map} {c' : Catalog} {l' : Layout} :
      c.Step o p l call (.ok answer) c' l' → answer ≠ .set .refused → m'.Shows o p c' l' →
      Obeys m o p c l call (.ok answer, m')

end Map

namespace Map.Obeys

variable {m : Map} {o : OrderedStore.Options} {p : Options} {c : Catalog} {l : Layout} {call : Call}
  {result : Except Fault Answer × Map}

theorem exists_step (obeys : m.Obeys o p c l call result) (shows : m.Shows o p c l) :
    ∃ c' l', c.Step o p l call result.1 c' l' ∧ result.2.Shows o p c' l' := by
  cases obeys with
  | same step => exact ⟨c, l, step, shows⟩
  | changed step _ shows' => exact ⟨_, _, step, shows'⟩

theorem eq_of_declined (obeys : m.Obeys o p c l call result) (declined : Declined result.1) :
    result.2 = m := by
  cases obeys with
  | same _ => rfl
  | changed _ granted _ =>
      rcases declined with refused | ⟨fault, failed⟩
      · exact absurd (Except.ok.inj refused) granted
      · contradiction

end Map.Obeys

namespace Map.Shows

variable {m : Map} {o : OrderedStore.Options} {p : Options} {c : Catalog} {l : Layout}

theorem not_atCeiling (shows : m.Shows o p c l) : m.store.atCeiling = false := by
  rw [Store.atCeiling, shows.storeOptions, shows.unbounded]
  rfl

theorem answer_of_not_addressable {call : Call} {user field : Bytes}
    (named : call.address? = some (user, field)) (out : ¬Addressable user field) :
    ∃ cause, m.answer call = (.error (.misuse cause), m) := by
  cases call with
  | set user' field' value =>
      obtain ⟨rfl, rfl⟩ := Prod.mk.inj (Option.some.inj named)
      obtain ⟨cause, refused⟩ := set_of_not_addressable (m := m) out value
      exact ⟨cause, by rw [answer, refused]; rfl⟩
  | get user' field' =>
      obtain ⟨rfl, rfl⟩ := Prod.mk.inj (Option.some.inj named)
      obtain ⟨cause, refused⟩ := get_of_not_addressable (m := m) out
      exact ⟨cause, by rw [answer, refused]; rfl⟩
  | delete user' field' =>
      obtain ⟨rfl, rfl⟩ := Prod.mk.inj (Option.some.inj named)
      obtain ⟨cause, refused⟩ := delete_of_not_addressable (m := m) out
      exact ⟨cause, by rw [answer, refused]; rfl⟩
  | size user' => contradiction
  | fields user' => contradiction

theorem obeys_set (shows : m.Shows o p c l) {user field : Bytes}
    (addressable : Addressable user field) (value : Bytes) :
    m.Obeys o p c l (.set user field value) (m.answer (.set user field value)) := by
  have outcome := shows.lays.set addressable value
  obtain ⟨_, rfl, rfl, unbounded⟩ := shows
  change m.Obeys _ _ c l _ ((m.set user field value).1.map .set, (m.set user field value).2)
  generalize m.set user field value = result at outcome ⊢
  cases outcome with
  | stored s splits granted lays options =>
      have after : Map.Shows ⟨s, m.options, splits⟩ m.store.options m.options
          (c.set user field value) (l.set m.options user field value) :=
        ⟨lays, options, rfl, unbounded⟩
      cases found : (c user).get? field with
      | none => exact .changed (.inserted addressable granted found) (by simp) after
      | some old => exact .changed (.replaced addressable granted found) (by simp) after
  | ceiling reached =>
      rw [Store.atCeiling, unbounded] at reached
      contradiction
  | large refused => exact .same (.refused addressable refused)
  | failed refused => exact .same (.failed addressable refused)

theorem obeys_delete (shows : m.Shows o p c l) {user field : Bytes}
    (addressable : Addressable user field) :
    m.Obeys o p c l (.delete user field) (m.answer (.delete user field)) := by
  have outcome := shows.lays.delete addressable
  have step : c.Step o p l (.delete user field) _ _ _ := .delete addressable
  change m.Obeys o p c l _ ((m.delete user field).1.map .flag, (m.delete user field).2)
  generalize m.delete user field = result at outcome ⊢
  cases outcome with
  | absent found =>
      rw [found, Catalog.erase_of_absent found,
        shows.lays.erase_of_absent addressable.user_lt found] at step
      exact .same step
  | deleted s there _ lays options =>
      rw [there] at step
      have after : Map.Shows { m with store := s } o p (c.erase user field) (l.erase user field) :=
        ⟨lays, options.trans shows.storeOptions, shows.options, shows.unbounded⟩
      exact .changed step (by decide) after
  | ceiling _ reached _ =>
      rw [shows.not_atCeiling] at reached
      contradiction

theorem obeys_size (shows : m.Shows o p c l) (user : Bytes) :
    m.Obeys o p c l (.size user) (m.answer (.size user)) := by
  by_cases short : user.length < 4294967296
  · rw [answer, shows.lays.holds.size_eq short]
    exact .same (.size short)
  · rw [answer, size_of_long (Nat.not_lt.mp short)]
    exact .same (.sizeOutside (Nat.not_lt.mp short))

theorem obeys_fields (shows : m.Shows o p c l) (user : Bytes) :
    m.Obeys o p c l (.fields user) (m.answer (.fields user)) := by
  by_cases short : user.length < 4294967296
  · rw [answer, shows.lays.holds.fields_eq short]
    exact .same (.fields short)
  · rw [answer, fields_of_long (Nat.not_lt.mp short)]
    exact .same (.fieldsOutside (Nat.not_lt.mp short))

theorem obeys (shows : m.Shows o p c l) (call : Call) : m.Obeys o p c l call (m.answer call) := by
  by_cases out : ∃ user field, call.address? = some (user, field) ∧ ¬Addressable user field
  · obtain ⟨user, field, named, out⟩ := out
    obtain ⟨cause, refused⟩ := answer_of_not_addressable (m := m) named out
    rw [refused]
    exact .same (.outside cause named out)
  · have addressable : ∀ user field, call.address? = some (user, field) → Addressable user field :=
      fun user field named => Classical.byContradiction fun bad => out ⟨user, field, named, bad⟩
    cases call with
    | set user field value => exact shows.obeys_set (addressable user field rfl) value
    | get user field =>
        have fits := addressable user field rfl
        rw [answer, shows.lays.holds.get_eq fits]
        exact .same (.get fits)
    | delete user field => exact shows.obeys_delete (addressable user field rfl)
    | size user => exact shows.obeys_size user
    | fields user => exact shows.obeys_fields user

theorem exists_runs (shows : m.Shows o p c l) (calls : List Call) :
    ∃ c' l', c.Runs o p l calls (m.answers calls).1 c' l'
      ∧ (m.answers calls).2.Shows o p c' l' := by
  induction calls generalizing m c l with
  | nil => exact ⟨c, l, .nil, shows⟩
  | cons call calls ih =>
      obtain ⟨c', l', step, shows'⟩ := (shows.obeys call).exists_step shows
      obtain ⟨c'', l'', runs, shows''⟩ := ih shows'
      exact ⟨c'', l'', .cons step runs, shows''⟩

end Map.Shows

/-- A new map over a freshly opened store without a ceiling answers every run of calls as a catalog
that was empty at first. After them its chunks are those of the layout with the fields of the
catalog, and a call that it declines leaves it alone. -/
theorem Map.answers_refine_catalog {o : OrderedStore.Options} {p : Options}
    (accepted : o.check = .ok ()) (unbounded : o.memoryCeiling = none)
    (accepted' : p.check = .ok ()) :
    ∃ s m, Store.create o = .ok s ∧ create s p = .ok m ∧ ∀ calls : List Call,
      (∃ c l, Catalog.empty.Runs o p .empty calls (m.answers calls).1 c l
        ∧ Lays (m.answers calls).2.store c l)
      ∧ ∀ call, Declined ((m.answers calls).2.answer call).1 →
        ((m.answers calls).2.answer call).2 = (m.answers calls).2 := by
  obtain ⟨s, opened, wf, options, nothing⟩ := Store.WellFormed.of_check accepted
  have created : create s p = .ok ⟨s, p, 0⟩ := by
    simp only [create, accepted', bind, Except.bind, pure, Except.pure]
  have shows : (⟨s, p, 0⟩ : Map).Shows o p .empty .empty :=
    ⟨lays_empty wf nothing, options, rfl, unbounded⟩
  refine ⟨s, _, opened, created, ?_⟩
  intro calls
  obtain ⟨c, l, runs, shows'⟩ := shows.exists_runs calls
  refine ⟨⟨c, l, runs, shows'.lays⟩, ?_⟩
  intro call declined
  exact (shows'.obeys call).eq_of_declined declined

/-- Options under which a chunk of two fields splits in two. -/
def Map.fiveBytes : Options := { maxValueSize := 5 }

/-- Calls on two user keys: two chunks split, a field is replaced, two are deleted, one of them with
its chunk, and two sets are not carried out. -/
def Map.someCalls : List Call :=
  [.set [117] [97] [49], .set [117] [98] [50], .set [117] [99] [51], .set [117] [97] [52],
    .set [118] [97] [53], .get [117] [98], .delete [117] [99], .get [117] [99],
    .set [117] [100] (.replicate 60 0), .set [117] [] [], .size [117], .fields [117],
    .fields [118], .delete [118] [97], .size [118]]

theorem Map.answers_refine_catalog_fiveBytes : ∃ s m, Store.create Store.smallBlocks = .ok s
    ∧ create s fiveBytes = .ok m
    ∧ (m.answers someCalls).1 = [.ok (.set .inserted), .ok (.set .inserted), .ok (.set .inserted),
      .ok (.set .replaced), .ok (.set .inserted), .ok (.value (some [50])), .ok (.flag true),
      .ok (.value none), .ok (.set .refused), .error (.misuse .packedFieldMissing),
      .ok (.number 2), .ok (.fields [[97], [98]]), .ok (.fields [[97]]), .ok (.flag true),
      .ok (.number 0)]
    ∧ (m.answers someCalls).2.splits = 2
    ∧ ∃ c l, Catalog.empty.Runs Store.smallBlocks fiveBytes .empty someCalls
        (m.answers someCalls).1 c l
      ∧ Lays (m.answers someCalls).2.store c l := by
  obtain ⟨s, m, opened, made, refines⟩ :=
    answers_refine_catalog (o := Store.smallBlocks) (p := fiveBytes) rfl rfl rfl
  obtain ⟨runs, _⟩ := refines someCalls
  refine ⟨s, m, opened, made, ?_, ?_, runs⟩
  · cases opened
    cases made
    decide +kernel
  · cases opened
    cases made
    decide +kernel

end OrderedStore.Packed
