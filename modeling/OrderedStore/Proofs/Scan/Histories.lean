import OrderedStore.Proofs.Scan.Cursors

/-! # Scans under writes

Between two calls on a scan anybody may write to the store. Then a scan is no cursor any more: its
batch was copied from a store that is gone. What it has returned and what its batch holds still come
in the order of the scan, and whatever was live all the time is either among them or lies beyond.
-/

namespace OrderedStore

namespace Store

/-- The calls that change a store. -/
inductive Write : Type 1 where
  | put (key value : Bytes)
  | delete (key : Bytes)
  | deleteRange (start stop : Option Bytes)
  | compactAll
  | execute {ρ : Type} (op : Operation ρ)

/-- The store after a write. -/
def written (s : Store) : Write → Store
  | .put key value => (s.put key value).2
  | .delete key => (s.delete key).2
  | .deleteRange start stop => (s.deleteRange start stop).2
  | .compactAll => s.compactAll.2
  | .execute op => (s.execute op).store

theorem Reachable.written {o : Options} {s : Store} (reachable : Reachable o s) (write : Write) :
    Reachable o (s.written write) := by
  cases write with
  | put key value => exact .put key value reachable
  | delete key => exact .delete key reachable
  | deleteRange start stop => exact .deleteRange start stop reachable
  | compactAll => exact .compactAll reachable
  | execute op => exact .execute op reachable

end Store

/-- What may happen while a scan is open. -/
inductive Event : Type 1 where
  | write (write : Store.Write)
  | call (call : Scan.Call)

/-- The row that a call took out of a scan. -/
def Scan.Call.taken : Call → Except Misuse Reply → Run
  | next, .ok (.row (some r)) | previous, .ok (.row (some r)) => [r]
  | _, _ => []

/-- A scan, the store that it reads and what has become of both since the scan was opened. -/
structure Session where
  store : Store
  scan : Scan
  /-- The stores that a write replaced, the latest first. -/
  past : List Store
  /-- The rows that the scan returned, in their order. -/
  returned : Run

namespace Session

/-- The session of a scan that was just opened. -/
def start (store : Store) (scan : Scan) : Session := ⟨store, scan, [], []⟩

/-- The store at all moments since the scan was opened, now included. -/
def moments (h : Session) : List Store := h.store :: h.past

def after (h : Session) : Event → Session
  | .write write => { h with store := h.store.written write, past := h.moments }
  | .call call =>
    let (reply, scan) := h.scan.reply h.store call
    { h with scan := scan, returned := h.returned ++ call.taken reply }

/-- The session after events in their order. -/
def run (h : Session) (events : List Event) : Session := events.foldl after h

/-- A key has been live at all moments since the scan was opened. -/
def Steady (h : Session) (key : Bytes) : Prop :=
  ∀ store ∈ h.moments, ∃ r ∈ store.liveRecords, r.key = key

/-- The scan tells that it has come to its end. -/
def Ended (h : Session) : Prop :=
  (h.scan.reply h.store (.onward h.scan.reverse)).1 = .ok (.row none)
    ∨ (h.scan.reply h.store (.looking h.scan.reverse)).1 = .ok (.flag false)

/-- What the scan has copied so far: the rows returned and those of its batch. -/
def copied (h : Session) : Run := h.returned ++ h.scan.batch

/-- What holds whatever happens while a scan from `start` up to `stop` is open. -/
structure Sound (h : Session) (start stop : Option Bytes) (reverse : Bool) : Prop where
  wellFormed : h.store.WellFormed
  alike : (Scan.fresh start stop reverse).Alike h.scan
  last : h.scan.last = h.returned.getLast?.map (·.key)
  ordered : h.copied.Pairwise fun r r' => Scan.leads reverse r.key r'.key = true
  inside : ∀ r ∈ h.copied, inRange start stop r.key = true
  lived : ∀ r ∈ h.copied, ∃ store ∈ h.moments, r ∈ store.liveRecords
  /-- A key that was live all the time is among the rows copied or lies beyond them. -/
  covered : ∀ key, inRange start stop key = true → h.Steady key →
    (∃ r ∈ h.copied, r.key = key)
      ∨ h.scan.done = false ∧ ∀ r ∈ h.copied, Scan.leads reverse r.key key = true

namespace Sound

variable {h : Session} {start stop : Option Bytes} {reverse : Bool}

theorem placed (sound : h.Sound start stop reverse) : h.scan.Placed := by
  intro key member
  rw [sound.last] at member
  obtain ⟨r, found, rfl⟩ := Option.map_eq_some_iff.mp member
  rw [sound.alike.start, sound.alike.stop]
  exact sound.inside r (List.mem_append_left _ (List.mem_of_getLast? found))

/-- A scan awaits the keys of its range that lie beyond all rows returned. -/
theorem awaits_iff (sound : h.Sound start stop reverse) (key : Bytes) :
    h.scan.awaits key = true
      ↔ inRange start stop key = true ∧ ∀ r ∈ h.returned, Scan.leads reverse r.key key = true := by
  have order := (List.pairwise_append.mp sound.ordered).1
  rw [Scan.awaits, Bool.and_eq_true, sound.alike.start, sound.alike.stop, sound.alike.reverse,
    sound.last]
  apply and_congr Iff.rfl
  cases last : h.returned.getLast? with
  | none =>
      rw [List.getLast?_eq_none_iff.mp last]
      simp
  | some final =>
      obtain ⟨earlier, split⟩ := List.getLast?_eq_some_iff.mp last
      rw [split] at order ⊢
      obtain ⟨_, _, before⟩ := List.pairwise_append.mp order
      constructor
      · intro beyond r member
        rcases List.mem_append.mp member with early | late
        · exact Scan.leads_trans (before r early final List.mem_cons_self) beyond
        · rw [List.mem_singleton.mp late]
          exact beyond
      · intro beyond
        exact beyond final (List.mem_append_right _ List.mem_cons_self)

theorem mem_due_iff (sound : h.Sound start stop reverse) {r : Record} :
    r ∈ h.scan.due h.store.liveRecords ↔ r ∈ h.store.liveRecords
      ∧ inRange start stop r.key = true
      ∧ ∀ earlier ∈ h.returned, Scan.leads reverse earlier.key r.key = true :=
  Scan.mem_due.trans (and_congr Iff.rfl (sound.awaits_iff r.key))

/-- A key that was live all the time and is not among the rows returned is due. -/
theorem returned_or_due (sound : h.Sound start stop reverse) (unfilled : h.scan.batch = [])
    {key : Bytes} (inside : inRange start stop key = true) (steady : h.Steady key) :
    (∃ r ∈ h.returned, r.key = key)
      ∨ (∀ r ∈ h.returned, Scan.leads reverse r.key key = true)
        ∧ ∃ r ∈ h.scan.due h.store.liveRecords, r.key = key := by
  have copied_eq : h.copied = h.returned := by rw [copied, unfilled, List.append_nil]
  have covered := sound.covered key inside steady
  rw [copied_eq] at covered
  rcases covered with found | ⟨_, beyond⟩
  · exact .inl found
  · obtain ⟨r, live, rfl⟩ := steady h.store List.mem_cons_self
    exact .inr ⟨beyond, r, sound.mem_due_iff.mpr ⟨live, inside, beyond⟩, rfl⟩

theorem copies (sound : h.Sound start stop reverse) (unfilled : h.scan.batch = []) {scan : Scan}
    (copies : h.scan.Copies scan (h.scan.due h.store.liveRecords)) :
    ({ h with scan := scan } : Session).Sound start stop reverse := by
  obtain ⟨rest, due, ends⟩ := copies.batched
  have copied_eq : h.copied = h.returned := by rw [copied, unfilled, List.append_nil]
  have order := h.scan.pairwise_due sound.wellFormed.ascending
  rw [due, sound.alike.reverse] at order
  obtain ⟨batch_order, _, batch_first⟩ := List.pairwise_append.mp order
  have awaited : ∀ r ∈ scan.batch, r ∈ h.store.liveRecords ∧ inRange start stop r.key = true
      ∧ ∀ earlier ∈ h.returned, Scan.leads reverse earlier.key r.key = true := fun r member =>
    sound.mem_due_iff.mp (due ▸ List.mem_append_left rest member)
  refine
    { wellFormed := sound.wellFormed
      alike := ?_
      last := ?_
      ordered := ?_
      inside := ?_
      lived := ?_
      covered := ?_ }
  · rw [copies.same]
    exact ⟨sound.alike.start, sound.alike.stop, sound.alike.reverse⟩
  · rw [copies.same]
    exact sound.last
  · apply List.pairwise_append.mpr
    refine ⟨copied_eq ▸ sound.ordered, batch_order, ?_⟩
    intro earlier before r member
    exact (awaited r member).2.2 earlier before
  · intro r member
    rcases List.mem_append.mp member with before | now
    · exact sound.inside r (copied_eq ▸ before)
    · exact (awaited r now).2.1
  · intro r member
    rcases List.mem_append.mp member with before | now
    · exact sound.lived r (copied_eq ▸ before)
    · exact ⟨h.store, List.mem_cons_self, (awaited r now).1⟩
  · intro key inside steady
    rcases sound.returned_or_due unfilled inside steady with
      ⟨r, member, same⟩ | ⟨beyond, r, member, rfl⟩
    · exact .inl ⟨r, List.mem_append_left _ member, same⟩
    · rcases List.mem_append.mp (due ▸ member) with now | later
      · exact .inl ⟨r, List.mem_append_right _ now, rfl⟩
      · -- what does not fit the batch lies beyond it, and the scan is not done
        right
        constructor
        · apply Bool.eq_false_iff.mpr
          intro done
          rw [ends done] at later
          contradiction
        · intro earlier before
          rcases List.mem_append.mp before with returned | batched
          · exact beyond earlier returned
          · exact batch_first earlier batched r later

theorem fill (sound : h.Sound start stop reverse) :
    ({ h with scan := h.scan.fill h.store } : Session).Sound start stop reverse := by
  rcases Scan.fill_cases sound.wellFormed sound.placed with ⟨same, _⟩ | ⟨unfilled, _, copies⟩
  · rw [same]
    exact sound
  · exact sound.copies unfilled copies

theorem take (sound : h.Sound start stop reverse) {r : Record} {rest : Run}
    (batch : h.scan.batch = r :: rest) :
    ({ h with
        scan := { h.scan with batch := rest, last := some r.key }
        returned := h.returned ++ [r] } : Session).Sound start stop reverse := by
  have copied_eq : h.copied = h.returned ++ [r] ++ rest := by
    rw [copied, batch, List.append_assoc, List.singleton_append]
  obtain ⟨wf, alike, _, ordered, inside, lived, covered⟩ := sound
  rw [copied_eq] at ordered inside lived covered
  exact ⟨wf, ⟨alike.start, alike.stop, alike.reverse⟩, by simp, ordered, inside, lived, covered⟩

theorem advance (sound : h.Sound start stop reverse) :
    ({ h with
        scan := (h.scan.advance h.store).2
        returned := h.returned ++ (h.scan.advance h.store).1.toList } : Session).Sound
      start stop reverse := by
  cases batch : (h.scan.fill h.store).batch with
  | nil =>
      rw [Scan.advance_of_nil batch, Option.toList_none, List.append_nil]
      exact sound.fill
  | cons r rest =>
      rw [Scan.advance_of_cons batch]
      exact sound.fill.take batch

theorem call (sound : h.Sound start stop reverse) (call : Scan.Call) :
    (h.after (.call call)).Sound start stop reverse := by
  have still : ({ h with returned := h.returned ++ [] } : Session).Sound start stop reverse := by
    rw [List.append_nil]
    exact sound
  have filled := still.fill
  have advanced := sound.advance
  cases call with
  | next =>
      unfold after Scan.reply Scan.next
      cases h.scan.reverse with
      | true => exact still
      | false =>
          cases row : (h.scan.advance h.store).1 with
          | none => simpa [Scan.Call.taken, Except.map, row] using advanced
          | some r => simpa [Scan.Call.taken, Except.map, row] using advanced
  | previous =>
      unfold after Scan.reply Scan.previous
      cases h.scan.reverse with
      | false => exact still
      | true =>
          cases row : (h.scan.advance h.store).1 with
          | none => simpa [Scan.Call.taken, Except.map, row] using advanced
          | some r => simpa [Scan.Call.taken, Except.map, row] using advanced
  | hasNext =>
      unfold after Scan.reply Scan.hasNext
      cases h.scan.reverse with
      | true => exact still
      | false => exact filled
  | hasPrevious =>
      unfold after Scan.reply Scan.hasPrevious
      cases h.scan.reverse with
      | false => exact still
      | true => exact filled
  | first => exact still
  | last => exact still
  | count => exact still

theorem write (sound : h.Sound start stop reverse) {write : Store.Write}
    (wf : (h.store.written write).WellFormed) :
    (h.after (.write write)).Sound start stop reverse := by
  refine ⟨wf, sound.alike, sound.last, sound.ordered, sound.inside, ?_, ?_⟩
  · intro r member
    obtain ⟨store, moment, live⟩ := sound.lived r member
    exact ⟨store, List.mem_cons_of_mem _ moment, live⟩
  · intro key inside steady
    exact sound.covered key inside fun store moment => steady store (List.mem_cons_of_mem _ moment)

/-- A scan that tells its end has nothing in its batch and is done. -/
theorem of_ended (sound : h.Sound start stop reverse) (ended : h.Ended) :
    (h.scan.fill h.store).batch = [] ∧ (h.scan.fill h.store).done = true := by
  have empty : (h.scan.fill h.store).batch = [] := by
    rcases ended with stepped | looked
    · rw [Scan.reply_onward] at stepped
      cases batch : (h.scan.fill h.store).batch with
      | nil => rfl
      | cons r rest =>
          rw [Scan.advance_of_cons batch] at stepped
          exact absurd (Scan.Reply.row.inj (Except.ok.inj stepped)) (Option.some_ne_none r)
    · rw [Scan.reply_looking] at looked
      simpa using looked
  refine ⟨empty, ?_⟩
  rcases Scan.fill_cases sound.wellFormed sound.placed with ⟨same, progress⟩ | ⟨_, _, copies⟩
  · rw [same] at empty ⊢
    exact progress empty
  · exact copies.progress empty

end Sound

/-- What a scan from `start` up to `stop` owes to those who read it. -/
structure Consistent (h : Session) (start stop : Option Bytes) (reverse : Bool) : Prop where
  /-- The keys returned are strictly monotone in the direction of the scan. -/
  ordered : h.returned.Pairwise fun r r' => Scan.leads reverse r.key r'.key = true
  inside : ∀ r ∈ h.returned, inRange start stop r.key = true
  /-- A row that is returned now was live at some moment since the scan was opened. -/
  lived : ∀ r, (h.scan.reply h.store (.onward reverse)).1 = .ok (.row (some r)) →
    ∃ store ∈ h.moments, r ∈ store.liveRecords
  /-- At the end of the scan each key that was live all the time has been returned once. -/
  complete : h.Ended → ∀ key, inRange start stop key = true → h.Steady key →
    (h.returned.map (·.key)).count key = 1

theorem Sound.consistent {h : Session} {start stop : Option Bytes} {reverse : Bool}
    (sound : h.Sound start stop reverse) : h.Consistent start stop reverse := by
  have order := (List.pairwise_append.mp sound.ordered).1
  refine ⟨order, fun r member => sound.inside r (List.mem_append_left _ member), ?_, ?_⟩
  · intro r given
    have direction : h.scan.reverse = reverse := sound.alike.reverse
    rw [← direction, Scan.reply_onward] at given
    have row : (h.scan.advance h.store).1 = some r := Scan.Reply.row.inj (Except.ok.inj given)
    apply sound.advance.lived r
    rw [row]
    exact List.mem_append_left _ (List.mem_append_right _ List.mem_cons_self)
  · intro ended key inside steady
    obtain ⟨empty, done⟩ := sound.of_ended ended
    have distinct : (h.returned.map (·.key)).Nodup := by
      apply List.pairwise_map.mpr
      apply order.imp
      intro r r' leads same
      rw [same, Scan.leads_irrefl] at leads
      contradiction
    rcases sound.fill.covered key inside steady with ⟨r, member, same⟩ | ⟨undone, _⟩
    · rw [copied, empty, List.append_nil] at member
      rw [distinct.count, if_pos (same ▸ List.mem_map_of_mem member)]
    · exact absurd (done.symm.trans undone) (by decide)

theorem sound_start {store : Store} {scan : Scan} {start stop : Option Bytes} {reverse : Bool}
    (wf : store.WellFormed) (opened : Scan.open? store start stop reverse = some scan) :
    (Session.start store scan).Sound start stop reverse := by
  have unread : (Session.start store (.fresh start stop reverse)).Sound start stop reverse :=
    { wellFormed := wf
      alike := .refl _
      last := rfl
      ordered := .nil
      inside := List.forall_mem_nil _
      lived := List.forall_mem_nil _
      covered := fun _ _ _ => .inr ⟨rfl, List.forall_mem_nil _⟩ }
  rw [← Scan.fill_of_open? opened]
  exact unread.fill

/-- Events of any kind in any order keep a session sound. -/
theorem sound_run {o : Options} {h : Session} {start stop : Option Bytes} {reverse : Bool}
    (reachable : Store.Reachable o h.store) (sound : h.Sound start stop reverse)
    (events : List Event) : (h.run events).Sound start stop reverse := by
  induction events generalizing h with
  | nil => exact sound
  | cons event events ih =>
      cases event with
      | write write =>
          have later := reachable.written write
          exact ih later (sound.write later.wellFormed)
      | call call => exact ih reachable (sound.call call)

end Session

namespace Store

/-- A scan that was opened over a reachable store stays consistent, whatever is written between its
steps. -/
theorem Reachable.scan_consistent {o : Options} {store : Store} {scan : Scan}
    {start stop : Option Bytes} {reverse : Bool} (reachable : Reachable o store)
    (opened : Scan.open? store start stop reverse = some scan) (events : List Event) :
    ((Session.start store scan).run events).Consistent start stop reverse :=
  (Session.sound_run reachable (Session.sound_start reachable.wellFormed opened) events).consistent

/-- Steps of a scan with writes between them, ahead of the scan and behind it. -/
def someEvents : List Event :=
  [.call .next, .write (.delete [3]), .write (.put [6] [6]), .call .next, .write (.put [2] [0]),
    .write (.deleteRange none (some [3])), .call .next, .call .next, .call .next]

theorem Reachable.scan_consistent_of_fiveRows : ∃ s, create smallBlocks = .ok s
    ∧ (s.filled fiveRows).blocks.length = 4
    ∧ ∃ scan, Scan.open? (s.filled fiveRows) (some [2]) none false = some scan
      ∧ ((Session.start (s.filled fiveRows) scan).run someEvents).Consistent (some [2]) none false
      ∧ ((Session.start (s.filled fiveRows) scan).run someEvents).returned.map (·.key)
        = [[2], [4], [5], [6]] := by
  obtain ⟨s, opened, reachable, blocks, _⟩ := exists_filled_fiveRows
  have keys : (Scan.open? (s.filled fiveRows) (some [2]) none false).map (fun scan =>
      ((Session.start (s.filled fiveRows) scan).run someEvents).returned.map (·.key))
        = some [[2], [4], [5], [6]] := by
    cases opened
    decide +kernel
  obtain ⟨scan, found, keys⟩ := Option.map_eq_some_iff.mp keys
  exact ⟨s, opened, blocks, scan, found, scan_consistent reachable found someEvents, keys⟩

end Store

end OrderedStore
