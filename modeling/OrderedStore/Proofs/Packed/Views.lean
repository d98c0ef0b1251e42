import OrderedStore.Proofs.Bytes.Access
import OrderedStore.Proofs.Packed.Elements
import OrderedStore.Proofs.Packed.Encoding

/-! # Views of packed values

A view keeps the bytes of a packed value and the number of its elements, and walks over the bytes
again each time something is asked of it. Bytes are viewed exactly if they are laid out as a value,
and no walk reaches past their end. Elements that were read from bytes are written in no more of
them, and in the same ones if no varint among them could be shorter.
-/

namespace OrderedStore.Packed

/-- The varint at `offset`, and where it ends. Whether its next byte is there is asked each time. -/
def varintAt (raw : Bytes) (offset : Nat) : Except Halt (Nat × Nat) :=
  let found := Varint.decode (raw.drop offset)
  match found.result with
  | .error cause => .error (.corrupt cause)
  | .ok n => .ok (n, offset + found.read)

/-- The `n` bytes at `offset`, and where they end. -/
def takeAt (raw : Bytes) (offset n : Nat) : Except Halt (Bytes × Nat) :=
  if raw.length < offset + n then .error (.corrupt .readPastEnd)
  else do
    let taken ← raw.sliceAt offset (offset + n)
    return (taken, offset + n)

/-- `readElement`, told with guarded reads: the element at `offset`, and where it ends. -/
def elementAt (raw : Bytes) (offset : Nat) : Except Halt (Element × Nat) := do
  let (fieldLength, offset) ← varintAt raw offset
  let (valueLength, offset) ← varintAt raw offset
  let (field, offset) ← takeAt raw offset fieldLength
  let (value, offset) ← takeAt raw offset valueLength
  return (⟨field, value⟩, offset)

section

variable {raw : Bytes} {offset n : Nat}

theorem varintAt_of_error {cause : Corruption}
    (failed : (Varint.decode (raw.drop offset)).result = .error cause) :
    varintAt raw offset = .error (.corrupt cause) := by
  rw [varintAt]
  simp only [failed]

theorem exists_varintAt (found : (Varint.decode (raw.drop offset)).result = .ok n) :
    ∃ stop, varintAt raw offset = .ok (n, stop) ∧ offset < stop ∧ stop ≤ raw.length
      ∧ (Varint.decode (raw.drop offset)).rest = raw.drop stop := by
  have pos : 0 < (Varint.decode (raw.drop offset)).read := Varint.decodeGroups_read_pos found
  have within := Varint.decodeGroups_read_le 4 (raw.drop offset)
  have rest := Varint.decodeGroups_rest 4 (raw.drop offset)
  rw [← Varint.decode] at within rest
  rw [List.length_drop] at within
  refine ⟨offset + (Varint.decode (raw.drop offset)).read, ?_, by omega, by omega, ?_⟩
  · rw [varintAt]
    simp only [found]
  · rw [rest, List.drop_drop]

theorem takeAt_of_none (missing : Bytes.split? n (raw.drop offset) = none) :
    takeAt raw offset n = .error (.corrupt .readPastEnd) := by
  rw [Bytes.split?_eq, List.length_drop] at missing
  split at missing
  · contradiction
  · rw [takeAt, if_pos (by omega)]

theorem exists_takeAt {taken rest : Bytes}
    (parts : Bytes.split? n (raw.drop offset) = some (taken, rest)) (inside : offset ≤ raw.length) :
    ∃ stop, takeAt raw offset n = .ok (taken, stop) ∧ offset ≤ stop ∧ stop ≤ raw.length
      ∧ rest = raw.drop stop := by
  rw [Bytes.split?_eq, List.length_drop] at parts
  split at parts
  · rename_i enough
    obtain ⟨rfl, rfl⟩ := Prod.mk.inj (Option.some.inj parts)
    refine ⟨offset + n, ?_, by omega, by omega, List.drop_drop⟩
    rw [takeAt, if_neg (by omega), Bytes.sliceAt_eq (by omega) (by omega), Nat.add_sub_cancel_left]
    rfl
  · contradiction

/-- A guarded read of an element, and the same read of the bytes behind its offset. -/
inductive Follows (raw : Bytes) (offset : Nat) :
    Except Halt (Element × Nat) → Except Corruption (Element × Bytes) → Prop where
  | error (cause : Corruption) : Follows raw offset (.error (.corrupt cause)) (.error cause)
  | ok (e : Element) {stop : Nat} : offset < stop → stop ≤ raw.length →
      Follows raw offset (.ok (e, stop)) (.ok (e, raw.drop stop))

theorem elementAt_follows (raw : Bytes) (offset : Nat) :
    Follows raw offset (elementAt raw offset) (readElement (raw.drop offset)) := by
  rw [elementAt, readElement]
  dsimp only
  cases field_length : (Varint.decode (raw.drop offset)).result with
  | error cause =>
      rw [varintAt_of_error field_length]
      exact .error cause
  | ok n =>
  obtain ⟨values, fields_at, onward, _, rest⟩ := exists_varintAt field_length
  rw [fields_at, rest]
  simp only [bind, Except.bind]
  cases value_length : (Varint.decode (raw.drop values)).result with
  | error cause =>
      rw [varintAt_of_error value_length]
      exact .error cause
  | ok m =>
  obtain ⟨start, values_at, onward', inside, rest⟩ := exists_varintAt value_length
  rw [values_at, rest]
  dsimp only
  cases field_parts : Bytes.split? n (raw.drop start) with
  | none =>
      rw [takeAt_of_none field_parts]
      exact .error .readPastEnd
  | some parts =>
  obtain ⟨field, _⟩ := parts
  obtain ⟨middle, field_at, upto, inside, rfl⟩ := exists_takeAt field_parts inside
  rw [field_at]
  dsimp only
  cases value_parts : Bytes.split? m (raw.drop middle) with
  | none =>
      rw [takeAt_of_none value_parts]
      exact .error .readPastEnd
  | some parts =>
  obtain ⟨value, _⟩ := parts
  obtain ⟨stop, value_at, upto', inside, rfl⟩ := exists_takeAt value_parts inside
  rw [value_at]
  exact .ok ⟨field, value⟩ (by omega) inside

end

theorem lt_of_elementAt {raw : Bytes} {offset stop : Nat} {e : Element}
    (found : elementAt raw offset = .ok (e, stop)) : offset < stop ∧ stop ≤ raw.length := by
  have follows := elementAt_follows raw offset
  rw [found] at follows
  generalize readElement (raw.drop offset) = plain at follows
  cases follows with
  | ok _ onward inside => exact ⟨onward, inside⟩

/-- What the iterator over the elements gives from `offset` on: the elements, then the halt that
ends them, if there is one. Who walks over the elements may stop at any of them. -/
def itemsFrom (raw : Bytes) (offset : Nat) : List (Except Halt Element) :=
  if raw.length ≤ offset then []
  else
    match found : elementAt raw offset with
    | .error halt => [.error halt]
    | .ok (e, stop) =>
      have _onward := lt_of_elementAt found
      .ok e :: itemsFrom raw stop
termination_by raw.length - offset

section

variable {raw : Bytes} {offset : Nat}

theorem itemsFrom_nil (ended : raw.drop offset = []) : itemsFrom raw offset = [] := by
  rw [itemsFrom, if_pos (List.drop_eq_nil_iff.mp ended)]

theorem itemsFrom_of_error {cause : Corruption} (filled : raw.drop offset ≠ [])
    (failed : readElement (raw.drop offset) = .error cause) :
    itemsFrom raw offset = [.error (.corrupt cause)] := by
  have follows := elementAt_follows raw offset
  rw [failed] at follows
  have guarded : elementAt raw offset = .error (.corrupt cause) := by
    generalize elementAt raw offset = found at follows
    cases follows with
    | error => rfl
  rw [itemsFrom, if_neg (filled ∘ List.drop_eq_nil_iff.mpr)]
  split
  · rename_i halted
    rw [guarded] at halted
    rw [← Except.error.inj halted]
  · rename_i found
    rw [guarded] at found
    contradiction

theorem exists_itemsFrom_of_ok {e : Element} {rest : Bytes}
    (read : readElement (raw.drop offset) = .ok (e, rest)) :
    ∃ stop, rest = raw.drop stop ∧ itemsFrom raw offset = .ok e :: itemsFrom raw stop := by
  have filled : raw.drop offset ≠ [] := by
    intro ended
    rw [ended] at read
    contradiction
  have follows := elementAt_follows raw offset
  rw [read] at follows
  obtain ⟨stop, guarded, rest_eq⟩ : ∃ stop, elementAt raw offset = .ok (e, stop)
      ∧ rest = raw.drop stop := by
    generalize elementAt raw offset = found at follows
    cases follows with
    | ok _ _ _ => exact ⟨_, rfl, rfl⟩
  refine ⟨stop, rest_eq, ?_⟩
  rw [itemsFrom, if_neg (filled ∘ List.drop_eq_nil_iff.mpr)]
  split
  · rename_i halted
    rw [guarded] at halted
    contradiction
  · rename_i found
    rw [guarded] at found
    obtain ⟨rfl, rfl⟩ := Prod.mk.inj (Except.ok.inj found)
    rfl

theorem itemsFrom_cells {cells : List Cell} (spelled : ∀ c ∈ cells, c.Spelled)
    (rest : raw.drop offset = cells.flatMap Cell.bytes) :
    itemsFrom raw offset = (cells.map (·.element)).map .ok := by
  induction cells generalizing offset with
  | nil => exact itemsFrom_nil rest
  | cons c cells ih =>
      obtain ⟨here, later⟩ := List.forall_mem_cons.mp spelled
      have first := here.readElement (cells.flatMap Cell.bytes)
      rw [← List.flatMap_cons, ← rest] at first
      obtain ⟨stop, rest', items⟩ := exists_itemsFrom_of_ok first
      rw [items, ih later rest'.symm]
      rfl

end

/-- The bytes of a packed value, and the number of its elements. -/
structure View where
  raw : Bytes
  count : Nat
deriving Repr, DecidableEq

namespace View

/-- Counts elements, each with a field that is not empty and lies above the one before it. -/
def countOrdered (previous : Option Bytes) (seen : Nat) :
    List (Except Halt Element) → Except Halt Nat
  | [] => .ok seen
  | .error halt :: _ => .error halt
  | .ok e :: items =>
    if e.field.isEmpty then .error (.corrupt .packedFieldEmpty)
    else if previous.any (e.field ≤ ·) then .error (.corrupt .packedFieldsUnordered)
    else countOrdered (some e.field) (seen + 1) items

def parse (raw : Bytes) : Except Halt View :=
  if raw.length < countSize then .error (.corrupt .packedWithoutCount)
  else do
    let count ← raw.wordAt 0
    let seen ← countOrdered none 0 (itemsFrom raw countSize)
    if seen = count then return ⟨raw, count⟩ else .error (.corrupt .packedMiscounted)

def size (v : View) : Nat := v.raw.length

def items (v : View) : List (Except Halt Element) := itemsFrom v.raw countSize

def collect : List (Except Halt Element) → Except Halt (List Element)
  | [] => .ok []
  | .error halt :: _ => .error halt
  | .ok e :: items => (collect items).map (e :: ·)

def elements (v : View) : Except Halt (List Element) := collect v.items

/-- The value of `field`. The search ends at the first field that is not below it. -/
def search (field : Bytes) : List (Except Halt Element) → Except Halt (Option Bytes)
  | [] => .ok none
  | .error halt :: _ => .error halt
  | .ok e :: items =>
    if e.field = field then .ok (some e.value)
    else if field < e.field then .ok none
    else search field items

def find (v : View) (field : Bytes) : Except Halt (Option Bytes) := search field v.items

/-- Parsing checks the items in their order, as reading the elements does. By induction on the bytes
that are left. -/
theorem countOrdered_itemsFrom (read : List Element) (raw : Bytes) (offset : Nat) :
    countOrdered (read.head?.map (·.field)) read.length (itemsFrom raw offset)
      = ((readElements read (raw.drop offset)).map List.length).mapError .corrupt := by
  by_cases ended : raw.drop offset = []
  · rw [itemsFrom_nil ended, ended, readElements_nil, countOrdered]
    exact congrArg Except.ok List.length_reverse.symm
  · cases found : readElement (raw.drop offset) with
    | error cause =>
        rw [itemsFrom_of_error ended found, readElements_of_error ended found]
        rfl
    | ok pair =>
        obtain ⟨e, rest⟩ := pair
        have shorter := length_lt_of_readElement found
        obtain ⟨stop, rfl, items⟩ := exists_itemsFrom_of_ok found
        have later := countOrdered_itemsFrom (e :: read) raw stop
        have above : (read.head?.map (·.field)).any (e.field ≤ ·)
            = read.head?.any (e.field ≤ ·.field) := Option.any_map
        rw [items, countOrdered, readElements_of_ok found, above]
        split
        · rfl
        · split
          · rfl
          · exact later
termination_by (raw.drop offset).length
decreasing_by simpa only [List.length_drop] using shorter

theorem parse_eq (raw : Bytes) :
    parse raw = ((Packed.parse raw).map fun es => ⟨raw, es.length⟩).mapError .corrupt := by
  rw [parse, Packed.parse, Bytes.split?_eq]
  by_cases headed : countSize ≤ raw.length
  · have counted := countOrdered_itemsFrom [] raw countSize
    rw [List.head?_nil, Option.map_none, List.length_nil] at counted
    rw [if_neg (Nat.not_lt.mpr headed), if_pos headed, Bytes.wordAt_eq headed, counted]
    have count : Bytes.toU16 (raw.take countSize) = Bytes.toU16 (raw.drop 0) := by
      rcases raw with _ | ⟨low, _ | ⟨high, rest⟩⟩
      · rfl
      · rfl
      · rfl
    dsimp only [bind, Except.bind]
    rw [count]
    cases readElements [] (raw.drop countSize) with
    | error cause => rfl
    | ok es =>
        dsimp only
        by_cases told : es.length = Bytes.toU16 (raw.drop 0)
        · rw [if_pos told]
          refine (if_pos told).trans ?_
          rw [← told]
          rfl
        · rw [if_neg told]
          exact if_neg told
  · rw [if_pos (Nat.not_le.mp headed), if_neg headed]
    rfl

theorem collect_ok (es : List Element) : collect (es.map .ok) = .ok es := by
  induction es with
  | nil => rfl
  | cons e es ih =>
      rw [List.map_cons, collect, ih]
      rfl

theorem search_ok (field : Bytes) (es : List Element) :
    search field (es.map .ok) = .ok (lookup field es) := by
  induction es with
  | nil => rfl
  | cons e es ih =>
      rw [List.map_cons, search, lookup]
      split
      · rfl
      · split
        · rfl
        · exact ih

/-- The view tells these elements, whatever it is asked for. -/
structure Tells (v : View) (es : List Element) : Prop where
  viewed : parse v.raw = .ok v
  parsed : Packed.parse v.raw = .ok es
  count : v.count = es.length
  elements : v.elements = .ok es
  find : ∀ field, v.find field = .ok ((es.find? (·.field = field)).map (·.value))
  lookup : ∀ field, lookup field es = (es.find? (·.field = field)).map (·.value)

end View

theorem Forms.tells {raw : Bytes} {cells : List Cell} (forms : Forms raw cells) :
    View.Tells ⟨raw, cells.length⟩ (cells.map (·.element)) := by
  have parsed : parse raw = .ok (cells.map (·.element)) := parse_eq_ok_iff.mpr ⟨cells, forms, rfl⟩
  have rest : raw.drop countSize = cells.flatMap Cell.bytes := by
    rw [forms.eq]
    rfl
  have items : itemsFrom raw countSize = (cells.map (·.element)).map .ok :=
    itemsFrom_cells forms.spelled rest
  have looked_up := lookup_eq forms.ascending
  refine ⟨?_, parsed, (List.length_map _).symm, ?_, ?_, looked_up⟩
  · rw [View.parse_eq, parsed]
    exact congrArg (fun count => Except.ok (View.mk raw count)) (List.length_map _)
  · rw [View.elements, View.items, items, View.collect_ok]
  · intro field
    rw [View.find, View.items, items, View.search_ok, looked_up]

theorem Valid.tells {es : List Element} (valid : Valid es) :
    View.Tells ⟨written es, es.length⟩ es := by
  have tells := valid.forms_written.tells
  rwa [element_cell, List.length_map] at tells

/-- Valid elements are told by a view of their written form, which is as long as they are told to
be. Bytes are viewed exactly if they are laid out as a value, and are refused for the fault that
parsing names, never for a read outside of them. Their elements are then written in a form that
tells the same, is no longer, and is the same if and only if all the varints were as short as can
be. -/
theorem codec_exact :
    (∀ es, Valid es → ∃ raw v, encode es = .ok raw ∧ View.parse raw = .ok v
      ∧ v.size = encodedSize es ∧ v.Tells es)
    ∧ ∀ raw, View.parse raw = ((parse raw).map fun es => ⟨raw, es.length⟩).mapError .corrupt
      ∧ ((∃ v, View.parse raw = .ok v) ↔ ∃ cells, Forms raw cells)
      ∧ ∀ cells, Forms raw cells → View.Tells ⟨raw, cells.length⟩ (cells.map (·.element))
        ∧ ∃ again, encode (cells.map (·.element)) = .ok again
          ∧ View.Tells ⟨again, cells.length⟩ (cells.map (·.element))
          ∧ again.length ≤ raw.length
          ∧ (again = raw ↔ ∀ c ∈ cells, c.Minimal) := by
  refine ⟨?_, fun raw => ⟨View.parse_eq raw, ⟨?_, ?_⟩, ?_⟩⟩
  · intro es valid
    exact ⟨written es, ⟨written es, es.length⟩, encode_eq valid.toWritable, valid.tells.viewed,
      length_written valid.fits, valid.tells⟩
  · rintro ⟨v, viewed⟩
    rw [View.parse_eq] at viewed
    cases parsed : parse raw with
    | error cause =>
        rw [parsed] at viewed
        contradiction
    | ok es =>
        obtain ⟨cells, forms, _⟩ := parse_eq_ok_iff.mp parsed
        exact ⟨cells, forms⟩
  · rintro ⟨cells, forms⟩
    exact ⟨_, forms.tells.viewed⟩
  · intro cells forms
    have again := forms.valid.tells
    rw [List.length_map] at again
    exact ⟨forms.tells, written (cells.map (·.element)), encode_eq forms.valid.toWritable, again,
      forms.length_written_le, forms.written_eq_iff⟩

/-- One element, the length of its field told in a byte more than it takes. -/
def padded : Bytes := [1, 0, 129, 0, 1, 102, 120]

theorem codec_exact_padded :
    Valid [⟨[102], [120]⟩] ∧ Forms padded [⟨[129, 0], [1], ⟨[102], [120]⟩⟩]
      ∧ (∃ raw v, encode [⟨[102], [120]⟩] = .ok raw ∧ View.parse raw = .ok v
        ∧ v.size = 6 ∧ v.Tells [⟨[102], [120]⟩])
      ∧ View.Tells ⟨padded, 1⟩ [⟨[102], [120]⟩]
      ∧ ∃ again, encode [⟨[102], [120]⟩] = .ok again ∧ again.length ≤ padded.length
        ∧ again ≠ padded := by
  have spelled : (⟨[129, 0], [1], ⟨[102], [120]⟩⟩ : Cell).Spelled :=
    ⟨⟨.more (by decide) (.last (by decide)), by decide⟩, ⟨.last (by decide), by decide⟩⟩
  have forms : Forms padded [⟨[129, 0], [1], ⟨[102], [120]⟩⟩] := by
    refine ⟨by decide, by decide, ?_, ?_, List.pairwise_singleton _ _⟩
    · simpa only [List.forall_mem_singleton] using spelled
    · simp
  obtain ⟨written, read⟩ := codec_exact
  obtain ⟨_, _, told⟩ := read padded
  obtain ⟨tells, again, encoded, _, shorter, same⟩ := told _ forms
  refine ⟨forms.valid, forms, written _ forms.valid, tells, again, encoded, shorter, ?_⟩
  intro equal
  have minimal := same.mp equal _ (List.mem_singleton_self _)
  have one_byte := minimal.field [1] ⟨.last (by decide), by decide⟩
  contradiction

end OrderedStore.Packed
