import OrderedStore.Decimal.Shortest

/-! # What can go wrong

Running out of room, short buffers and missing keys are ordinary answers and do not appear here. A
fault is a cause; its wording is in `Fault.message`.
-/

namespace OrderedStore

instance decidableEqExcept {ε α : Type} [DecidableEq ε] [DecidableEq α] : DecidableEq (Except ε α)
  | .error e, .error e' => decidable_of_iff (e = e') ⟨congrArg _, Except.error.inj⟩
  | .ok a, .ok a' => decidable_of_iff (a = a') ⟨congrArg _, Except.ok.inj⟩
  | .error _, .ok _ => isFalse nofun
  | .ok _, .error _ => isFalse nofun

/-- Bytes that do not decode, or parts of a store that contradict each other. -/
inductive Corruption where
  | headerPastEnd
  | recordWithoutKey
  | recordPastEnd
  | varintTruncated
  | varintTooLong
  | readOverflow
  | readPastEnd
  | packedWithoutCount
  | packedFieldEmpty
  | packedFieldsUnordered
  | packedMiscounted
  | lowerHalfTooLarge
  | keyWithoutOwner
  | writeOutsideSpans
  | splitLeftNothing
  | fullWithoutRecords
  | publishedAbsorbed
  | usedPastCapacity
  | recordsUnordered
  | anchorMismatch
  | blocksOverlap
  | innerBlockEmpty
  | countersDisagree
deriving Repr, DecidableEq

/-- Arguments that no call accepts. -/
inductive Misuse where
  | keyEmpty
  | keyTooLong
  | valueTooLong
  | recordTooLarge
  | blockAbsorbed
  | mergeNotLeft
  | tooManyChanges
  | readOnlyWrote
  | notAnInteger
  | incrementOverflow
  | scanIsReverse
  | scanIsForward
  | packedFieldMissing
  | packedFieldTooLong
  | packedValueTooLong
  | packedTooManyFields
  | userKeyTooLong
  /-- An operation's own refusal, in its own words. -/
  | refused (why : String)
deriving Repr, DecidableEq

/-- Settings that do not describe a usable store. -/
inductive BadSetting where
  /-- The document of settings is malformed, or has an unknown or repeated name or a wrong type. -/
  | document
  | blockSize (size least most : Nat)
  | initialSize (size largest : Nat)
  | ratio (name : String) (value : Float)
  | packedSize (size : Nat)
deriving Repr, DecidableEq

/-- Why a call failed. -/
inductive Fault where
  | corruption (cause : Corruption)
  | misuse (cause : Misuse)
  | setting (cause : BadSetting)
  /-- A file of settings is absent or is not text. -/
  | unreadable
deriving Repr, DecidableEq

def Corruption.message : Corruption → String
  | .headerPastEnd => "record header beyond used bytes"
  | .recordWithoutKey => "record with empty key"
  | .recordPastEnd => "record extends beyond used bytes"
  | .varintTruncated => "varint decode truncated"
  | .varintTooLong => "varint longer than 4 bytes"
  | .readOverflow => "cursor offset overflow"
  | .readPastEnd => "cursor take beyond buffer"
  | .packedWithoutCount => "packed value shorter than its header"
  | .packedFieldEmpty => "packed value with empty field"
  | .packedFieldsUnordered => "packed fields out of order"
  | .packedMiscounted => "packed value count mismatch"
  | .lowerHalfTooLarge => "split half larger than maximum block"
  | .keyWithoutOwner => "index has no block at or below key"
  | .writeOutsideSpans => "write outside the locked blocks"
  | .splitLeftNothing => "split left an empty block"
  | .fullWithoutRecords => "full block without records"
  | .publishedAbsorbed => "published block was merged away"
  | .usedPastCapacity => "block used bytes exceed capacity"
  | .recordsUnordered => "records out of order within block"
  | .anchorMismatch => "block anchor differs from first key"
  | .blocksOverlap => "blocks overlap"
  | .innerBlockEmpty => "empty block away from the left edge"
  | .countersDisagree => "block counters disagree with its records"

def Misuse.message : Misuse → String
  | .keyEmpty => "key must not be empty"
  | .keyTooLong => "key longer than 32767 bytes"
  | .valueTooLong => "value longer than 65535 bytes"
  | .recordTooLarge => "record larger than maximum block size"
  | .blockAbsorbed => "block was merged away"
  | .mergeNotLeft => "merge sibling is not to the left"
  | .tooManyChanges => "operation produced more than two updates"
  | .readOnlyWrote => "read-only operation requested writes"
  | .notAnInteger => "value is not an integer"
  | .incrementOverflow => "increment would overflow"
  | .scanIsReverse => "reverse scanner moves with previous()"
  | .scanIsForward => "forward scanner moves with next()"
  | .packedFieldMissing => "packed field must not be empty"
  | .packedFieldTooLong => "packed field longer than 2^28 - 1 bytes"
  | .packedValueTooLong => "packed value longer than 2^28 - 1 bytes"
  | .packedTooManyFields => "too many fields in one packed value"
  | .userKeyTooLong => "user key too long"
  | .refused why => why

/-- The document's own wording is dropped; every other setting is named with the value found. -/
def BadSetting.message : BadSetting → String
  | .document => "TOML parse error"
  | .blockSize size least most =>
    s!"config: max_block_size must be a multiple of 16 in {least}..={most}, got {size}"
  | .initialSize size largest =>
    s!"config: initial_block_size {size} is not a size class of max_block_size {largest}"
  | .ratio name value => s!"config: {name} must be in (0, 1], got {Decimal.text value}"
  | .packedSize size => s!"config: max_value_size {size} cannot hold a single field"

/-- The text of a fault; an unreadable file has none of its own. -/
def Fault.message : Fault → String
  | .corruption cause => "corruption: " ++ cause.message
  | .misuse cause => "invalid argument: " ++ cause.message
  | .setting cause => cause.message
  | .unreadable => ""

end OrderedStore
