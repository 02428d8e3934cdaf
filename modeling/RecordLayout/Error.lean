/-
**Why an operation is refused.**

A description can be rejected when it is compiled (`SchemaError`), a buffer when it is read
(`ReadError`), and a value when it is stored or written (`WriteError`). Each type lists the causes
with the data that explains them; the wording is in the three `message` functions and nowhere else.

Numbers that a description states are 64-bit words. Sizes and positions are natural numbers, and
quantities that can be negative are integers.
-/

namespace RecordLayout

/-- Why a description is not a layout. -/
inductive SchemaError where
  /-- An integer occupies 1, 2, 3, 4 or 8 bytes. -/
  | invalidWidth (width : UInt64)
  /-- A mask occupies 1 to 8 bytes. -/
  | invalidMaskWidth (width : UInt64)
  | emptyName
  | duplicateName (name : String)
  | flagBitOutOfRange (flag : String) (bit : UInt64) (bits : Nat)
  | duplicateFlagBit (earlier later : String)
  | unknownFlag (flag : String)
  | cyclicImplication (flag : String)
  | conflictingFlags (flag other : String)
  | emptyView (view : String)
  | duplicateVariantKey (key : UInt64)
  | keyOutOfRange (key : UInt64) (width : Nat)
  | emptyEnum (field : String)
  | duplicateEnumValue (value : UInt64)
  | valueOutOfRange (value : UInt64) (width : Nat)
  | emptyArray (array : String)
  | capacityOutOfRange (capacity : UInt64) (width : Nat)
  | unknownReference (field : String)
  | invalidReference (field : String)
  | reversedRange (first last : String)
  | sizeExceedsWidth (field : String) (value max : Int)
  | layoutTooLarge (field : String)
  | detachedSize (field : String)
  deriving DecidableEq, Repr

/-- Why a value cannot be read from a buffer. -/
inductive ReadError where
  /-- The value ends at `needed`, and the buffer before that. -/
  | notEnoughData (needed available : Nat)
  /-- The buffer ends before the view starts. -/
  | missingView (field : String)
  | wrongVariant (requested stored : UInt64)
  | indexOutOfRange (index length : Nat)
  | invalidCount (count capacity : UInt64)
  | unknownVariant (key : UInt64)
  | unknownEnumValue (value : UInt64)
  | unknownField (name : String)
  | unknownFlag (name : String)
  | unknownVariantName (name : String)
  | wrongKind (field : String)
  deriving DecidableEq, Repr

/-- Why a value cannot be stored in a draft or written to a buffer. -/
inductive WriteError where
  | writeFailed (needed available : Nat)
  | capacityExceeded (field : String) (capacity : UInt64)
  | overflow (field : String) (value min max : Int)
  | notSet (field : String)
  | indexOutOfRange (index length : Nat)
  | alreadySelected (selected requested : UInt64)
  | unknownVariant (key : UInt64)
  | unknownVariantName (name : String)
  | unknownEnumVariant (variant : String)
  | unknownField (name : String)
  | unknownFlag (name : String)
  | wrongKind (field : String)
  /-- Constants and derived sizes are computed, never stored. -/
  | readOnly (field : String)
  deriving DecidableEq, Repr

/-- The wording of a rejected description. -/
def SchemaError.message : SchemaError → String
  | .invalidWidth width => s!"invalid integer width: {width} bytes"
  | .invalidMaskWidth width => s!"invalid mask width: {width} bytes"
  | .emptyName => "empty name"
  | .duplicateName name => s!"duplicate name `{name}`"
  | .flagBitOutOfRange flag bit bits => s!"flag `{flag}` uses bit {bit} of a {bits}-bit mask"
  | .duplicateFlagBit earlier later => s!"flags `{earlier}` and `{later}` share a bit"
  | .unknownFlag flag => s!"unknown flag `{flag}`"
  | .cyclicImplication flag => s!"cyclic implication through flag `{flag}`"
  | .conflictingFlags flag other => s!"flag `{flag}` both implies and excludes `{other}`"
  | .emptyView view => s!"view `{view}` has no variants"
  | .duplicateVariantKey key => s!"duplicate variant key {key}"
  | .keyOutOfRange key width => s!"variant key {key} does not fit in {width} bytes"
  | .emptyEnum field => s!"enum `{field}` has no variants"
  | .duplicateEnumValue value => s!"duplicate enum value {value}"
  | .valueOutOfRange value width => s!"value {value} does not fit in {width} bytes"
  | .emptyArray array => s!"array `{array}` has zero capacity"
  | .capacityOutOfRange capacity width =>
      s!"array capacity {capacity} does not fit in {width} bytes"
  | .unknownReference field => s!"size expression refers to unknown field `{field}`"
  | .invalidReference field => s!"size expression cannot use field `{field}` that way"
  | .reversedRange first last => s!"size range `{first}..={last}` is reversed"
  | .sizeExceedsWidth field value max =>
      s!"size field `{field}` evaluates to {value}, outside 0..={max}"
  | .layoutTooLarge field => s!"layout of `{field}` is too large to address"
  | .detachedSize field => s!"size field `{field}` must be a struct member"

/-- The wording of a failed read. -/
def ReadError.message : ReadError → String
  | .notEnoughData needed available =>
      s!"not enough data: need {needed} bytes, have {available}"
  | .missingView field => s!"field `{field}` is not present in the buffer"
  | .wrongVariant requested stored =>
      s!"wrong variant: requested key {requested}, stored key {stored}"
  | .indexOutOfRange index length => s!"index {index} out of range for length {length}"
  | .invalidCount count capacity => s!"stored count {count} exceeds capacity {capacity}"
  | .unknownVariant key => s!"unknown variant key {key}"
  | .unknownEnumValue value => s!"unknown enum value {value}"
  | .unknownField name => s!"unknown field `{name}`"
  | .unknownFlag name => s!"unknown flag `{name}`"
  | .unknownVariantName name => s!"unknown variant `{name}`"
  | .wrongKind field => s!"field `{field}` is not of the requested kind"

/-- The wording of a refused or failed write. -/
def WriteError.message : WriteError → String
  | .writeFailed needed available => s!"write failed: need {needed} bytes, have {available}"
  | .capacityExceeded field capacity => s!"array `{field}` is at capacity {capacity}"
  | .overflow field value min max => s!"value {value} for `{field}` is outside {min}..={max}"
  | .notSet field => s!"field `{field}` is not set"
  | .indexOutOfRange index length => s!"index {index} out of range for length {length}"
  | .alreadySelected selected requested =>
      s!"view already holds variant key {selected}, cannot select {requested}"
  | .unknownVariant key => s!"unknown variant key {key}"
  | .unknownVariantName name => s!"unknown variant `{name}`"
  | .unknownEnumVariant variant => s!"unknown enum variant `{variant}`"
  | .unknownField name => s!"unknown field `{name}`"
  | .unknownFlag name => s!"unknown flag `{name}`"
  | .wrongKind field => s!"field `{field}` is not of the requested kind"
  | .readOnly field => s!"field `{field}` is computed by the schema and cannot be set"

end RecordLayout
