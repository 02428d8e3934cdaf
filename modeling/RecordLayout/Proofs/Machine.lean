/-
**Reading on machine words.**

The library computes with natural numbers. Here its reading half is written out once more on 64-bit
words, where an operation can trap: a sum or product that is not a word (`add`, `mul`), a difference
below zero (`sub`), a shift by the width of a word or more (`shiftLeft`, `shiftRight`, `shiftByte`),
an index outside of a list (`entry`, `range`). Sums that are checked, as in `Address.advance`, do not
trap: they are refused with an error.

* `Run`: the outcome of a run; it stops at a trap, or is refused with an error.
* `report`: the runs that do not trap, as outcomes of the library.
* `fixedWidth`, `staticOffsets`: the static part of a layout, in the order in which it is computed.
* `encodedLength`, `fieldOffset`, `value` and the steps and queries of a reader.
* `move`, `answer`, `ask`: chains of operations on readers and on iterators over arrays.
-/

import RecordLayout.Reader

namespace RecordLayout

/-- What an operation runs into when its operands do not allow it. -/
inductive Trap where
  | overflow
  | underflow
  | shift
  | index
  deriving DecidableEq, Repr

/-- Why a run has no result. -/
inductive Stop where
  | trap (cause : Trap)
  | refused (error : ReadError)
  deriving DecidableEq, Repr

/-- The outcome of a run on machine words. -/
abbrev Run := Except Stop

namespace Machine

/-! ### Operations -/

def add (first second : Nat) : Run Nat :=
  if first + second < Address.limit then .ok (first + second) else .error (.trap .overflow)

def mul (first second : Nat) : Run Nat :=
  if first * second < Address.limit then .ok (first * second) else .error (.trap .overflow)

def sub (first second : Nat) : Run Nat :=
  if second ≤ first then .ok (first - second) else .error (.trap .underflow)

def shiftLeft (word : UInt64) (amount : Nat) : Run UInt64 :=
  if amount < 64 then .ok (word <<< UInt64.ofNat amount) else .error (.trap .shift)

def shiftRight (word : Int64) (amount : Nat) : Run Int64 :=
  if amount < 64 then .ok (word >>> Int64.ofNat amount) else .error (.trap .shift)

def shiftByte (byte : UInt8) (amount : Nat) : Run UInt8 :=
  if amount < 8 then .ok (byte >>> UInt8.ofNat amount) else .error (.trap .shift)

/-- The entry of a list at an index. -/
def entry {α : Type} (entries : List α) (index : Nat) : Run α :=
  if inside : index < entries.length then .ok entries[index] else .error (.trap .index)

/-- The entries of a list from `first` up to `last`, which is excluded. -/
def range {α : Type} (entries : List α) (first last : Nat) : Run (List α) :=
  if first ≤ last ∧ last ≤ entries.length then .ok ((entries.take last).drop first)
  else .error (.trap .index)

/-- Stops with an error of the library. -/
def refuse {α : Type} (error : ReadError) : Run α := .error (.refused error)

/-- An outcome of the library, as a run that does not trap. -/
def report {α : Type} : Except ReadError α → Run α
  | .ok result => .ok result
  | .error error => refuse error

/-- A run whose errors are looked at and not passed on. -/
def settle {α : Type} : Run α → Run (Except ReadError α)
  | .ok result => .ok (.ok result)
  | .error (.refused error) => .ok (.error error)
  | .error (.trap cause) => .error (.trap cause)

/-! ### The static part of a layout -/

/-- The offset behind a value, where both are known. -/
def behindFixed : Option Nat → Option Nat → Run (Option Nat)
  | some offset, some width => do return some (← add offset width)
  | _, _ => .ok none

/-- The offset of each of a run of values, and the offset behind the last. -/
def offsets : (next : Option Nat) → (widths : List (Option Nat)) →
    Run (List (Option Nat) × Option Nat)
  | next, [] => .ok ([], next)
  | next, width :: rest => do
      let after ← behindFixed next width
      let later ← offsets after rest
      return (next :: later.1, later.2)

/-- The width of an array of `count` elements. -/
def timesFixed (count : Nat) : Option Nat → Run (Option Nat)
  | some width => do return some (← mul width count)
  | none => .ok none

mutual

/-- The width of a layout. -/
def fixedWidth : Layout → Run (Option Nat)
  | .int format => .ok (some format.bytes)
  | .enum enumeration => .ok (some enumeration.format.bytes)
  | .mask mask => .ok (some mask.width)
  | .struct fields => do return (← offsets (some 0) (← memberWidths fields)).2
  | .array element (.fixed count) => do timesFixed count.toNat (← fixedWidth element)
  | .array _ (.bounded _ _) => .ok none
  | .view key variants => do behindFixed (some key.bytes) (commonWidth? (← payloadWidths variants))
  | .constant format _ => .ok (some format.bytes)
  | .derived format _ => .ok (some format.bytes)

/-- The widths of a list of fields. -/
def memberWidths : List Field → Run (List (Option Nat))
  | [] => .ok []
  | ⟨_, layout⟩ :: rest => do return (← fixedWidth layout) :: (← memberWidths rest)

/-- The widths of the payloads of a list of variants. -/
def payloadWidths : List Variant → Run (List (Option Nat))
  | [] => .ok []
  | ⟨_, _, layout⟩ :: rest => do return (← fixedWidth layout) :: (← payloadWidths rest)

end

/-- The offsets of the fields of a struct, and its width. -/
def staticOffsets (fields : List Field) : Run (List (Option Nat) × Option Nat) := do
  offsets (some 0) (← memberWidths fields)

/-! ### Integers and bits -/

/-- The `width` bytes of `data` from `offset` on; their end is capped at the last address. -/
def slice (data : Buffer) (offset width : Nat) : Run Bytes :=
  if offset ≤ Address.reach offset width ∧ Address.reach offset width ≤ data.size then
    .ok (data.extract offset (Address.reach offset width)).toList
  else refuse (.notEnoughData (Address.reach offset width) data.size)

/-- A word with one more byte shifted in at its low end. -/
def shiftIn (word : UInt64) (byte : UInt8) : Run UInt64 := do
  return (← shiftLeft word 8) ||| byte.toUInt64

/-- The word that a string of bytes stands for. -/
def decode (order : ByteOrder) (bytes : Bytes) : Run UInt64 :=
  match order with
  | .big => bytes.foldlM shiftIn 0
  | .little => bytes.reverse.foldlM shiftIn 0

/-- The word at `offset`. -/
def read (format : IntFormat) (data : Buffer) (offset : Nat) : Run UInt64 := do
  decode format.order (← slice data offset format.bytes)

/-- The low `bits` bits of a word, with the highest of them as the sign. -/
def signExtend (word : UInt64) (bits : Nat) : Run Int := do
  let shift ← sub 64 bits
  let high ← shiftLeft word shift
  return (← shiftRight high.toInt64 shift).toInt

/-- The number that a word stands for. -/
def ofWord (format : IntFormat) (word : UInt64) : Run Int := do
  if format.signed then signExtend word (← mul format.bytes 8) else return word.toNat

/-- The bit at `position`. -/
def readBit (bytes : Bytes) (position : Nat) : Run Bool := do
  let needed ← add (position / 8) 1
  match bytes[position / 8]? with
  | some byte => return (← shiftByte byte (← sub 7 (position % 8))) &&& 1 == 1
  | none => refuse (.notEnoughData needed bytes.length)

/-- The bit of a flag in the mask at `offset`. -/
def readFlag (mask : Mask) (data : Buffer) (offset : Nat) (name : String) : Run Bool :=
  match mask.indexOf? name with
  | none => refuse (.unknownFlag name)
  | some index => do
      let bytes ← slice data offset mask.width
      readBit bytes (← entry mask.flags index).bit.toNat

/-- A flag with its bit; a bit that is not there is clear. -/
def storedFlag (bytes : Bytes) (flag : Flag Nat) : Run (String × Bool) := do
  match ← settle (readBit bytes flag.bit.toNat) with
  | .ok on => return (flag.name, on)
  | .error _ => return (flag.name, false)

/-- Every flag with its bit in the mask at `offset`. -/
def readFlags (mask : Mask) (data : Buffer) (offset : Nat) : Run (List (String × Bool)) := do
  let bytes ← slice data offset mask.width
  mask.flags.mapM (storedFlag bytes)

/-! ### Walks -/

/-- Runs `step` on a position `times` times in a row. -/
def passTimes (step : Nat → Run Nat) : (times position : Nat) → Run Nat
  | 0, position => .ok position
  | times + 1, position => do passTimes step times (← step position)

/-- The number of elements of the array at `offset`. -/
def count (length : ArrayLength IntFormat) (data : Buffer) (offset : Nat) : Run Nat :=
  match length with
  | .fixed count => .ok count.toNat
  | .bounded capacity counter => do
      let stored ← read counter data offset
      if capacity < stored then refuse (.invalidCount stored capacity) else return stored.toNat

/-- Where the elements of the array at `offset` start. -/
def start (length : ArrayLength IntFormat) (data : Buffer) (offset : Nat) : Run Nat :=
  report (Address.advance data offset length.counterWidth)

/-- Where a walk over the elements of the array at `offset` starts. -/
def firstElement (length : ArrayLength IntFormat) (data : Buffer) (offset : Nat) : Run Nat :=
  match length with
  | .fixed _ => .ok offset
  | .bounded _ counter => report (Address.advance data offset counter.bytes)

/-- A fixed width, or else the outcome of a walk. -/
def widthOr (fixed : Run (Option Nat)) (walk : Run Nat) : Run Nat := do
  match ← fixed with
  | some width => return width
  | none => walk

mutual

/-- The length of the value at `offset`. -/
def encodedLength (data : Buffer) : Layout → (offset : Nat) → Run Nat
  | .struct fields, offset => widthOr (fixedWidth (.struct fields)) do
      sub (← passFields data fields offset) offset
  | .array element length, offset => widthOr (fixedWidth (.array element length)) do
      let count ← count length data offset
      let start ← firstElement length data offset
      let stop ← passTimes (fun position => do
        report (Address.advance data position (← encodedLength data element position))) count start
      sub stop offset
  | .view key variants, offset => widthOr (fixedWidth (.view key variants)) do
      let stored ← read key data offset
      match Variant.indexOfKey? variants stored with
      | none => refuse (.unknownVariant stored)
      | some index =>
          let payload ← report (Address.advance data offset key.bytes)
          let length ← (← entry (payloadLengths data variants) index) payload
          report (Address.advance data key.bytes length)
  | .int format, _ => widthOr (fixedWidth (.int format)) (.ok 0)
  | .enum enumeration, _ => widthOr (fixedWidth (.enum enumeration)) (.ok 0)
  | .mask mask, _ => widthOr (fixedWidth (.mask mask)) (.ok 0)
  | .constant format value, _ => widthOr (fixedWidth (.constant format value)) (.ok 0)
  | .derived format expr, _ => widthOr (fixedWidth (.derived format expr)) (.ok 0)

/-- The position behind a run of fields, the first of which starts at `position`. -/
def passFields (data : Buffer) : List Field → (position : Nat) → Run Nat
  | [], position => .ok position
  | ⟨_, layout⟩ :: rest, position => do
      let length ← encodedLength data layout position
      passFields data rest (← report (Address.advance data position length))

/-- The lengths of the payloads of a list of variants, each at a position of its own. -/
def payloadLengths (data : Buffer) : List Variant → List (Nat → Run Nat)
  | [] => []
  | ⟨_, _, layout⟩ :: rest => encodedLength data layout :: payloadLengths data rest

end

/-- The position behind the value at `position`. -/
def behind (data : Buffer) (layout : Layout) (position : Nat) : Run Nat := do
  report (Address.advance data position (← encodedLength data layout position))

/-- The position of the field at `index` of a struct that starts at `base`. -/
def fieldOffset (data : Buffer) (fields : List Field) (index base : Nat) : Run Nat := do
  match ← entry (knownOffsets fields) index with
  | some offset => report (Address.advance data base offset)
  | none =>
      let last := lastKnown (← range (knownOffsets fields) 0 index) index
      let position ← report (Address.advance data base last.2)
      passFields data (← range fields last.1 index) position

/-! ### Steps of a reader -/

/-- The member of a struct with a name. -/
def field (reader : Reader) (name : String) : Run Reader := do
  let fields ← report reader.asStruct
  match Field.indexOf? fields name with
  | none => refuse (.unknownField name)
  | some index =>
      let field ← entry fields index
      let offset ← fieldOffset reader.data fields index reader.offset
      return ⟨reader.data, field.name, field.layout, offset⟩

/-- The element of an array with an index. -/
def element (reader : Reader) (index : Nat) : Run Reader := do
  let array ← report reader.asArray
  let count ← count array.2 reader.data reader.offset
  if count ≤ index then refuse (.indexOutOfRange index count)
  else
    let start ← start array.2 reader.data reader.offset
    let offset ← match ← fixedWidth array.1 with
      | some width => report (Address.advance reader.data start (Reader.skip index width))
      | none => passTimes (behind reader.data array.1) index start
    return ⟨reader.data, reader.name, array.1, offset⟩

/-- The elements of an array, in order. -/
def elements (reader : Reader) : Run Reader.Elements := do
  let array ← report reader.asArray
  let count ← count array.2 reader.data reader.offset
  let start ← start array.2 reader.data reader.offset
  return ⟨reader.data, reader.name, array.1, count, start⟩

/-- The next element, and the elements behind it. -/
def next? (elements : Reader.Elements) : Run (Option (Except ReadError Reader × Reader.Elements)) :=
  if elements.remaining = 0 then .ok none
  else do
    let remaining ← sub elements.remaining 1
    let reader : Reader := ⟨elements.data, elements.name, elements.layout, elements.position⟩
    match ← settle (behind elements.data elements.layout elements.position) with
    | .ok position =>
        return some (.ok reader, { elements with remaining := remaining, position := position })
    | .error cause => return some (.error cause, { elements with remaining := 0 })

/-- The stored key of the view `name` at `offset`. -/
def readKey (data : Buffer) (name : String) (key : IntFormat) (offset : Nat) : Run UInt64 :=
  if data.size ≤ offset then refuse (.missingView name) else read key data offset

/-- The payload of a view, read as that of the variant at `index`. -/
def payload (reader : Reader) (key : IntFormat) (variants : List Variant) (index : Nat) :
    Run Reader := do
  let variant ← entry variants index
  let offset ← report (Address.advance reader.data reader.offset key.bytes)
  return ⟨reader.data, variant.name, variant.layout, offset⟩

/-- The payload of the variant with a key, which must be the stored one. -/
def variant (reader : Reader) (requested : UInt64) : Run Reader := do
  let view ← report reader.asView
  match Variant.indexOfKey? view.2 requested with
  | none => refuse (.unknownVariant requested)
  | some index =>
      let stored ← readKey reader.data reader.name view.1 reader.offset
      if stored ≠ requested then
        if (Variant.indexOfKey? view.2 stored).isNone then refuse (.unknownVariant stored)
        else refuse (.wrongVariant requested stored)
      else payload reader view.1 view.2 index

/-- The payload of the variant with a name, whose key must be the stored one. -/
def variantNamed (reader : Reader) (name : String) : Run Reader := do
  let view ← report reader.asView
  match Variant.indexOfName? view.2 name with
  | none => refuse (.unknownVariantName name)
  | some index => variant reader (← entry view.2 index).key

/-- The stored key and the payload of the variant that it selects. -/
def active (reader : Reader) : Run (UInt64 × Reader) := do
  let view ← report reader.asView
  let stored ← readKey reader.data reader.name view.1 reader.offset
  match Variant.indexOfKey? view.2 stored with
  | none => refuse (.unknownVariant stored)
  | some index => return (stored, ← payload reader view.1 view.2 index)

/-- The part that a step leads to. -/
def step (reader : Reader) : Reader.Step → Run Reader
  | .member name => field reader name
  | .element index => element reader index
  | .key value => variant reader value
  | .variant name => variantNamed reader name
  | .active => do return (← active reader).2

/-! ### Values -/

/-- The number of an integer, enumeration, constant or size. -/
def number (reader : Reader) : Run Int :=
  match reader.layout with
  | .int format => do ofWord format (← read format reader.data reader.offset)
  | .enum enumeration => do return (← read enumeration.format reader.data reader.offset).toNat
  | .constant format _ => do return (← read format reader.data reader.offset).toNat
  | .derived format _ => do ofWord format (← read format reader.data reader.offset)
  | _ => refuse (.wrongKind reader.name)

/-- The number, which must not be negative. -/
def unsigned (reader : Reader) : Run UInt64 := do
  match unsigned? (← number reader) with
  | some value => return value
  | none => refuse (.wrongKind reader.name)

/-- The number, which must be in the range of a signed 64-bit word. -/
def signed (reader : Reader) : Run Int := do
  match signed? (← number reader) with
  | some value => return value
  | none => refuse (.wrongKind reader.name)

/-- The name of the enumeration's value at `offset`. -/
def readEnum (enumeration : Enumeration) (data : Buffer) (offset : Nat) : Run String := do
  let word ← read enumeration.format data offset
  match enumeration.nameOf? word with
  | some name => return name
  | none => refuse (.unknownEnumValue word)

/-- The value of an integer or of a size at `offset`. -/
def intValue (format : IntFormat) (data : Buffer) (name : String) (offset : Nat) : Run Value := do
  if format.signed then return .signed (← signed ⟨data, name, .int format, offset⟩)
  else return .unsigned (← read format data offset)

/-- Collects a value `times` times, each time from the position that the step before has left. -/
def collect {α : Type} (step : Nat → Run (α × Nat)) : (times position : Nat) → Run (List α)
  | 0, _ => .ok []
  | times + 1, position => do
      let _ ← sub (times + 1) 1
      let item ← step position
      return item.1 :: (← collect step times item.2)

mutual

/-- The value of the field `name` at `offset`. -/
def value (data : Buffer) : Layout → (name : String) → (offset : Nat) → Run Value
  | .int format, name, offset => intValue format data name offset
  | .enum enumeration, _, offset => do return .enum (← readEnum enumeration data offset)
  | .mask mask, _, offset => do return .mask (← readFlags mask data offset)
  | .struct fields, _, offset => do return .struct (← fieldValues data fields offset)
  | .array layout length, name, offset => do
      let count ← count length data offset
      let start ← start length data offset
      let elements ← collect (fun position => do
        let next ← behind data layout position
        return (← value data layout name position, next)) count start
      return .array elements
  | .view key variants, name, offset => do
      let stored ← readKey data name key offset
      match Variant.indexOfKey? variants stored with
      | none => refuse (.unknownVariant stored)
      | some index =>
          let variant ← entry variants index
          let position ← report (Address.advance data offset key.bytes)
          return .view stored variant.name (← (← entry (payloadValues data variants) index) position)
  | .constant format _, _, offset => do return .unsigned (← read format data offset)
  | .derived format _, name, offset => intValue format data name offset

/-- The values of a run of fields, the first of which starts at `position`. -/
def fieldValues (data : Buffer) : List Field → (position : Nat) → Run (List (String × Value))
  | [], _ => .ok []
  | ⟨name, layout⟩ :: rest, position => do
      let value ← value data layout name position
      let next ← behind data layout position
      return (name, value) :: (← fieldValues data rest next)

/-- The values of the payloads of a list of variants, each at a position of its own. -/
def payloadValues (data : Buffer) : List Variant → List (Nat → Run Value)
  | [] => []
  | ⟨name, _, layout⟩ :: rest => value data layout name :: payloadValues data rest

end

end Machine

/-! ### Chains of operations -/

/-- What can be asked of a reader. -/
inductive Query where
  | number
  | unsigned
  | signed
  | enumName
  | flag (name : String)
  | flags
  | count
  | key
  | size
  | span (name : String)
  | extent
  | value

/-- What a reader answers. -/
inductive Answer where
  | number (value : Int)
  | word (value : UInt64)
  | name (name : String)
  | bit (on : Bool)
  | flags (flags : List (String × Bool))
  | length (length : Nat)
  | range (first last : Nat)
  | value (value : Value)

/-- What a chain of operations holds: a reader, an iterator over the elements of an array, or
nothing when the iterator has ended. -/
inductive Handle where
  | value (reader : Reader)
  | iterator (elements : Reader.Elements)
  | ended

/-- An operation that leads on. -/
inductive Move where
  /-- To a part of a value. -/
  | step (step : Reader.Step)
  /-- To the elements of an array. -/
  | iterate
  /-- To the next element of an iteration. -/
  | item
  /-- Past the next element of an iteration. -/
  | pass

/-- The answer of a reader. -/
def Reader.answer (reader : Reader) : Query → Except ReadError Answer
  | .number => do return .number (← reader.number)
  | .unsigned => do return .word (← reader.unsigned)
  | .signed => do return .number (← reader.signed)
  | .enumName => do return .name (← reader.enumName)
  | .flag name => do return .bit (← reader.flag name)
  | .flags => do return .flags (← (← reader.asMask).readAll reader.data reader.offset)
  | .count => do return .length (← reader.count)
  | .key => do return .word (← reader.key)
  | .size => do return .length (← reader.size)
  | .span name => do
      let span ← reader.span name
      return .range span.1 span.2
  | .extent => do return .length (← reader.extent)
  | .value => do return .value (← reader.value)

namespace Handle

/-- What a move leads to. A move that the handle does not offer leads nowhere. -/
def move : Handle → Move → Except ReadError Handle
  | .value reader, .step step => do return .value (← reader.step step)
  | .value reader, .iterate => do return .iterator (← reader.elements)
  | .iterator elements, .item =>
      match elements.next? with
      | some item => do return .value (← item.1)
      | none => .ok .ended
  | .iterator elements, .pass =>
      match elements.next? with
      | some item => .ok (.iterator item.2)
      | none => .ok .ended
  | _, _ => .ok .ended

/-- The answer at the end of a chain, if there is a reader. -/
def answer : Handle → Query → Except ReadError (Option Answer)
  | .value reader, query => do return some (← reader.answer query)
  | _, _ => .ok none

/-- A chain of moves and a query at its end. -/
def ask (handle : Handle) (moves : List Move) (query : Query) :
    Except ReadError (Option Answer) := do
  (← moves.foldlM move handle).answer query

end Handle

namespace Machine

/-- The answer of a reader. -/
def answer (reader : Reader) : Query → Run Answer
  | .number => do return .number (← number reader)
  | .unsigned => do return .word (← unsigned reader)
  | .signed => do return .number (← signed reader)
  | .enumName =>
      match reader.layout with
      | .enum enumeration => do return .name (← readEnum enumeration reader.data reader.offset)
      | _ => refuse (.wrongKind reader.name)
  | .flag name => do
      return .bit (← readFlag (← report reader.asMask) reader.data reader.offset name)
  | .flags => do return .flags (← readFlags (← report reader.asMask) reader.data reader.offset)
  | .count => do
      let array ← report reader.asArray
      return .length (← count array.2 reader.data reader.offset)
  | .key => do
      let view ← report reader.asView
      return .word (← readKey reader.data reader.name view.1 reader.offset)
  | .size => do
      let fields ← report reader.asStruct
      let length ← widthOr (fixedWidth (.struct fields)) do
        sub (← passFields reader.data fields reader.offset) reader.offset
      return .length length
  | .span name => do
      let member ← field reader name
      let length ← encodedLength member.data member.layout member.offset
      return .range member.offset (← report (Address.advance member.data member.offset length))
  | .extent => do return .length (← encodedLength reader.data reader.layout reader.offset)
  | .value => do return .value (← value reader.data reader.layout reader.name reader.offset)

/-- What a move leads to. -/
def move : Handle → Move → Run Handle
  | .value reader, .step step => do return .value (← Machine.step reader step)
  | .value reader, .iterate => do return .iterator (← elements reader)
  | .iterator elements, .item => do
      match ← next? elements with
      | some item => return .value (← report item.1)
      | none => return .ended
  | .iterator elements, .pass => do
      match ← next? elements with
      | some item => return .iterator item.2
      | none => return .ended
  | _, _ => .ok .ended

/-- A chain of moves and a query at its end. -/
def ask (handle : Handle) (moves : List Move) (query : Query) : Run (Option Answer) := do
  match ← moves.foldlM move handle with
  | .value reader => return some (← answer reader query)
  | _ => return none

end Machine

end RecordLayout
