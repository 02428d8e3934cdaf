/-
**Decoding a whole value.**

`Layout.decode` reads the value at an offset in full. The members of a struct are decoded one after
another, each from where the extent of the one before it ends. The name of the field is carried
along for the errors; the elements of an array have the name of the array, the payload of a view
that of its variant.
-/

import RecordLayout.Extent
import RecordLayout.Value

namespace RecordLayout

/-- Collects a value `times` times, each time from the position that the step before has left. -/
def collect {α : Type} (step : Nat → Except ReadError (α × Nat)) :
    (times position : Nat) → Except ReadError (List α)
  | 0, _ => .ok []
  | times + 1, position => do
      let (value, next) ← step position
      return value :: (← collect step times next)

/-- A word as a value. -/
def IntFormat.value (format : IntFormat) (word : UInt64) : Value :=
  if format.signed then .signed (format.ofWord word) else .unsigned word

/-- The key of the view `name` at `offset`. The buffer may end before the view. -/
def readKey (data : Buffer) (name : String) (key : IntFormat) (offset : Nat) :
    Except ReadError UInt64 :=
  if data.size ≤ offset then .error (.missingView name) else key.read data offset

/-- The name of the enumeration's value at `offset`. -/
def Enumeration.read (enumeration : Enumeration) (data : Buffer) (offset : Nat) :
    Except ReadError String := do
  let word ← enumeration.format.read data offset
  match enumeration.nameOf? word with
  | some name => return name
  | none => throw (.unknownEnumValue word)

mutual

/-- The value of the field `name` at `offset`. -/
def Layout.decode (data : Buffer) : Layout → (name : String) → (offset : Nat) →
    Except ReadError Value
  | .int format, _, offset => do return format.value (← format.read data offset)
  | .enum enumeration, _, offset => do return .enum (← enumeration.read data offset)
  | .mask mask, _, offset => do return .mask (← mask.readAll data offset)
  | .struct fields, _, offset => do return .struct (← decodeFields data fields offset)
  | .array element length, name, offset => do
      let count ← length.count data offset
      let start ← length.start data offset
      let elements ← collect (fun position => do
        let next ← element.behind data position
        return (← element.decode data name position, next)) count start
      return .array elements
  | .view key variants, name, offset => do
      let stored ← readKey data name key offset
      let (variant, payload) ← decodePayload data key stored offset variants
      return .view stored variant payload
  | .constant format _, _, offset => do return .unsigned (← format.read data offset)
  | .derived format _, _, offset => do return format.value (← format.read data offset)

/-- The values of a run of fields, the first of which starts at `position`. -/
def decodeFields (data : Buffer) : List Field → (position : Nat) →
    Except ReadError (List (String × Value))
  | [], _ => .ok []
  | ⟨name, layout⟩ :: rest, position => do
      let value ← layout.decode data name position
      let next ← layout.behind data position
      return (name, value) :: (← decodeFields data rest next)

/-- The name of the variant that `stored` selects and its payload, for a view at `offset`. -/
def decodePayload (data : Buffer) (key : IntFormat) (stored : UInt64) (offset : Nat) :
    List Variant → Except ReadError (String × Value)
  | [] => .error (.unknownVariant stored)
  | ⟨name, value, layout⟩ :: rest =>
      if value = stored then do
        let position ← Address.advance data offset key.bytes
        return (name, ← layout.decode data name position)
      else decodePayload data key stored offset rest

end

end RecordLayout
