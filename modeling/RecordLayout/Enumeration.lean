/-
**Integers restricted to named values.**

An enumeration lists names with their values. A described one is accepted when it is not empty and
its names and values are distinct, no name is empty and every value fits the integer format. Then a
value has at most one name and a name at most one value.
-/

import RecordLayout.Fault
import RecordLayout.Integer

namespace RecordLayout

/-- A named value. -/
structure EnumVariant where
  name : String
  value : UInt64
  deriving DecidableEq, Repr

/-- An enumeration as a description states it. -/
structure EnumSpec where
  format : IntSpec
  variants : List EnumVariant
  deriving DecidableEq, Repr

/-- An enumeration of a layout. -/
structure Enumeration where
  format : IntFormat
  variants : List EnumVariant
  deriving DecidableEq, Repr

/-- What is wrong with a named value, given those before it. -/
def EnumVariant.fault? (format : IntFormat) (earlier : List EnumVariant) (variant : EnumVariant) :
    Option SchemaError :=
  if variant.name = "" then some .emptyName
  else if !format.fits variant.value.toNat then
    some (.valueOutOfRange variant.value format.bytes)
  else if earlier.any (·.name == variant.name) then some (.duplicateName variant.name)
  else if earlier.any (·.value == variant.value) then some (.duplicateEnumValue variant.value)
  else none

namespace Enumeration

/-- Checks the named values of the field `name` against the format that stores them. -/
def compile (name : String) (format : IntFormat) (variants : List EnumVariant) :
    Except SchemaError Enumeration := do
  if variants.isEmpty then
    throw (.emptyEnum name)
  raise (firstFault? (EnumVariant.fault? format) [] variants)
  return ⟨format, variants⟩

/-- The value of a name. -/
def valueOf? (enumeration : Enumeration) (name : String) : Option UInt64 :=
  (enumeration.variants.find? (·.name == name)).map (·.value)

/-- The name of a value. -/
def nameOf? (enumeration : Enumeration) (value : UInt64) : Option String :=
  (enumeration.variants.find? (·.value == value)).map (·.name)

end Enumeration

/-- Checks a described enumeration of the field `name`, its integer format first. -/
def EnumSpec.compile (name : String) (inherited : ByteOrder) (spec : EnumSpec) :
    Except SchemaError Enumeration := do
  let format ← spec.format.resolve inherited
  Enumeration.compile name format spec.variants

end RecordLayout
