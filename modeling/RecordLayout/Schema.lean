/-
**Schemas.**

A schema is the layout of a whole record: a struct, the root, whose fields have been compiled.
-/

import RecordLayout.Compile

namespace RecordLayout

/-- The layout of a record. -/
structure Schema where
  fields : List Field
  deriving DecidableEq

namespace Schema

/-- The record as a layout. -/
def root (schema : Schema) : Layout := .struct schema.fields

/-- The encoded length of every record, if it does not depend on the data. -/
def width? (schema : Schema) : Option Nat := schema.root.width?

/-- Compiles a list of fields with `order` as the byte order that every integer inherits. -/
def compile (fields : List FieldSpec) (order : ByteOrder) : Except SchemaError Schema := do
  return ⟨← compileStruct order fields⟩

/-- Compiles a described record; its byte order is big unless it states another. -/
def ofRecord (record : RecordSpec) : Except SchemaError Schema :=
  compile record.fields (record.order.getD .big)

end Schema

end RecordLayout
