/-
**Layouts.**

A layout is a description that has been checked: byte orders are settled, integer widths are
supported ones, and references between siblings are indices. Two layouts are equal exactly when
`Layout.same` says so (`Layout.same_iff`).
-/

import RecordLayout.LayoutSpec

namespace RecordLayout

mutual

/-- The layout of a value. -/
inductive Layout where
  | int (format : IntFormat)
  | enum (enumeration : Enumeration)
  | mask (mask : Mask)
  | struct (fields : List Field)
  | array (element : Layout) (length : ArrayLength IntFormat)
  | view (key : IntFormat) (variants : List Variant)
  | constant (format : IntFormat) (value : UInt64)
  | derived (format : IntFormat) (expr : SizeExpr Nat)

/-- A named member of a struct. -/
structure Field where
  name : String
  layout : Layout

/-- A variant of a view: its payload has `layout` and stands behind `key`. -/
structure Variant where
  name : String
  key : UInt64
  layout : Layout

end

/-- The index of the field with a name. -/
def Field.indexOf? (fields : List Field) (name : String) : Option Nat :=
  fields.findIdx? (·.name == name)

/-- The index of the variant with a key. -/
def Variant.indexOfKey? (variants : List Variant) (key : UInt64) : Option Nat :=
  variants.findIdx? (·.key == key)

/-- The index of the variant with a name. -/
def Variant.indexOfName? (variants : List Variant) (name : String) : Option Nat :=
  variants.findIdx? (·.name == name)

/-! ### Equality -/

mutual

/-- Whether two layouts are equal. -/
def Layout.same : Layout → Layout → Bool
  | .int first, .int second => first == second
  | .enum first, .enum second => first == second
  | .mask first, .mask second => first == second
  | .struct first, .struct second => Field.same first second
  | .array first length, .array second length' => first.same second && length == length'
  | .view key first, .view key' second => key == key' && Variant.same first second
  | .constant format value, .constant format' value' => format == format' && value == value'
  | .derived format expr, .derived format' expr' => format == format' && expr == expr'
  | _, _ => false

/-- Whether two lists of fields are equal. -/
def Field.same : List Field → List Field → Bool
  | [], [] => true
  | ⟨name, layout⟩ :: rest, ⟨name', layout'⟩ :: rest' =>
      name == name' && layout.same layout' && Field.same rest rest'
  | _, _ => false

/-- Whether two lists of variants are equal. -/
def Variant.same : List Variant → List Variant → Bool
  | [], [] => true
  | ⟨name, key, layout⟩ :: rest, ⟨name', key', layout'⟩ :: rest' =>
      name == name' && key == key' && layout.same layout' && Variant.same rest rest'
  | _, _ => false

end

mutual

theorem Layout.same_iff (first second : Layout) : first.same second = true ↔ first = second := by
  cases first <;> cases second <;>
    simp [Layout.same, Layout.same_iff, Field.same_iff, Variant.same_iff]

theorem Field.same_iff (first second : List Field) :
    Field.same first second = true ↔ first = second := by
  match first, second with
  | [], [] => simp [Field.same]
  | [], _ :: _ => simp [Field.same]
  | _ :: _, [] => simp [Field.same]
  | ⟨name, layout⟩ :: rest, ⟨name', layout'⟩ :: rest' =>
      simp [Field.same, Layout.same_iff layout layout', Field.same_iff rest rest']

theorem Variant.same_iff (first second : List Variant) :
    Variant.same first second = true ↔ first = second := by
  match first, second with
  | [], [] => simp [Variant.same]
  | [], _ :: _ => simp [Variant.same]
  | _ :: _, [] => simp [Variant.same]
  | ⟨name, key, layout⟩ :: rest, ⟨name', key', layout'⟩ :: rest' =>
      simp [Variant.same, Layout.same_iff layout layout', Variant.same_iff rest rest', and_assoc]

end

instance : DecidableEq Layout := fun first second =>
  decidable_of_iff _ (Layout.same_iff first second)

instance : DecidableEq (List Field) := fun first second =>
  decidable_of_iff _ (Field.same_iff first second)

end RecordLayout
