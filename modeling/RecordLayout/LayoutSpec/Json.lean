/-
**Descriptions as JSON.**

A described record is a group of named values: its `endian`, which is optional, and its `fields`. So is
every part of it, down to the terms of a size, and each group may be an object or an array
(`Json.entries?`); the lists of names below give the order in the array. What is optional may be left
out, and `endian` may also be null. An operand is an object with exactly one entry.

A kind of field, and the length of an array, is one of several groups. Which one is said by its `type`,
in an array by the first item; the values of an integer stand next to the `type` of an `Int` field.

Within a kind the form is looser than around it (`Place`): a `type` may be given by its number, and the
object that stands for a byte order may hold an empty object.

`toJson` writes objects, with every entry, the optional ones included; `ofJson?` reads a value back and
yields nothing when it does not have the right form.
-/

import RecordLayout.Json
import RecordLayout.LayoutSpec

namespace RecordLayout

/-! ### Places -/

/-- Where a value stands in a description. -/
inductive Place where
  /-- Around the kinds: in the record, or in a field of the record. -/
  | outer
  /-- Within a kind. -/
  | inner
  deriving DecidableEq, Repr

/-- One of several named choices. The name is not checked against the list, but within a kind the
choice may also be given by its number, counted from zero. -/
def Place.choice? (place : Place) (names : List String) : Json → Option String
  | .string name => some name
  | .integer value =>
      match place with
      | .outer => none
      | .inner => if 0 ≤ value then names[value.toNat]? else none
  | _ => none

/-- The choice among several groups of values: its `type`, or the first item of an array. -/
def Place.tag? (place : Place) (names : List String) : Json → Option String
  | .object entries => Json.required entries "type" (place.choice? names)
  | .array (tag :: _) => place.choice? names tag
  | _ => none

/-- Whether nothing is in the value: it is null or, within a kind, an empty object. -/
def Place.isVoid (place : Place) : Json → Bool
  | .null => true
  | .object [] => place = .inner
  | _ => false

/-! ### Byte orders and integers -/

/-- The byte order with a name. -/
def ByteOrder.ofName? (name : String) : Option ByteOrder :=
  if name = "Big" then some .big else if name = "Little" then some .little else none

/-- The name of a byte order. -/
def ByteOrder.name : ByteOrder → String
  | .big => "Big"
  | .little => "Little"

theorem ByteOrder.ofName?_name (order : ByteOrder) : ByteOrder.ofName? order.name = some order := by
  cases order <;> decide

/-- A byte order is its name, or an object with the name as its one entry and nothing in it. -/
def ByteOrder.ofJson? (place : Place) : Json → Option ByteOrder
  | .string name => ByteOrder.ofName? name
  | .object [(name, content)] => if place.isVoid content then ByteOrder.ofName? name else none
  | _ => none

/-- A byte order, or null for none. -/
def ByteOrder.optionOfJson? (place : Place) : Json → Option (Option ByteOrder)
  | .null => some none
  | json => (ByteOrder.ofJson? place json).map some

/-- A byte order, or null for none. -/
def ByteOrder.optionToJson : Option ByteOrder → Json
  | some order => .string order.name
  | none => .null

/-- The byte order among the entries of a group. -/
def ByteOrder.ofEntries? (place : Place) (entries : List (String × Json)) :
    Option (Option ByteOrder) :=
  Json.optional entries "endian" none (ByteOrder.optionOfJson? place)

/-- What describes an integer, in its order. -/
def IntSpec.parts : List String := ["width", "signed", "endian"]

/-- The integer that the entries of a group describe. -/
def IntSpec.ofEntries? (place : Place) (entries : List (String × Json)) : Option IntSpec := do
  let width ← Json.required entries "width" Json.word?
  let signed ← Json.optional entries "signed" false Json.bool?
  let order ← ByteOrder.ofEntries? place entries
  return ⟨width, signed, order⟩

/-- An integer. -/
def IntSpec.ofJson? (place : Place) (json : Json) : Option IntSpec := do
  IntSpec.ofEntries? place (← json.entries? IntSpec.parts)

/-- The entries that describe an integer. -/
def IntSpec.entries (spec : IntSpec) : List (String × Json) :=
  [("width", .ofWord spec.width), ("signed", .bool spec.signed),
    ("endian", ByteOrder.optionToJson spec.order)]

/-- An integer. -/
def IntSpec.toJson (spec : IntSpec) : Json := .object spec.entries

/-! ### Enumerations and masks -/

/-- A named value: an array of the name and the value. -/
def EnumVariant.ofJson? : Json → Option EnumVariant
  | .array [name, value] => do return ⟨← name.text?, ← value.word?⟩
  | _ => none

/-- A named value: an array of the name and the value. -/
def EnumVariant.toJson (variant : EnumVariant) : Json :=
  .array [.string variant.name, .ofWord variant.value]

/-- What describes a flag, in its order. -/
def Flag.parts : List String := ["name", "bit", "implies", "excludes"]

/-- A flag. -/
def Flag.ofJson? (json : Json) : Option (Flag String) := do
  let entries ← json.entries? Flag.parts
  let name ← Json.required entries "name" Json.text?
  let bit ← Json.required entries "bit" Json.word?
  let implies ← Json.optional entries "implies" [] (Json.list? Json.text?)
  let excludes ← Json.optional entries "excludes" [] (Json.list? Json.text?)
  return ⟨name, bit, implies, excludes⟩

/-- A flag. -/
def Flag.toJson (flag : Flag String) : Json :=
  .object [("name", .string flag.name), ("bit", .ofWord flag.bit),
    ("implies", .array (flag.implies.map .string)),
    ("excludes", .array (flag.excludes.map .string))]

/-! ### Size expressions -/

/-- An operand: an object whose only entry is named for the quantity. -/
def Operand.ofJson? : Json → Option (Operand String)
  | .object [("const", value)] => do return .const (← value.word?)
  | .object [("value_of", field)] => do return .valueOf (← field.text?)
  | .object [("count_of", field)] => do return .countOf (← field.text?)
  | .object [("size_of", range)] => do
      let entries ← range.entries? ["from", "to"]
      let first ← Json.required entries "from" Json.text?
      let last ← Json.required entries "to" Json.text?
      return .sizeOf first last
  | _ => none

/-- An operand: an object whose only entry is named for the quantity. -/
def Operand.toJson : Operand String → Json
  | .const value => .object [("const", .ofWord value)]
  | .valueOf field => .object [("value_of", .string field)]
  | .countOf field => .object [("count_of", .string field)]
  | .sizeOf first last =>
      .object [("size_of", .object [("from", .string first), ("to", .string last)])]

/-- What describes a term, in its order. -/
def Term.parts : List String := ["negate", "operand"]

/-- A term. -/
def Term.ofJson? (json : Json) : Option (Term String) := do
  let entries ← json.entries? Term.parts
  let negate ← Json.optional entries "negate" false Json.bool?
  let operand ← Json.required entries "operand" Operand.ofJson?
  return ⟨negate, operand⟩

/-- A term. -/
def Term.toJson (term : Term String) : Json :=
  .object [("negate", .bool term.negate), ("operand", term.operand.toJson)]

/-! ### Arrays -/

/-- The names of the two lengths of an array, in the order of their numbers. -/
def ArrayLength.names : List String := ["Fixed", "Bounded"]

/-- What describes each of the two lengths, in its order. -/
def ArrayLength.parts : String → List String
  | "Fixed" => ["count"]
  | "Bounded" => ["max", "count"]
  | _ => []

/-- The length of an array. It stands within the kind of the array. -/
def ArrayLength.ofJson? (json : Json) : Option (ArrayLength IntSpec) := do
  let choice ← Place.inner.tag? ArrayLength.names json
  let entries ← json.entries? ("type" :: ArrayLength.parts choice)
  match choice with
  | "Fixed" => return .fixed (← Json.required entries "count" Json.word?)
  | "Bounded" =>
      let capacity ← Json.required entries "max" Json.word?
      let counter ← Json.required entries "count" (IntSpec.ofJson? .inner)
      return .bounded capacity counter
  | _ => none

/-- The length of an array. -/
def ArrayLength.toJson : ArrayLength IntSpec → Json
  | .fixed count => .object [("type", .string "Fixed"), ("count", .ofWord count)]
  | .bounded capacity counter =>
      .object [("type", .string "Bounded"), ("max", .ofWord capacity), ("count", counter.toJson)]

/-! ### Fields -/

/-- The names of the kinds, in the order of their numbers. -/
def LayoutSpec.names : List String :=
  ["Int", "Enum", "Mask", "Struct", "Array", "View", "Constant", "DerivedSize"]

/-- What describes each kind, in its order. -/
def LayoutSpec.parts : String → List String
  | "Int" => IntSpec.parts
  | "Enum" => ["repr", "variants"]
  | "Mask" => ["width", "flags"]
  | "Struct" => ["fields", "endian"]
  | "Array" => ["element", "len"]
  | "View" => ["key", "variants"]
  | "Constant" => ["repr", "value"]
  | "DerivedSize" => ["repr", "expr"]
  | _ => []

/-- What describes a field, in its order. -/
def FieldSpec.parts : List String := ["name", "kind"]

/-- What describes a variant of a view, in its order. -/
def VariantSpec.parts : List String := ["name", "key", "kind"]

mutual

/-- The kind of a field. -/
def LayoutSpec.ofJson? (place : Place) (json : Json) : Option LayoutSpec := do
  let kind ← place.tag? LayoutSpec.names json
  let names := "type" :: LayoutSpec.parts kind
  let entries ← json.entries? names
  match kind with
  | "Int" => return .int (← IntSpec.ofEntries? .inner entries)
  | "Enum" =>
      let format ← Json.required entries "repr" (IntSpec.ofJson? .inner)
      let variants ← Json.required entries "variants" (Json.list? EnumVariant.ofJson?)
      return .enum ⟨format, variants⟩
  | "Mask" =>
      let width ← Json.required entries "width" Json.word?
      let flags ← Json.required entries "flags" (Json.list? Flag.ofJson?)
      return .mask ⟨width, flags⟩
  | "Struct" =>
      let fields ← json.within? names "fields" fun list _ =>
        list.each? fun item _ => FieldSpec.ofJson? .inner item
      return .struct fields (← ByteOrder.ofEntries? .inner entries)
  | "Array" =>
      let element ← json.within? names "element" fun part _ => LayoutSpec.ofJson? .inner part
      return .array element (← Json.required entries "len" ArrayLength.ofJson?)
  | "View" =>
      let key ← Json.required entries "key" (IntSpec.ofJson? .inner)
      let variants ← json.within? names "variants" fun list _ =>
        list.each? fun item _ => VariantSpec.ofJson? item
      return .view key variants
  | "Constant" =>
      let format ← Json.required entries "repr" (IntSpec.ofJson? .inner)
      return .constant format (← Json.required entries "value" Json.word?)
  | "DerivedSize" =>
      let format ← Json.required entries "repr" (IntSpec.ofJson? .inner)
      return .derived format (← Json.required entries "expr" (Json.list? Term.ofJson?))
  | _ => none
termination_by json.depth

/-- A field. -/
def FieldSpec.ofJson? (place : Place) (json : Json) : Option FieldSpec := do
  let entries ← json.entries? FieldSpec.parts
  let name ← Json.required entries "name" Json.text?
  let kind ← json.within? FieldSpec.parts "kind" fun part _ => LayoutSpec.ofJson? place part
  return ⟨name, kind⟩
termination_by json.depth

/-- A variant of a view. It stands within the kind of the view. -/
def VariantSpec.ofJson? (json : Json) : Option VariantSpec := do
  let entries ← json.entries? VariantSpec.parts
  let name ← Json.required entries "name" Json.text?
  let key ← Json.required entries "key" Json.word?
  let kind ← json.within? VariantSpec.parts "kind" fun part _ => LayoutSpec.ofJson? .inner part
  return ⟨name, key, kind⟩
termination_by json.depth

end

mutual

/-- The kind of a field. -/
def LayoutSpec.toJson : LayoutSpec → Json
  | .int spec => .object (("type", .string "Int") :: spec.entries)
  | .enum spec =>
      .object [("type", .string "Enum"), ("repr", spec.format.toJson),
        ("variants", .array (spec.variants.map EnumVariant.toJson))]
  | .mask spec =>
      .object [("type", .string "Mask"), ("width", .ofWord spec.width),
        ("flags", .array (spec.flags.map Flag.toJson))]
  | .struct fields order =>
      .object [("type", .string "Struct"), ("fields", .array (FieldSpec.toItems fields)),
        ("endian", ByteOrder.optionToJson order)]
  | .array element length =>
      .object [("type", .string "Array"), ("element", element.toJson), ("len", length.toJson)]
  | .view key variants =>
      .object [("type", .string "View"), ("key", key.toJson),
        ("variants", .array (VariantSpec.toItems variants))]
  | .constant format value =>
      .object [("type", .string "Constant"), ("repr", format.toJson), ("value", .ofWord value)]
  | .derived format expr =>
      .object [("type", .string "DerivedSize"), ("repr", format.toJson),
        ("expr", .array (expr.map Term.toJson))]

/-- The items that describe a list of fields. -/
def FieldSpec.toItems : List FieldSpec → List Json
  | [] => []
  | ⟨name, kind⟩ :: rest =>
      .object [("name", .string name), ("kind", kind.toJson)] :: FieldSpec.toItems rest

/-- The items that describe a list of variants. -/
def VariantSpec.toItems : List VariantSpec → List Json
  | [] => []
  | ⟨name, key, kind⟩ :: rest =>
      .object [("name", .string name), ("key", .ofWord key), ("kind", kind.toJson)] ::
        VariantSpec.toItems rest

end

/-! ### Records -/

/-- A list of fields. -/
def FieldSpec.listOfJson? (place : Place) (json : Json) : Option (List FieldSpec) :=
  json.list? (FieldSpec.ofJson? place)

/-- What describes a record, in its order. -/
def RecordSpec.parts : List String := ["endian", "fields"]

/-- A record. -/
def RecordSpec.ofJson? (json : Json) : Option RecordSpec := do
  let entries ← json.entries? RecordSpec.parts
  let order ← ByteOrder.ofEntries? .outer entries
  let fields ← Json.required entries "fields" (FieldSpec.listOfJson? .outer)
  return ⟨fields, order⟩

/-- A record. -/
def RecordSpec.toJson (record : RecordSpec) : Json :=
  .object [("endian", ByteOrder.optionToJson record.order),
    ("fields", .array (FieldSpec.toItems record.fields))]

end RecordLayout
