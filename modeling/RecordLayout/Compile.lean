/-
**From descriptions to layouts.**

Compiling a description checks it and settles what it leaves open. Byte orders are inherited from
the enclosing struct, names of siblings in size expressions become indices, and a layout whose
fixed part would not end at a 64-bit address is refused. The first fault is reported, in this
order:

* of a struct: the names of its fields; each field in turn; the size fields whose value is already
  known; the offsets;
* of an array: its count or capacity, the format of the stored count, the element, the whole size;
* of a view: the absence of variants, the format of the key, then for each variant its name, its
  key and its payload, and last the whole size;
* of a derived size: its place (it must be a member of a struct), its format, its references.
-/

import RecordLayout.Layout.Width
import RecordLayout.Mask.Compile

namespace RecordLayout

/-! ### References of size expressions -/

/-- Whether a field has a value that a size expression can use. -/
def LayoutSpec.hasValue : LayoutSpec → Bool
  | .int _ | .enum _ | .constant _ _ => true
  | _ => false

/-- Whether a field has a number of elements. -/
def LayoutSpec.isArray : LayoutSpec → Bool
  | .array _ _ => true
  | _ => false

/-- The index of the sibling with a name, which must be of an allowed kind. -/
def referTo (siblings : List FieldSpec) (allowed : LayoutSpec → Bool) (name : String) :
    Except SchemaError Nat :=
  match siblings.findIdx? (·.name == name) with
  | none => .error (.unknownReference name)
  | some index =>
      if (siblings[index]?).any (allowed ·.kind) then .ok index
      else .error (.invalidReference name)

/-- An operand with its references resolved among `siblings`. -/
def Operand.resolve (siblings : List FieldSpec) : Operand String → Except SchemaError (Operand Nat)
  | .const value => .ok (.const value)
  | .valueOf name => do return .valueOf (← referTo siblings LayoutSpec.hasValue name)
  | .countOf name => do return .countOf (← referTo siblings LayoutSpec.isArray name)
  | .sizeOf first last => do
      let start ← referTo siblings (fun _ => true) first
      let stop ← referTo siblings (fun _ => true) last
      if stop < start then throw (.reversedRange first last)
      return .sizeOf start stop

/-- A size expression with its references resolved among `siblings`. -/
def SizeExpr.resolve (siblings : List FieldSpec) (expr : SizeExpr String) :
    Except SchemaError (SizeExpr Nat) :=
  expr.mapM fun term => do return ⟨term.negate, ← term.operand.resolve siblings⟩

/-! ### Sizes known from the layout -/

/-- The fields from index `first` to index `last`. -/
def fieldRange (fields : List Field) (first last : Nat) : List Field :=
  (fields.take (last + 1)).drop first

/-- A quantity that the layout of the siblings fixes. -/
def fixedQuantity? (fields : List Field) : Operand Nat → Option Int
  | .const value => some value.toNat
  | .valueOf index =>
      match fields[index]? with
      | some ⟨_, .constant _ value⟩ => some value.toNat
      | _ => none
  | .countOf index =>
      match fields[index]? with
      | some ⟨_, .array _ (.fixed count)⟩ => some count.toNat
      | _ => none
  | .sizeOf first last => (totalWidth? (fieldWidths (fieldRange fields first last))).map Int.ofNat

/-- The value of a size expression, if the layout of the siblings fixes it. -/
def SizeExpr.fixedValue? (fields : List Field) (expr : SizeExpr Nat) : Option Int :=
  expr.evaluate (fixedQuantity? fields)

/-- What is wrong with a size field whose value is known. -/
def Field.sizeFault? (fields : List Field) (field : Field) : Option SchemaError :=
  match field.layout with
  | .derived format expr =>
      match expr.fixedValue? fields with
      | some value =>
          if format.fits value then none
          else some (.sizeExceedsWidth field.name value format.max)
      | none => none
  | _ => none

/-- Whether a layout of fixed width is too large to address. -/
def Layout.sizeFault? (name : String) (layout : Layout) : Option SchemaError :=
  match layout.width? with
  | some width => if width < Address.limit then none else some (.layoutTooLarge name)
  | none => none

/-! ### Structs, arrays and views -/

/-- What is wrong with the name of a field, given the fields before it. -/
def FieldSpec.fault? (earlier : List FieldSpec) (field : FieldSpec) : Option SchemaError :=
  if field.name = "" then some .emptyName
  else if earlier.any (·.name == field.name) then some (.duplicateName field.name)
  else none

/-- The members of a struct, from the outcome of compiling its fields one by one. -/
def assembleStruct (specs : List FieldSpec) (members : Except SchemaError (List Field)) :
    Except SchemaError (List Field) := do
  raise (firstFault? FieldSpec.fault? [] specs)
  let fields ← members
  raise (fields.findSome? (Field.sizeFault? fields))
  raise ((beyondLimit? 0 fields).map .layoutTooLarge)
  return fields

/-- Checks the length of the array `name`. -/
def ArrayLength.compile (name : String) (order : ByteOrder) :
    ArrayLength IntSpec → Except SchemaError (ArrayLength IntFormat)
  | .fixed count => do
      if count = 0 then throw (.emptyArray name)
      return .fixed count
  | .bounded capacity counter => do
      if capacity = 0 then throw (.emptyArray name)
      let counter ← counter.resolve order
      if !counter.fits capacity.toNat then throw (.capacityOutOfRange capacity counter.bytes)
      return .bounded capacity counter

/-- What is wrong with the name and the key of a variant, given the variants before it. -/
def VariantSpec.fault? (key : IntFormat) (earlier : List VariantSpec) (variant : VariantSpec) :
    Option SchemaError :=
  if variant.name = "" then some .emptyName
  else if !key.fits variant.key.toNat then some (.keyOutOfRange variant.key key.bytes)
  else if earlier.any (·.key == variant.key) then some (.duplicateVariantKey variant.key)
  else if earlier.any (·.name == variant.name) then some (.duplicateName variant.name)
  else none

/-! ### The whole description -/

mutual

/-- Compiles the kind of the field `name`. `siblings` are the fields of the struct that the field
is a member of; elements of arrays and payloads of views have none. -/
def LayoutSpec.compile (name : String) (siblings : Option (List FieldSpec)) (order : ByteOrder) :
    LayoutSpec → Except SchemaError Layout
  | .int spec => do return .int (← spec.resolve order)
  | .enum spec => do return .enum (← spec.compile name order)
  | .mask spec => do return .mask (← spec.compile)
  | .struct fields own => do
      let order := own.getD order
      return .struct (← assembleStruct fields (compileFields fields order fields))
  | .array element length => do
      let length ← length.compile name order
      let element ← element.compile name none order
      raise ((Layout.array element length).sizeFault? name)
      return .array element length
  | .view key variants => do
      if variants.isEmpty then throw (.emptyView name)
      let key ← key.resolve order
      let variants ← compileVariants key order [] variants
      raise ((Layout.view key variants).sizeFault? name)
      return .view key variants
  | .constant format value => do
      let format ← format.resolve order
      if !format.fits value.toNat then throw (.valueOutOfRange value format.bytes)
      return .constant format value
  | .derived format expr =>
      match siblings with
      | none => .error (.detachedSize name)
      | some siblings => do
          let format ← format.resolve order
          return .derived format (← expr.resolve siblings)

/-- Compiles fields one by one; `siblings` are all the fields of their struct. -/
def compileFields (siblings : List FieldSpec) (order : ByteOrder) :
    List FieldSpec → Except SchemaError (List Field)
  | [] => .ok []
  | ⟨name, kind⟩ :: rest => do
      let layout ← kind.compile name (some siblings) order
      return ⟨name, layout⟩ :: (← compileFields siblings order rest)

/-- Compiles variants one by one, each judged with those before it. -/
def compileVariants (key : IntFormat) (order : ByteOrder) (earlier : List VariantSpec) :
    List VariantSpec → Except SchemaError (List Variant)
  | [] => .ok []
  | ⟨name, value, kind⟩ :: rest => do
      raise (VariantSpec.fault? key earlier ⟨name, value, kind⟩)
      let layout ← kind.compile name none order
      return ⟨name, value, layout⟩ ::
        (← compileVariants key order (earlier ++ [⟨name, value, kind⟩]) rest)

end

/-- Compiles the fields of a struct whose byte order is `order`. -/
def compileStruct (order : ByteOrder) (fields : List FieldSpec) : Except SchemaError (List Field) :=
  assembleStruct fields (compileFields fields order fields)

end RecordLayout
