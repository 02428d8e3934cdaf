/-
**What compiling establishes.**

`Layout.Valid` collects the facts that the checks of a description leave behind in its layout, at
every level of nesting:

* the named values of an enumeration are distinct in name and value, and fit its format;
* the members of a struct have distinct names, and its size expressions refer to members of the
  right kind, a measured range running forward;
* the capacity of a bounded array fits the format of the stored count;
* the variants of a view are distinct in name and key, and the keys fit their format;
* a constant fits its format.

`LayoutSpec.valid_of_compile` and `Schema.valid_of_compile`: a layout that compiling yields is
valid. Everything said later about layouts rests on these facts and not on the compiler.
-/

import Mathlib.Data.List.Nodup
import RecordLayout.Proofs.Outcome
import RecordLayout.Schema

namespace RecordLayout

/-! ### Validity -/

/-- The named values are distinct and fit the format. -/
structure Enumeration.Valid (enumeration : Enumeration) : Prop where
  names : (enumeration.variants.map (·.name)).Nodup
  values : (enumeration.variants.map (·.value)).Nodup
  fits : ∀ variant ∈ enumeration.variants, enumeration.format.fits variant.value.toNat

/-- Every count that the array can have fits the format of the stored count. -/
def ArrayLength.Valid : ArrayLength IntFormat → Prop
  | .fixed _ => True
  | .bounded capacity counter => counter.fits capacity.toNat

/-- Whether a value of the layout is a single number that a draft can hold. -/
def Layout.hasValue : Layout → Bool
  | .int _ | .enum _ | .constant _ _ => true
  | _ => false

/-- Whether a value of the layout has a number of elements. -/
def Layout.isArray : Layout → Bool
  | .array _ _ => true
  | _ => false

/-- The operand refers to members of `fields` that have the quantity it asks for. -/
def Operand.RefersTo (fields : List Field) : Operand Nat → Prop
  | .const _ => True
  | .valueOf index => ∃ field, fields[index]? = some field ∧ field.layout.hasValue
  | .countOf index => ∃ field, fields[index]? = some field ∧ field.layout.isArray
  | .sizeOf first last => first ≤ last ∧ last < fields.length

/-- A size field among `fields` refers to members of `fields`. -/
def Field.RefersTo (fields : List Field) (field : Field) : Prop :=
  ∀ format expr, field.layout = .derived format expr →
    ∀ term ∈ expr, term.operand.RefersTo fields

/-- **The facts that compiling establishes**, at every level of a layout. -/
inductive Layout.Valid : Layout → Prop where
  | int (format : IntFormat) : Valid (.int format)
  | enum {enumeration : Enumeration} (variants : enumeration.Valid) : Valid (.enum enumeration)
  | mask (mask : Mask) : Valid (.mask mask)
  | struct {fields : List Field} (names : (fields.map (·.name)).Nodup)
      (references : ∀ field ∈ fields, field.RefersTo fields)
      (members : ∀ field ∈ fields, Valid field.layout) : Valid (.struct fields)
  | array {element : Layout} {length : ArrayLength IntFormat} (counts : length.Valid)
      (elements : Valid element) : Valid (.array element length)
  | view {key : IntFormat} {variants : List Variant} (names : (variants.map (·.name)).Nodup)
      (keys : (variants.map (·.key)).Nodup)
      (fits : ∀ variant ∈ variants, key.fits variant.key.toNat)
      (payloads : ∀ variant ∈ variants, Valid variant.layout) : Valid (.view key variants)
  | constant {format : IntFormat} {value : UInt64} (fits : format.fits value.toNat) :
      Valid (.constant format value)
  | derived (format : IntFormat) (expr : SizeExpr Nat) : Valid (.derived format expr)

/-- The second layout is the first one or a part of it, at any depth. -/
inductive Layout.Contains : Layout → Layout → Prop where
  | refl (layout : Layout) : Contains layout layout
  | member {fields : List Field} {field : Field} {part : Layout} (inside : field ∈ fields)
      (rest : Contains field.layout part) : Contains (.struct fields) part
  | element {inner : Layout} {length : ArrayLength IntFormat} {part : Layout}
      (rest : Contains inner part) : Contains (.array inner length) part
  | payload {key : IntFormat} {variants : List Variant} {variant : Variant} {part : Layout}
      (inside : variant ∈ variants) (rest : Contains variant.layout part) :
      Contains (.view key variants) part

theorem Layout.Contains.trans {whole middle part : Layout} (first : whole.Contains middle)
    (second : middle.Contains part) : whole.Contains part := by
  induction first with
  | refl => exact second
  | member inside _ ih => exact .member inside (ih second)
  | element _ ih => exact .element (ih second)
  | payload inside _ ih => exact .payload inside (ih second)

/-- The members of a struct have different names. -/
theorem Layout.Valid.names {layout : Layout} {fields : List Field} (valid : layout.Valid)
    (struct : layout = .struct fields) : (fields.map (·.name)).Nodup := by
  subst struct
  cases valid with
  | struct names _ _ => exact names

/-! The parts of a valid layout are valid. -/

theorem Layout.Valid.member {fields : List Field} {field : Field}
    (valid : (Layout.struct fields).Valid) (inside : field ∈ fields) : field.layout.Valid := by
  cases valid with
  | struct _ _ members => exact members field inside

theorem Layout.Valid.element {inner : Layout} {length : ArrayLength IntFormat}
    (valid : (Layout.array inner length).Valid) : inner.Valid := by
  cases valid with
  | array _ elements => exact elements

theorem Layout.Valid.payload {key : IntFormat} {variants : List Variant} {variant : Variant}
    (valid : (Layout.view key variants).Valid) (inside : variant ∈ variants) :
    variant.layout.Valid := by
  cases valid with
  | view _ _ _ payloads => exact payloads variant inside

theorem Layout.Valid.part {layout part : Layout} (valid : layout.Valid)
    (inside : layout.Contains part) : part.Valid := by
  induction inside with
  | refl => exact valid
  | member inside _ ih => exact ih (valid.member inside)
  | element _ ih => exact ih valid.element
  | payload inside _ ih => exact ih (valid.payload inside)

/-- Distinct entries are found by what tells them apart. -/
theorem find?_of_nodup {α β : Type} [DecidableEq β] {label : α → β} {entries : List α} {entry : α}
    (distinct : (entries.map label).Nodup) (member : entry ∈ entries) :
    entries.find? (label · == label entry) = some entry := by
  cases found : entries.find? (label · == label entry) with
  | none => exact absurd (List.find?_eq_none.mp found entry member) (by simp)
  | some other =>
      have same : label other = label entry := by simpa using List.find?_some found
      rw [List.inj_on_of_nodup_map distinct (List.mem_of_find?_eq_some found) member same]

/-- Distinct entries have the index at which what tells them apart is found. -/
theorem findIdx?_of_nodup {α β : Type} [DecidableEq β] {label : α → β} {entries : List α}
    {entry : α} {index : Nat} (distinct : (entries.map label).Nodup)
    (there : entries[index]? = some entry) :
    entries.findIdx? (label · == label entry) = some index := by
  obtain ⟨inside, rfl⟩ := List.getElem?_eq_some_iff.mp there
  refine List.findIdx?_eq_some_iff_getElem.mpr ⟨inside, by simp, fun other before => ?_⟩
  have apart := List.pairwise_iff_getElem.mp (List.pairwise_map.mp distinct) other index
    (Nat.lt_trans before inside) inside before
  simpa using apart

/-- An entry that is found by its index is the one that is found. -/
theorem exists_of_findIdx?_eq_some {α : Type} {entries : List α} {wanted : α → Bool} {index : Nat}
    (found : entries.findIdx? wanted = some index) :
    ∃ entry, entries[index]? = some entry ∧ entries.find? wanted = some entry := by
  obtain ⟨inside, here, before⟩ := List.findIdx?_eq_some_iff_getElem.mp found
  refine ⟨entries[index], List.getElem?_eq_getElem inside, ?_⟩
  refine List.find?_eq_some_iff_getElem.mpr ⟨here, index, inside, rfl, fun other earlier => ?_⟩
  simpa using before other earlier

/-- What tells distinct entries apart is found exactly where an entry has it. -/
theorem findIdx?_eq_some_iff_of_nodup {α β : Type} [DecidableEq β] {label : α → β}
    {entries : List α} {wanted : β} {index : Nat} (distinct : (entries.map label).Nodup) :
    entries.findIdx? (label · == wanted) = some index ↔
      ∃ entry, entries[index]? = some entry ∧ label entry = wanted := by
  constructor
  · intro found
    obtain ⟨entry, there, first⟩ := exists_of_findIdx?_eq_some found
    exact ⟨entry, there, by simpa using List.find?_some first⟩
  · rintro ⟨entry, there, rfl⟩
    exact findIdx?_of_nodup distinct there

/-- Distinct entries are at one index each. -/
theorem index_eq_of_nodup {α β : Type} [DecidableEq β] {label : α → β} {entries : List α}
    {entry twin : α} {index other : Nat} (distinct : (entries.map label).Nodup)
    (there : entries[index]? = some entry) (elsewhere : entries[other]? = some twin)
    (same : label twin = label entry) : index = other := by
  have first := findIdx?_of_nodup distinct there
  have second := findIdx?_of_nodup distinct elsewhere
  rw [same, first] at second
  exact Option.some.inj second

/-! ### Induction on descriptions and layouts -/

/-- Induction on a description, with the hypothesis for every member, element and payload. -/
@[elab_as_elim, induction_eliminator]
theorem LayoutSpec.induction {motive : LayoutSpec → Prop} (int : ∀ spec, motive (.int spec))
    (enum : ∀ spec, motive (.enum spec)) (mask : ∀ spec, motive (.mask spec))
    (struct : ∀ fields order, (∀ field ∈ fields, motive field.kind) →
      motive (.struct fields order))
    (array : ∀ element length, motive element → motive (.array element length))
    (view : ∀ key variants, (∀ variant ∈ variants, motive variant.kind) →
      motive (.view key variants))
    (constant : ∀ format value, motive (.constant format value))
    (derived : ∀ format expr, motive (.derived format expr)) (spec : LayoutSpec) : motive spec := by
  refine @LayoutSpec.rec motive (fun field => motive field.kind)
    (fun variant => motive variant.kind)
    (fun fields => ∀ field ∈ fields, motive field.kind)
    (fun variants => ∀ variant ∈ variants, motive variant.kind)
    int enum mask struct array view constant derived (fun _ _ ih => ih) (fun _ _ _ ih => ih)
    ?_ ?_ ?_ ?_ spec
  · intro field member
    cases member
  · intro head tail first rest
    exact List.forall_mem_cons.mpr ⟨first, rest⟩
  · intro variant member
    cases member
  · intro head tail first rest
    exact List.forall_mem_cons.mpr ⟨first, rest⟩

/-- Induction on a layout, with the hypothesis for every member, element and payload. -/
@[elab_as_elim, induction_eliminator]
theorem Layout.induction {motive : Layout → Prop} (int : ∀ format, motive (.int format))
    (enum : ∀ enumeration, motive (.enum enumeration)) (mask : ∀ mask, motive (.mask mask))
    (struct : ∀ fields, (∀ field ∈ fields, motive field.layout) → motive (.struct fields))
    (array : ∀ element length, motive element → motive (.array element length))
    (view : ∀ key variants, (∀ variant ∈ variants, motive variant.layout) →
      motive (.view key variants))
    (constant : ∀ format value, motive (.constant format value))
    (derived : ∀ format expr, motive (.derived format expr)) (layout : Layout) :
    motive layout := by
  refine @Layout.rec motive (fun field => motive field.layout)
    (fun variant => motive variant.layout) (fun fields => ∀ field ∈ fields, motive field.layout)
    (fun variants => ∀ variant ∈ variants, motive variant.layout)
    int enum mask struct array view constant derived (fun _ _ ih => ih) (fun _ _ _ ih => ih)
    ?_ ?_ ?_ ?_ layout
  · intro field member
    cases member
  · intro head tail first rest
    exact List.forall_mem_cons.mpr ⟨first, rest⟩
  · intro variant member
    cases member
  · intro head tail first rest
    exact List.forall_mem_cons.mpr ⟨first, rest⟩

/-! ### Enumerations and array lengths -/

theorem EnumVariant.fault?_eq_none_iff {format : IntFormat} (earlier : List EnumVariant)
    (variant : EnumVariant) :
    variant.fault? format earlier = none ↔
      (variant.name ≠ "" ∧ format.fits variant.value.toNat) ∧
        ∀ other ∈ earlier, other.name ≠ variant.name ∧ other.value ≠ variant.value := by
  unfold EnumVariant.fault?
  constructor
  · intro clear
    split_ifs at clear with unnamed misfit name value
    simp only [Bool.not_eq_true, Bool.not_eq_false', List.any_eq_false, beq_iff_eq] at misfit name value
    exact ⟨⟨unnamed, misfit⟩, fun other member => ⟨name other member, value other member⟩⟩
  · rintro ⟨⟨named, fits⟩, apart⟩
    have name : earlier.any (·.name == variant.name) = false := by
      simpa using fun other member => (apart other member).1
    have value : earlier.any (·.value == variant.value) = false := by
      simpa using fun other member => (apart other member).2
    simp [named, fits, name, value]

/-- **The outcome for an enumeration**: its named values as they are declared, once each of them has
been judged with those before it. -/
theorem Enumeration.compile_eq_ok_iff {name : String} {format : IntFormat}
    {variants : List EnumVariant} {enumeration : Enumeration} :
    Enumeration.compile name format variants = .ok enumeration ↔
      variants ≠ [] ∧
        ((∀ variant ∈ variants, variant.name ≠ "" ∧ format.fits variant.value.toNat) ∧
          (variants.map (·.name)).Nodup ∧ (variants.map (·.value)).Nodup) ∧
        enumeration = ⟨format, variants⟩ := by
  simp only [Enumeration.compile, bind_eq_ok_iff, guard_eq_ok_iff, raise_eq_ok_iff,
    pure_eq_ok_iff, List.isEmpty_iff,
    firstFault?_eq_none_iff_nodup EnumVariant.fault?_eq_none_iff]
  constructor
  · rintro ⟨nonempty, _, clear, rfl⟩
    exact ⟨nonempty, clear, rfl⟩
  · rintro ⟨nonempty, clear, rfl⟩
    exact ⟨nonempty, (), clear, rfl⟩

theorem Enumeration.valid_of_compile {name : String} {format : IntFormat}
    {variants : List EnumVariant} {enumeration : Enumeration}
    (compiled : Enumeration.compile name format variants = .ok enumeration) :
    enumeration.Valid := by
  obtain ⟨-, ⟨each, names, values⟩, rfl⟩ := Enumeration.compile_eq_ok_iff.mp compiled
  exact ⟨names, values, fun variant member => (each variant member).2⟩

theorem EnumSpec.valid_of_compile {spec : EnumSpec} {name : String} {order : ByteOrder}
    {enumeration : Enumeration} (compiled : spec.compile name order = .ok enumeration) :
    enumeration.Valid := by
  obtain ⟨format, -, compiled⟩ := bind_eq_ok_iff.mp compiled
  exact Enumeration.valid_of_compile compiled

namespace Enumeration

variable {enumeration : Enumeration} {name : String} {value : UInt64}

/-! What a lookup finds is declared; where the entries are distinct, what is declared is found. -/

theorem mem_of_valueOf? (found : enumeration.valueOf? name = some value) :
    ⟨name, value⟩ ∈ enumeration.variants := by
  obtain ⟨variant, first, rfl⟩ := Option.map_eq_some_iff.mp found
  have named : variant.name = name := by simpa using List.find?_some first
  exact named ▸ List.mem_of_find?_eq_some first

theorem mem_of_nameOf? (known : enumeration.nameOf? value = some name) :
    ⟨name, value⟩ ∈ enumeration.variants := by
  obtain ⟨variant, first, rfl⟩ := Option.map_eq_some_iff.mp known
  have valued : variant.value = value := by simpa using List.find?_some first
  exact valued ▸ List.mem_of_find?_eq_some first

theorem Valid.valueOf?_eq_some_iff (valid : enumeration.Valid) :
    enumeration.valueOf? name = some value ↔ ⟨name, value⟩ ∈ enumeration.variants := by
  refine ⟨mem_of_valueOf?, fun declared => ?_⟩
  rw [valueOf?, find?_of_nodup valid.names declared, Option.map_some]

theorem Valid.nameOf?_eq_some_iff (valid : enumeration.Valid) :
    enumeration.nameOf? value = some name ↔ ⟨name, value⟩ ∈ enumeration.variants := by
  refine ⟨mem_of_nameOf?, fun declared => ?_⟩
  rw [nameOf?, find?_of_nodup valid.values declared, Option.map_some]

end Enumeration

theorem ArrayLength.valid_of_compile {spec : ArrayLength IntSpec} {name : String}
    {order : ByteOrder} {length : ArrayLength IntFormat}
    (compiled : spec.compile name order = .ok length) : length.Valid := by
  cases spec with
  | fixed count =>
      simp only [ArrayLength.compile, guard_eq_ok_iff, pure_eq_ok_iff] at compiled
      obtain ⟨-, rfl⟩ := compiled
      trivial
  | bounded capacity counter =>
      simp only [ArrayLength.compile, guard_eq_ok_iff, bind_eq_ok_iff, pure_eq_ok_iff] at compiled
      obtain ⟨-, counter, -, fits, rfl⟩ := compiled
      simpa [ArrayLength.Valid] using fits

/-! ### Members and variants in step with their descriptions -/

/-- A field that compiling makes of a description among `siblings`. -/
def Field.CompiledFrom (siblings : List FieldSpec) (order : ByteOrder) (spec : FieldSpec)
    (field : Field) : Prop :=
  field.name = spec.name ∧ spec.kind.compile spec.name (some siblings) order = .ok field.layout

theorem compileFields_eq_ok_iff {siblings specs : List FieldSpec} {order : ByteOrder}
    {fields : List Field} :
    compileFields siblings order specs = .ok fields ↔
      List.Forall₂ (Field.CompiledFrom siblings order) specs fields := by
  induction specs generalizing fields with
  | nil => simp [compileFields, eq_comm]
  | cons spec rest ih =>
      obtain ⟨name, kind⟩ := spec
      simp only [compileFields, bind_eq_ok_iff, pure_eq_ok_iff, ih, List.forall₂_cons_left_iff]
      constructor
      · rintro ⟨layout, found, others, each, rfl⟩
        exact ⟨⟨name, layout⟩, others, ⟨rfl, found⟩, each, rfl⟩
      · rintro ⟨⟨_, layout⟩, others, ⟨rfl, found⟩, each, rfl⟩
        exact ⟨layout, found, others, each, rfl⟩

/-- A variant that compiling makes of a description. -/
def Variant.CompiledFrom (order : ByteOrder) (spec : VariantSpec) (variant : Variant) : Prop :=
  variant.name = spec.name ∧ variant.key = spec.key ∧
    spec.kind.compile spec.name none order = .ok variant.layout

theorem compileVariants_eq_ok_iff {key : IntFormat} {order : ByteOrder}
    {earlier specs : List VariantSpec} {variants : List Variant} :
    compileVariants key order earlier specs = .ok variants ↔
      firstFault? (VariantSpec.fault? key) earlier specs = none ∧
        List.Forall₂ (Variant.CompiledFrom order) specs variants := by
  induction specs generalizing earlier variants with
  | nil => simp [compileVariants, firstFault?, eq_comm]
  | cons spec rest ih =>
      obtain ⟨name, value, kind⟩ := spec
      simp only [compileVariants, bind_eq_ok_iff, raise_eq_ok_iff, pure_eq_ok_iff, ih,
        firstFault?_cons_eq_none_iff, List.forall₂_cons_left_iff]
      constructor
      · rintro ⟨_, clear, layout, found, others, ⟨later, each⟩, rfl⟩
        exact ⟨⟨clear, later⟩, ⟨name, value, layout⟩, others, ⟨rfl, rfl, found⟩, each, rfl⟩
      · rintro ⟨⟨clear, later⟩, ⟨_, _, layout⟩, others, ⟨rfl, rfl, found⟩, each, rfl⟩
        exact ⟨(), clear, layout, found, others, ⟨later, each⟩, rfl⟩

theorem FieldSpec.fault?_eq_none_iff (earlier : List FieldSpec) (field : FieldSpec) :
    field.fault? earlier = none ↔ field.name ≠ "" ∧ ∀ other ∈ earlier, other.name ≠ field.name := by
  unfold FieldSpec.fault?
  constructor
  · intro clear
    split_ifs at clear with unnamed name
    simp only [Bool.not_eq_true, List.any_eq_false, beq_iff_eq] at name
    exact ⟨unnamed, name⟩
  · rintro ⟨named, apart⟩
    have name : earlier.any (·.name == field.name) = false := by simpa using apart
    simp [named, name]

theorem VariantSpec.fault?_eq_none_iff {key : IntFormat} (earlier : List VariantSpec)
    (variant : VariantSpec) :
    variant.fault? key earlier = none ↔
      (variant.name ≠ "" ∧ key.fits variant.key.toNat) ∧
        ∀ other ∈ earlier, other.name ≠ variant.name ∧ other.key ≠ variant.key := by
  unfold VariantSpec.fault?
  constructor
  · intro clear
    split_ifs at clear with unnamed misfit value name
    simp only [Bool.not_eq_true, Bool.not_eq_false', List.any_eq_false, beq_iff_eq]
      at misfit name value
    exact ⟨⟨unnamed, misfit⟩, fun other member => ⟨name other member, value other member⟩⟩
  · rintro ⟨⟨named, fits⟩, apart⟩
    have name : earlier.any (·.name == variant.name) = false := by
      simpa using fun other member => (apart other member).1
    have value : earlier.any (·.key == variant.key) = false := by
      simpa using fun other member => (apart other member).2
    simp [named, fits, name, value]

/-! ### References -/

theorem referTo_eq_ok {siblings : List FieldSpec} {allowed : LayoutSpec → Bool} {name : String}
    {index : Nat} (found : referTo siblings allowed name = .ok index) :
    ∃ spec, siblings[index]? = some spec ∧ spec.name = name ∧ allowed spec.kind := by
  unfold referTo at found
  split at found
  · cases found
  · rename_i position located
    split_ifs at found with fine
    cases found
    obtain ⟨spec, there, fine⟩ := (Option.any_eq_true _ _).mp fine
    obtain ⟨inside, same, -⟩ := List.findIdx?_eq_some_iff_getElem.mp located
    rw [List.getElem?_eq_getElem inside, Option.some.injEq] at there
    exact ⟨spec, by rw [List.getElem?_eq_getElem inside, there], there ▸ beq_iff_eq.mp same, fine⟩

/-- Compiling keeps the kinds that a size expression can refer to. -/
theorem LayoutSpec.kind_of_compile {spec : LayoutSpec} {name : String}
    {siblings : Option (List FieldSpec)} {order : ByteOrder} {layout : Layout}
    (compiled : spec.compile name siblings order = .ok layout) :
    layout.hasValue = spec.hasValue ∧ layout.isArray = spec.isArray := by
  cases spec with
  | derived format expr =>
      cases siblings with
      | none => cases compiled
      | some siblings =>
          simp only [LayoutSpec.compile, bind_eq_ok_iff, pure_eq_ok_iff] at compiled
          obtain ⟨format, -, expr, -, rfl⟩ := compiled
          exact ⟨rfl, rfl⟩
  | _ =>
      simp only [LayoutSpec.compile, bind_eq_ok_iff, guard_eq_ok_iff, pure_eq_ok_iff] at compiled
      grind [Layout.hasValue, Layout.isArray, LayoutSpec.hasValue, LayoutSpec.isArray]

section References

variable {siblings : List FieldSpec} {fields : List Field} {order : ByteOrder}

theorem exists_field_of_referTo {allowed : LayoutSpec → Bool} {name : String} {index : Nat}
    (each : List.Forall₂ (Field.CompiledFrom siblings order) siblings fields)
    (found : referTo siblings allowed name = .ok index) :
    ∃ field spec, fields[index]? = some field ∧ allowed spec.kind ∧
      Field.CompiledFrom siblings order spec field := by
  obtain ⟨spec, there, -, fine⟩ := referTo_eq_ok found
  obtain ⟨field, present, compiled⟩ := exists_result_of_getElem? each there
  exact ⟨field, spec, present, fine, compiled⟩

theorem Operand.refersTo_of_resolve {operand : Operand String} {resolved : Operand Nat}
    (each : List.Forall₂ (Field.CompiledFrom siblings order) siblings fields)
    (found : operand.resolve siblings = .ok resolved) : resolved.RefersTo fields := by
  cases operand with
  | const value =>
      simp only [Operand.resolve, Except.ok.injEq] at found
      exact found ▸ trivial
  | valueOf name =>
      simp only [Operand.resolve, bind_eq_ok_iff, pure_eq_ok_iff] at found
      obtain ⟨index, found, rfl⟩ := found
      obtain ⟨field, spec, there, fine, -, compiled⟩ := exists_field_of_referTo each found
      exact ⟨field, there, (LayoutSpec.kind_of_compile compiled).1.trans fine⟩
  | countOf name =>
      simp only [Operand.resolve, bind_eq_ok_iff, pure_eq_ok_iff] at found
      obtain ⟨index, found, rfl⟩ := found
      obtain ⟨field, spec, there, fine, -, compiled⟩ := exists_field_of_referTo each found
      exact ⟨field, there, (LayoutSpec.kind_of_compile compiled).2.trans fine⟩
  | sizeOf first last =>
      simp only [Operand.resolve, bind_eq_ok_iff, guard_eq_ok_iff, pure_eq_ok_iff] at found
      obtain ⟨start, -, stop, found, forward, rfl⟩ := found
      obtain ⟨field, -, there, -⟩ := exists_field_of_referTo each found
      exact ⟨Nat.le_of_not_lt forward, (List.getElem?_eq_some_iff.mp there).1⟩

/-- The size fields of a struct refer to its members. -/
theorem Field.refersTo_of_compile {spec : FieldSpec} {field : Field}
    (each : List.Forall₂ (Field.CompiledFrom siblings order) siblings fields)
    (compiled : Field.CompiledFrom siblings order spec field) : field.RefersTo fields := by
  intro format expr derived term member
  obtain ⟨-, compiled⟩ := compiled
  rw [derived] at compiled
  -- Only a described size compiles to one, and its terms were resolved among the siblings.
  cases kind : spec.kind with
  | derived described terms =>
      simp only [kind, LayoutSpec.compile, SizeExpr.resolve, bind_eq_ok_iff, pure_eq_ok_iff,
        mapM_eq_ok_iff, Layout.derived.injEq] at compiled
      obtain ⟨_, -, resolved, eachTerm, rfl, rfl⟩ := compiled
      obtain ⟨source, -, operand, found, rfl⟩ := exists_entry_of_mem eachTerm member
      exact Operand.refersTo_of_resolve each found
  | _ =>
      simp only [kind, LayoutSpec.compile, bind_eq_ok_iff, guard_eq_ok_iff, pure_eq_ok_iff]
        at compiled
      grind

end References

/-! ### The whole layout -/

/-- **The outcome of assembling a struct**: its names, its members, its sizes and its offsets. -/
theorem assembleStruct_eq_ok_iff {specs : List FieldSpec} {members : Except SchemaError (List Field)}
    {fields : List Field} :
    assembleStruct specs members = .ok fields ↔
      ((∀ spec ∈ specs, spec.name ≠ "") ∧ (specs.map (·.name)).Nodup) ∧ members = .ok fields ∧
        (∀ field ∈ fields, field.sizeFault? fields = none) ∧ beyondLimit? 0 fields = none := by
  have names : firstFault? FieldSpec.fault? [] specs = none ↔
      (∀ spec ∈ specs, spec.name ≠ "") ∧ (specs.map (·.name)).Nodup := by
    rw [firstFault?_eq_none_iff_pairwise FieldSpec.fault?_eq_none_iff, List.Nodup,
      List.pairwise_map]
  simp only [assembleStruct, bind_eq_ok_iff, raise_eq_ok_iff, pure_eq_ok_iff, names,
    List.findSome?_eq_none_iff, Option.map_eq_none_iff]
  constructor
  · rintro ⟨_, apart, found, compiled, _, sizes, _, room, rfl⟩
    exact ⟨apart, compiled, sizes, room⟩
  · rintro ⟨apart, compiled, sizes, room⟩
    exact ⟨(), apart, fields, compiled, (), sizes, (), room, rfl⟩

/-- A struct is valid when its members are. -/
theorem Layout.Valid.of_compileFields {specs : List FieldSpec} {order : ByteOrder}
    {fields : List Field} (names : (specs.map (·.name)).Nodup)
    (compiled : compileFields specs order specs = .ok fields)
    (members : ∀ spec ∈ specs, ∀ name siblings order layout,
      spec.kind.compile name siblings order = .ok layout → layout.Valid) :
    (Layout.struct fields).Valid := by
  have each := compileFields_eq_ok_iff.mp compiled
  refine .struct ?_ ?_ ?_
  · rw [map_eq_of_forall₂ each fun _ _ _ related => related.1]
    exact names
  · intro field member
    obtain ⟨spec, -, related⟩ := exists_entry_of_mem each member
    exact Field.refersTo_of_compile each related
  · intro field member
    obtain ⟨spec, inside, related⟩ := exists_entry_of_mem each member
    exact members spec inside _ _ _ _ related.2

/-- A view is valid when its payloads are. -/
theorem Layout.Valid.of_compileVariants {key : IntFormat} {order : ByteOrder}
    {specs : List VariantSpec} {variants : List Variant}
    (compiled : compileVariants key order [] specs = .ok variants)
    (payloads : ∀ spec ∈ specs, ∀ name siblings order layout,
      spec.kind.compile name siblings order = .ok layout → layout.Valid) :
    (Layout.view key variants).Valid := by
  obtain ⟨clear, each⟩ := compileVariants_eq_ok_iff.mp compiled
  obtain ⟨fine, names, keys⟩ :=
    (firstFault?_eq_none_iff_nodup VariantSpec.fault?_eq_none_iff).mp clear
  refine .view ?_ ?_ ?_ ?_
  · rw [map_eq_of_forall₂ each fun _ _ _ related => related.1]
    exact names
  · rw [map_eq_of_forall₂ each fun _ _ _ related => related.2.1]
    exact keys
  · intro variant member
    obtain ⟨spec, inside, -, same, -⟩ := exists_entry_of_mem each member
    exact same ▸ (fine spec inside).2
  · intro variant member
    obtain ⟨spec, inside, -, -, found⟩ := exists_entry_of_mem each member
    exact payloads spec inside _ _ _ _ found

/-- **The outcome for a view**: its key is settled and its variants are compiled, and the whole can be
addressed. -/
theorem LayoutSpec.compile_view_eq_ok_iff {key : IntSpec} {specs : List VariantSpec} {name : String}
    {siblings : Option (List FieldSpec)} {order : ByteOrder} {layout : Layout} :
    (LayoutSpec.view key specs).compile name siblings order = .ok layout ↔
      specs ≠ [] ∧ ∃ format variants, key.resolve order = .ok format ∧
        compileVariants format order [] specs = .ok variants ∧
        (Layout.view format variants).sizeFault? name = none ∧ layout = .view format variants := by
  simp only [LayoutSpec.compile, bind_eq_ok_iff, guard_eq_ok_iff, raise_eq_ok_iff,
    pure_eq_ok_iff, List.isEmpty_iff]
  constructor
  · rintro ⟨nonempty, format, resolved, variants, compiled, _, room, rfl⟩
    exact ⟨nonempty, format, variants, resolved, compiled, room, rfl⟩
  · rintro ⟨nonempty, format, variants, resolved, compiled, room, rfl⟩
    exact ⟨nonempty, format, resolved, variants, compiled, (), room, rfl⟩

/-- **Compiling yields valid layouts.** -/
theorem LayoutSpec.valid_of_compile {spec : LayoutSpec} {name : String}
    {siblings : Option (List FieldSpec)} {order : ByteOrder} {layout : Layout}
    (compiled : spec.compile name siblings order = .ok layout) : layout.Valid := by
  induction spec generalizing name siblings order layout with
  | int spec =>
      simp only [LayoutSpec.compile, bind_eq_ok_iff, pure_eq_ok_iff] at compiled
      obtain ⟨format, -, rfl⟩ := compiled
      exact .int format
  | enum spec =>
      simp only [LayoutSpec.compile, bind_eq_ok_iff, pure_eq_ok_iff] at compiled
      obtain ⟨enumeration, found, rfl⟩ := compiled
      exact .enum (EnumSpec.valid_of_compile found)
  | mask spec =>
      simp only [LayoutSpec.compile, bind_eq_ok_iff, pure_eq_ok_iff] at compiled
      obtain ⟨mask, -, rfl⟩ := compiled
      exact .mask mask
  | struct fields own ih =>
      simp only [LayoutSpec.compile, bind_eq_ok_iff, pure_eq_ok_iff] at compiled
      obtain ⟨members, assembled, rfl⟩ := compiled
      obtain ⟨⟨-, names⟩, compiled, -⟩ := assembleStruct_eq_ok_iff.mp assembled
      exact .of_compileFields names compiled fun spec inside _ _ _ _ => ih spec inside
  | array element length ih =>
      simp only [LayoutSpec.compile, bind_eq_ok_iff, raise_eq_ok_iff, pure_eq_ok_iff] at compiled
      obtain ⟨length, counts, element, found, _, -, rfl⟩ := compiled
      exact .array (ArrayLength.valid_of_compile counts) (ih found)
  | view key variants ih =>
      obtain ⟨-, key, variants, -, found, -, rfl⟩ := compile_view_eq_ok_iff.mp compiled
      exact .of_compileVariants found fun spec inside _ _ _ _ => ih spec inside
  | constant format value =>
      simp only [LayoutSpec.compile, bind_eq_ok_iff, guard_eq_ok_iff, pure_eq_ok_iff] at compiled
      obtain ⟨format, -, fits, rfl⟩ := compiled
      exact .constant (by simpa using fits)
  | derived format expr =>
      cases siblings with
      | none => cases compiled
      | some siblings =>
          simp only [LayoutSpec.compile, bind_eq_ok_iff, pure_eq_ok_iff] at compiled
          obtain ⟨format, -, expr, -, rfl⟩ := compiled
          exact .derived format expr

/-- **The layout of a compiled record is valid.** -/
theorem Schema.valid_of_compile {specs : List FieldSpec} {order : ByteOrder} {schema : Schema}
    (compiled : Schema.compile specs order = .ok schema) : schema.root.Valid := by
  simp only [Schema.compile, compileStruct, bind_eq_ok_iff, pure_eq_ok_iff] at compiled
  obtain ⟨fields, assembled, rfl⟩ := compiled
  obtain ⟨⟨-, names⟩, compiled, -⟩ := assembleStruct_eq_ok_iff.mp assembled
  exact .of_compileFields names compiled fun _ _ _ _ _ _ => LayoutSpec.valid_of_compile

/-! ### A packet -/

/-- A packet with a size in front and a payload behind. -/
def samplePacket : List FieldSpec :=
  let byte : IntSpec := ⟨1, false, none⟩
  let short : IntSpec := ⟨2, false, none⟩
  [⟨"size", .derived short [⟨false, .sizeOf "kind" "body"⟩]⟩,
    ⟨"kind", .enum ⟨byte, [⟨"data", 1⟩, ⟨"ack", 2⟩]⟩⟩,
    ⟨"flags", .mask ⟨1, [⟨"urgent", 0, [], []⟩, ⟨"last", 7, [], []⟩]⟩⟩,
    ⟨"items", .array (.int short) (.bounded 4 byte)⟩,
    ⟨"body", .view byte [⟨"ping", 1, .int ⟨2, true, none⟩⟩, ⟨"pong", 2, .constant byte 9⟩]⟩]

/-- The layout of the packet, most significant byte first. -/
def sampleSchema : Schema :=
  let byte : IntFormat := ⟨.one, false, .big⟩
  let short : IntFormat := ⟨.two, false, .big⟩
  ⟨[⟨"size", .derived short [⟨false, .sizeOf 1 4⟩]⟩,
    ⟨"kind", .enum ⟨byte, [⟨"data", 1⟩, ⟨"ack", 2⟩]⟩⟩,
    ⟨"flags", .mask ⟨1, [⟨"urgent", 0, [], []⟩, ⟨"last", 7, [], []⟩]⟩⟩,
    ⟨"items", .array (.int short) (.bounded 4 byte)⟩,
    ⟨"body", .view byte [⟨"ping", 1, .int ⟨.two, true, .big⟩⟩, ⟨"pong", 2, .constant byte 9⟩]⟩]⟩

theorem compile_samplePacket : Schema.compile samplePacket .big = .ok sampleSchema := rfl

end RecordLayout
