/-
**Exactly the well-formed descriptions are accepted.**

A description compiles if and only if it is well formed, whatever the byte order. Compiling checks
names, keys and references on descriptions and sizes on layouts; the layouts have the sizes that the
descriptions state, so each check is a condition on the description (`SizeReferences`), and so are
the checks of a mask (`MaskAcceptance`).

* `LayoutSpec.Accepted`: what is asked of a description at its place, among the siblings it has.
* `exists_assembleStruct_iff`, `exists_compile_array_iff`, `exists_compile_view_iff`: structs, arrays
  and views, given the outcome for each of their parts.
* `Schema.accepts_iff_wellFormed`: a record compiles exactly when it is well formed.
-/

import RecordLayout.Proofs.MaskAcceptance
import RecordLayout.Proofs.SizeReferences

namespace RecordLayout

/-! ### Enumerations and array lengths -/

theorem EnumSpec.exists_compile_iff {spec : EnumSpec} {name : String} {order : ByteOrder} :
    (∃ enumeration, spec.compile name order = .ok enumeration) ↔ spec.WellFormed := by
  simp only [EnumSpec.compile, bind_eq_ok_iff, Enumeration.compile_eq_ok_iff]
  constructor
  · rintro ⟨_, format, resolved, nonempty, ⟨each, names, values⟩, rfl⟩
    exact ⟨IntSpec.exists_resolve_iff.mp ⟨format, resolved⟩, nonempty,
      fun variant member => (each variant member).1, names, values,
      fun variant member => (IntSpec.fits_iff_inRange resolved).mp (each variant member).2⟩
  · intro wellFormed
    obtain ⟨format, resolved⟩ := IntSpec.exists_resolve_iff.mpr wellFormed.width
    refine ⟨_, format, resolved, wellFormed.nonempty, ⟨fun variant member => ?_,
      wellFormed.names, wellFormed.values⟩, rfl⟩
    exact ⟨wellFormed.named variant member,
      (IntSpec.fits_iff_inRange resolved).mpr (wellFormed.fits variant member)⟩

theorem ArrayLength.exists_compile_iff {spec : ArrayLength IntSpec} {name : String}
    {order : ByteOrder} :
    (∃ length, spec.compile name order = .ok length) ↔ spec.WellFormed := by
  cases spec with
  | fixed count =>
      simp only [ArrayLength.compile, guard_eq_ok_iff, pure_eq_ok_iff, ArrayLength.WellFormed]
      exact ⟨fun accepted => accepted.choose_spec.1, fun nonzero => ⟨_, nonzero, rfl⟩⟩
  | bounded capacity counter =>
      simp only [ArrayLength.compile, guard_eq_ok_iff, bind_eq_ok_iff, pure_eq_ok_iff,
        ArrayLength.WellFormed, Bool.not_eq_true, Bool.not_eq_false']
      constructor
      · rintro ⟨_, nonzero, format, resolved, fits, rfl⟩
        exact ⟨nonzero, IntSpec.exists_resolve_iff.mp ⟨format, resolved⟩,
          (IntSpec.fits_iff_inRange resolved).mp fits⟩
      · rintro ⟨nonzero, width, fits⟩
        obtain ⟨format, resolved⟩ := IntSpec.exists_resolve_iff.mpr width
        exact ⟨_, nonzero, format, resolved, (IntSpec.fits_iff_inRange resolved).mpr fits, rfl⟩

/-! ### Whole descriptions -/

namespace LayoutSpec

/-- **What is asked of a description at its place.** A size needs siblings to refer to; what its
value has to fit is asked of the whole struct. -/
def Accepted (siblings : Option (List FieldSpec)) : LayoutSpec → Prop
  | .derived format expr => format.Supported ∧
      ∃ fields, siblings = some fields ∧ ∀ term ∈ expr, term.operand.RefersIn fields
  | spec => spec.WellFormed

variable {siblings : Option (List FieldSpec)} {spec : LayoutSpec}

theorem accepted_iff_wellFormed (other : ∀ format expr, spec ≠ .derived format expr) :
    spec.Accepted siblings ↔ spec.WellFormed := by
  cases spec with
  | derived format expr => exact absurd rfl (other format expr)
  | _ => exact Iff.rfl

theorem accepted_none : spec.Accepted none ↔ spec.WellFormed := by
  cases spec with
  | derived format expr => exact iff_of_false (by simp [Accepted]) nofun
  | _ => exact Iff.rfl

end LayoutSpec

section Struct

variable {specs : List FieldSpec} {fields : List Field} {order : ByteOrder}

/-- A size field has no fault exactly when the value that the descriptions fix fits it. -/
theorem Field.sizeFault?_eq_none_iff_inRange {spec : FieldSpec} {field : Field}
    (names : (specs.map (·.name)).Nodup)
    (each : List.Forall₂ (Field.CompiledFrom specs order) specs fields)
    (related : Field.CompiledFrom specs order spec field) :
    field.sizeFault? fields = none ↔ ∀ format expr, spec.kind = .derived format expr →
      ∀ value, expr.FixedTo specs value → format.InRange value := by
  rw [Field.sizeFault?_eq_none_iff]
  constructor
  · intro fits described terms kind value fixed
    have compiled := related.2
    simp only [kind, LayoutSpec.compile, bind_eq_ok_iff, pure_eq_ok_iff] at compiled
    obtain ⟨format, resolved, expr, resolves, layout⟩ := compiled
    have found := (SizeExpr.fixedValue?_eq_some_iff names each resolves).mpr fixed
    exact (IntSpec.fits_iff_inRange resolved).mp (fits format expr layout.symm value found)
  · intro fits format expr layout value found
    obtain ⟨described, terms, kind, resolved, resolves⟩ :=
      LayoutSpec.derived_of_compile (layout ▸ related.2)
    have fixed := (SizeExpr.fixedValue?_eq_some_iff names each resolves).mp found
    exact (IntSpec.fits_iff_inRange resolved).mpr (fits described terms kind value fixed)

/-- The members of a struct end at addresses exactly when the described widths say so. -/
theorem beyondLimit?_eq_none_iff_room
    (each : List.Forall₂ (Field.CompiledFrom specs order) specs fields) :
    beyondLimit? 0 fields = none ↔ ∀ front, front <+: specs → ∀ width,
      totalWidth? (front.map (·.kind.width?)) = some width → width < Address.limit := by
  rw [beyondLimit?_eq_none_iff (by decide), fieldWidths_of_compile each]
  simp only [List.prefix_map_iff, Nat.zero_add]
  constructor
  · intro room front inside width total
    exact room _ ⟨front, inside, rfl⟩ width total
  · rintro room _ ⟨front, inside, rfl⟩ width total
    exact room front inside width total

/-- **A struct is accepted** exactly when it is well formed, if each of its members is. -/
theorem exists_assembleStruct_iff {own : Option ByteOrder}
    (members : (specs.map (·.name)).Nodup → ∀ spec ∈ specs,
      ((∃ layout, spec.kind.compile spec.name (some specs) order = .ok layout) ↔
        spec.kind.Accepted (some specs))) :
    (∃ fields, assembleStruct specs (compileFields specs order specs) = .ok fields) ↔
      (LayoutSpec.struct specs own).WellFormed := by
  simp only [assembleStruct_eq_ok_iff, compileFields_eq_ok_iff]
  constructor
  · rintro ⟨fields, ⟨named, names⟩, each, sizes, room⟩
    have accepted : ∀ spec ∈ specs, spec.kind.Accepted (some specs) := fun spec inside => by
      obtain ⟨field, -, -, compiled⟩ := exists_entry_of_mem each.flip inside
      exact (members names spec inside).mp ⟨_, compiled⟩
    refine .struct named names (fun spec inside other => ?_) (fun spec inside format expr kind => ?_)
      ((beyondLimit?_eq_none_iff_room each).mp room)
    · exact (LayoutSpec.accepted_iff_wellFormed other).mp (accepted spec inside)
    · have placed := accepted spec inside
      rw [kind] at placed
      obtain ⟨width, _, same, references⟩ := placed
      cases same
      obtain ⟨field, present, related⟩ := exists_entry_of_mem each.flip inside
      exact ⟨width, references, (Field.sizeFault?_eq_none_iff_inRange names each related).mp
        (sizes field present) format expr kind⟩
  · rintro (_ | _ | _ | ⟨named, names, wellFormed, sizes, room⟩)
    have accepted : ∀ spec ∈ specs, spec.kind.Accepted (some specs) := fun spec inside => by
      by_cases size : ∃ format expr, spec.kind = .derived format expr
      · obtain ⟨format, expr, kind⟩ := size
        have fine := sizes spec inside format expr kind
        rw [kind]
        exact ⟨fine.width, specs, rfl, fine.references⟩
      · have other : ∀ format expr, spec.kind ≠ .derived format expr := by simpa using size
        exact (LayoutSpec.accepted_iff_wellFormed other).mpr (wellFormed spec inside other)
    obtain ⟨fields, each⟩ : ∃ fields, List.Forall₂ (Field.CompiledFrom specs order) specs fields :=
      exists_forall₂ fun spec inside => by
        obtain ⟨layout, compiled⟩ := (members names spec inside).mpr (accepted spec inside)
        exact ⟨⟨spec.name, layout⟩, rfl, compiled⟩
    refine ⟨fields, ⟨named, names⟩, each, fun field present => ?_,
      (beyondLimit?_eq_none_iff_room each).mpr room⟩
    obtain ⟨spec, inside, related⟩ := exists_entry_of_mem each present
    exact (Field.sizeFault?_eq_none_iff_inRange names each related).mpr
      fun format expr kind => (sizes spec inside format expr kind).fits

end Struct

/-- **The variants of a view are accepted** exactly when they are told apart by names and keys and
each payload is accepted. -/
theorem exists_compileVariants_iff {spec : IntSpec} {key : IntFormat} {order : ByteOrder}
    {specs : List VariantSpec} (resolved : spec.resolve order = .ok key)
    (payloads : ∀ variant ∈ specs,
      ((∃ layout, variant.kind.compile variant.name none order = .ok layout) ↔
        variant.kind.WellFormed)) :
    (∃ variants, compileVariants key order [] specs = .ok variants) ↔
      (∀ variant ∈ specs, variant.name ≠ "" ∧ spec.InRange variant.key.toNat) ∧
        (specs.map (·.name)).Nodup ∧ (specs.map (·.key)).Nodup ∧
          ∀ variant ∈ specs, variant.kind.WellFormed := by
  simp only [compileVariants_eq_ok_iff,
    firstFault?_eq_none_iff_nodup VariantSpec.fault?_eq_none_iff,
    ← IntSpec.fits_iff_inRange resolved]
  constructor
  · rintro ⟨variants, ⟨fine, names, keys⟩, each⟩
    refine ⟨fine, names, keys, fun variant inside => ?_⟩
    obtain ⟨_, -, -, -, compiled⟩ := exists_entry_of_mem each.flip inside
    exact (payloads variant inside).mp ⟨_, compiled⟩
  · rintro ⟨fine, names, keys, wellFormed⟩
    obtain ⟨variants, each⟩ : ∃ variants, List.Forall₂ (Variant.CompiledFrom order) specs variants :=
      exists_forall₂ fun variant inside => by
        obtain ⟨layout, compiled⟩ := (payloads variant inside).mpr (wellFormed variant inside)
        exact ⟨⟨variant.name, variant.key, layout⟩, rfl, rfl, compiled⟩
    exact ⟨variants, ⟨fine, names, keys⟩, each⟩

/-- **An array is accepted** exactly when it is well formed, if its elements are. -/
theorem LayoutSpec.exists_compile_array_iff {element : LayoutSpec} {length : ArrayLength IntSpec}
    {name : String} {siblings : Option (List FieldSpec)} {order : ByteOrder}
    (elements : (∃ layout, element.compile name none order = .ok layout) ↔ element.WellFormed) :
    (∃ layout, (LayoutSpec.array element length).compile name siblings order = .ok layout) ↔
      (LayoutSpec.array element length).WellFormed := by
  simp only [LayoutSpec.compile, bind_eq_ok_iff, raise_eq_ok_iff, pure_eq_ok_iff,
    Layout.sizeFault?_eq_none_iff]
  constructor
  · rintro ⟨_, count, counts, layout, found, _, room, rfl⟩
    rw [LayoutSpec.width?_array counts (LayoutSpec.width?_of_compile found)] at room
    exact .array (ArrayLength.exists_compile_iff.mp ⟨count, counts⟩) (elements.mp ⟨layout, found⟩)
      room
  · intro wellFormed
    cases wellFormed with
    | array counts inner room =>
        obtain ⟨count, counts⟩ := ArrayLength.exists_compile_iff.mpr counts
        obtain ⟨layout, found⟩ := elements.mpr inner
        rw [← LayoutSpec.width?_array counts (LayoutSpec.width?_of_compile found)] at room
        exact ⟨_, count, counts, layout, found, (), room, rfl⟩

/-- **A view is accepted** exactly when it is well formed, if each of its payloads is. -/
theorem LayoutSpec.exists_compile_view_iff {key : IntSpec} {variants : List VariantSpec}
    {name : String} {siblings : Option (List FieldSpec)} {order : ByteOrder}
    (payloads : ∀ variant ∈ variants,
      ((∃ layout, variant.kind.compile variant.name none order = .ok layout) ↔
        variant.kind.WellFormed)) :
    (∃ layout, (LayoutSpec.view key variants).compile name siblings order = .ok layout) ↔
      (LayoutSpec.view key variants).WellFormed := by
  simp only [compile_view_eq_ok_iff, Layout.sizeFault?_eq_none_iff]
  constructor
  · rintro ⟨_, nonempty, format, layouts, resolved, found, room, rfl⟩
    have each := (compileVariants_eq_ok_iff.mp found).2
    rw [LayoutSpec.width?_view resolved each fun _ _ _ => LayoutSpec.width?_of_compile] at room
    obtain ⟨fine, names, keys, wellFormed⟩ :=
      (exists_compileVariants_iff resolved payloads).mp ⟨layouts, found⟩
    exact .view nonempty (IntSpec.exists_resolve_iff.mp ⟨format, resolved⟩)
      (fun variant inside => (fine variant inside).1) names keys
      (fun variant inside => (fine variant inside).2) wellFormed room
  · intro wellFormed
    cases wellFormed with
    | view nonempty width named names keys fits wellFormed room =>
        obtain ⟨format, resolved⟩ := IntSpec.exists_resolve_iff.mpr width
        obtain ⟨layouts, found⟩ := (exists_compileVariants_iff resolved payloads).mpr
          ⟨fun variant inside => ⟨named variant inside, fits variant inside⟩, names, keys,
            wellFormed⟩
        have each := (compileVariants_eq_ok_iff.mp found).2
        rw [← LayoutSpec.width?_view resolved each fun _ _ _ => LayoutSpec.width?_of_compile]
          at room
        exact ⟨_, nonempty, format, layouts, resolved, found, room, rfl⟩

/-- **A description is accepted at its place** exactly when it satisfies what is asked there. -/
theorem LayoutSpec.exists_compile_iff {spec : LayoutSpec} {name : String}
    {siblings : Option (List FieldSpec)} {order : ByteOrder}
    (names : ∀ fields, siblings = some fields → (fields.map (·.name)).Nodup) :
    (∃ layout, spec.compile name siblings order = .ok layout) ↔ spec.Accepted siblings := by
  have none_names : ∀ fields, (none : Option (List FieldSpec)) = some fields →
      (fields.map (·.name)).Nodup := nofun
  induction spec generalizing name siblings order with
  | int spec =>
      rw [LayoutSpec.compile, exists_bind_pure_iff, IntSpec.exists_resolve_iff]
      exact ⟨.int, fun wellFormed => by cases wellFormed; assumption⟩
  | enum spec =>
      rw [LayoutSpec.compile, exists_bind_pure_iff, EnumSpec.exists_compile_iff]
      exact ⟨.enum, fun wellFormed => by cases wellFormed; assumption⟩
  | mask spec =>
      rw [LayoutSpec.compile, exists_bind_pure_iff, MaskSpec.exists_compile_iff]
      exact ⟨.mask, fun wellFormed => by cases wellFormed; assumption⟩
  | struct fields own ih =>
      rw [LayoutSpec.compile, exists_bind_pure_iff]
      refine exists_assembleStruct_iff fun names spec inside => ih spec inside ?_
      intro others same
      exact Option.some.inj same ▸ names
  | array element length ih =>
      exact exists_compile_array_iff ((ih none_names).trans LayoutSpec.accepted_none)
  | view key variants ih =>
      exact exists_compile_view_iff fun variant inside =>
        (ih variant inside none_names).trans LayoutSpec.accepted_none
  | constant described value =>
      simp only [LayoutSpec.compile, bind_eq_ok_iff, guard_eq_ok_iff, pure_eq_ok_iff,
        Bool.not_eq_true, Bool.not_eq_false']
      constructor
      · rintro ⟨_, format, resolved, fits, rfl⟩
        exact .constant (IntSpec.exists_resolve_iff.mp ⟨format, resolved⟩)
          ((IntSpec.fits_iff_inRange resolved).mp fits)
      · intro wellFormed
        cases wellFormed with
        | constant width fits =>
            obtain ⟨format, resolved⟩ := IntSpec.exists_resolve_iff.mpr width
            exact ⟨_, format, resolved, (IntSpec.fits_iff_inRange resolved).mpr fits, rfl⟩
  | derived described terms =>
      cases siblings with
      | none => exact iff_of_false (by simp [LayoutSpec.compile]) (by simp [LayoutSpec.Accepted])
      | some fields =>
          simp only [LayoutSpec.compile, bind_eq_ok_iff, pure_eq_ok_iff, LayoutSpec.Accepted,
            ← @IntSpec.exists_resolve_iff described order, Option.some.injEq, exists_eq_left',
            ← SizeExpr.exists_resolve_iff (names fields rfl)]
          constructor
          · rintro ⟨_, format, resolved, expr, resolves, rfl⟩
            exact ⟨⟨format, resolved⟩, expr, resolves⟩
          · rintro ⟨⟨format, resolved⟩, expr, resolves⟩
            exact ⟨_, format, resolved, expr, resolves, rfl⟩

/-- **Compiling accepts exactly the well-formed records**, in either byte order. -/
theorem Schema.accepts_iff_wellFormed (specs : List FieldSpec) (order : ByteOrder) :
    (∃ schema, Schema.compile specs order = .ok schema) ↔
      (LayoutSpec.struct specs none).WellFormed := by
  rw [Schema.compile, exists_bind_pure_iff, compileStruct]
  refine exists_assembleStruct_iff fun names spec _ => LayoutSpec.exists_compile_iff ?_
  intro fields same
  exact Option.some.inj same ▸ names

end RecordLayout
