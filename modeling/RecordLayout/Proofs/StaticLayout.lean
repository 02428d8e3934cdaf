/-
**The static layout is exact and does not wrap.**

Widths and offsets are computed on 64-bit words without a check, over and over again. A compiled
layout has been checked once, at each of its levels (`Layout.Fits`), and that is enough: the
computation does not overflow, and its outcome is the width in natural numbers.

* `Layout.AllFit`: the sizes have been checked, for the layout and its parts at any depth.
* `LayoutSpec.fits_of_compile`: compiling has checked them.
* `Machine.fixedWidth_eq`, `Machine.staticOffsets_eq`: the computation on words.
* `Layout.width?_eq_some_iff`, `Layout.width?_eq_none_iff`: a fixed width is the sum of its parts,
  and a width is not fixed because of a part whose length varies.
* `Schema.staticLayout_exact`: all of it, for every part of a compiled record.
-/

import RecordLayout.Proofs.Machine
import RecordLayout.Proofs.SizeReferences

namespace RecordLayout

/-! ### Sizes at every level -/

namespace Layout

/-- **What compiling checks of the sizes of one level.** The members of a struct that have a known
offset end at an address, and so do arrays and views of fixed width. -/
def Fits : Layout → Prop
  | .struct fields => ∀ front, front <+: fieldWidths fields → ∀ width,
      totalWidth? front = some width → width < Address.limit
  | .array element length => ∀ width, (Layout.array element length).width? = some width →
      width < Address.limit
  | .view key variants => variants ≠ [] ∧ ∀ width,
      (Layout.view key variants).width? = some width → width < Address.limit
  | _ => True

/-- The sizes have been checked at every level. -/
def AllFit (layout : Layout) : Prop := ∀ part, layout.Contains part → part.Fits

theorem AllFit.fits {layout : Layout} (all : layout.AllFit) : layout.Fits := all layout (.refl _)

theorem AllFit.part {layout part : Layout} (all : layout.AllFit) (inside : layout.Contains part) :
    part.AllFit :=
  fun inner within => all inner (inside.trans within)

theorem AllFit.member {fields : List Field} {field : Field} (all : (Layout.struct fields).AllFit)
    (inside : field ∈ fields) : field.layout.AllFit :=
  all.part (.member inside (.refl _))

theorem AllFit.element {inner : Layout} {length : ArrayLength IntFormat}
    (all : (Layout.array inner length).AllFit) : inner.AllFit :=
  all.part (.element (.refl _))

theorem AllFit.payload {key : IntFormat} {variants : List Variant} {variant : Variant}
    (all : (Layout.view key variants).AllFit) (inside : variant ∈ variants) :
    variant.layout.AllFit :=
  all.part (.payload inside (.refl _))

end Layout

/-! ### What compiling checks -/

/-- A struct fits when its members do. -/
theorem Layout.AllFit.of_assembleStruct {specs : List FieldSpec} {order : ByteOrder}
    {fields : List Field}
    (assembled : assembleStruct specs (compileFields specs order specs) = .ok fields)
    (members : ∀ spec ∈ specs, ∀ name siblings order layout,
      spec.kind.compile name siblings order = .ok layout → layout.AllFit) :
    (Layout.struct fields).AllFit := by
  obtain ⟨-, compiled, -, room⟩ := assembleStruct_eq_ok_iff.mp assembled
  intro part inside
  cases inside with
  | refl =>
      have ends := (beyondLimit?_eq_none_iff (by decide)).mp room
      simpa only [Layout.Fits, Nat.zero_add] using ends
  | member inside rest =>
      obtain ⟨spec, described, related⟩ :=
        exists_entry_of_mem (compileFields_eq_ok_iff.mp compiled) inside
      exact members spec described _ _ _ _ related.2 part rest

/-- **Compiling checks the sizes at every level.** -/
theorem LayoutSpec.fits_of_compile {spec : LayoutSpec} {name : String}
    {siblings : Option (List FieldSpec)} {order : ByteOrder} {layout : Layout}
    (compiled : spec.compile name siblings order = .ok layout) : layout.AllFit := by
  induction spec generalizing name siblings order layout with
  | int spec | enum spec | mask spec =>
      simp only [LayoutSpec.compile, bind_eq_ok_iff, pure_eq_ok_iff] at compiled
      obtain ⟨_, -, rfl⟩ := compiled
      intro part inside
      cases inside
      trivial
  | constant format value =>
      simp only [LayoutSpec.compile, bind_eq_ok_iff, guard_eq_ok_iff, pure_eq_ok_iff] at compiled
      obtain ⟨format, -, -, rfl⟩ := compiled
      intro part inside
      cases inside
      trivial
  | struct fields own ih =>
      simp only [LayoutSpec.compile, bind_eq_ok_iff, pure_eq_ok_iff] at compiled
      obtain ⟨members, assembled, rfl⟩ := compiled
      exact .of_assembleStruct assembled fun spec inside _ _ _ _ => ih spec inside
  | array element length ih =>
      simp only [LayoutSpec.compile, bind_eq_ok_iff, raise_eq_ok_iff, pure_eq_ok_iff] at compiled
      obtain ⟨count, -, inner, found, _, room, rfl⟩ := compiled
      intro part inside
      cases inside with
      | refl => exact Layout.sizeFault?_eq_none_iff.mp room
      | element rest => exact ih found part rest
  | view key variants ih =>
      obtain ⟨nonempty, format, layouts, -, found, room, rfl⟩ := compile_view_eq_ok_iff.mp compiled
      have each := (compileVariants_eq_ok_iff.mp found).2
      intro part inside
      cases inside with
      | refl =>
          refine ⟨fun empty => nonempty ?_, Layout.sizeFault?_eq_none_iff.mp room⟩
          rw [empty] at each
          exact List.forall₂_nil_right_iff.mp each
      | payload inside rest =>
          obtain ⟨spec, described, -, -, found⟩ := exists_entry_of_mem each inside
          exact ih spec described found part rest
  | derived format expr =>
      cases siblings with
      | none => cases compiled
      | some siblings =>
          simp only [LayoutSpec.compile, bind_eq_ok_iff, pure_eq_ok_iff] at compiled
          obtain ⟨format, -, expr, -, rfl⟩ := compiled
          intro part inside
          cases inside
          trivial

/-- The sizes of a compiled record have been checked at every level. -/
theorem Schema.fits_of_compile {specs : List FieldSpec} {order : ByteOrder} {schema : Schema}
    (compiled : Schema.compile specs order = .ok schema) : schema.root.AllFit := by
  simp only [Schema.compile, compileStruct, bind_eq_ok_iff, pure_eq_ok_iff] at compiled
  obtain ⟨fields, assembled, rfl⟩ := compiled
  exact .of_assembleStruct assembled fun _ _ _ _ _ _ => LayoutSpec.fits_of_compile

/-! ### Widths on machine words -/

namespace Machine

theorem add_eq {first second : Nat} (room : first + second < Address.limit) :
    add first second = .ok (first + second) :=
  if_pos room

theorem mul_eq {first second : Nat} (room : first * second < Address.limit) :
    mul first second = .ok (first * second) :=
  if_pos room

theorem behindFixed_eq {offset width : Option Nat}
    (room : ∀ total, (do return (← offset) + (← width)) = some total → total < Address.limit) :
    behindFixed offset width = .ok (do return (← offset) + (← width)) := by
  cases offset with
  | none => rfl
  | some offset =>
      cases width with
      | none => rfl
      | some width =>
          rw [behindFixed, add_eq (room _ rfl)]
          rfl

theorem timesFixed_eq {width : Option Nat} {count : Nat}
    (room : ∀ total, width.map (· * count) = some total → total < Address.limit) :
    timesFixed count width = .ok (width.map (· * count)) := by
  cases width with
  | none => rfl
  | some width =>
      rw [timesFixed, mul_eq (room _ rfl)]
      rfl

/-- **Offsets add up without overflow** when every run of known widths from the front ends at an
address. -/
theorem offsets_eq {next : Option Nat} {widths : List (Option Nat)}
    (room : ∀ front, front <+: widths → ∀ total,
      (do return (← next) + (← totalWidth? front)) = some total → total < Address.limit) :
    offsets next widths =
      .ok (offsetsFrom next widths, do return (← next) + (← totalWidth? widths)) := by
  induction widths generalizing next with
  | nil => cases next <;> rfl
  | cons width rest ih =>
      have regroup (front : List (Option Nat)) :
          (do return (← next) + (← totalWidth? (width :: front)) : Option Nat) =
            do return (← (do return (← next) + (← width) : Option Nat)) + (← totalWidth? front) := by
        rw [totalWidth?_cons]
        cases next <;> cases width <;> cases totalWidth? front <;> simp [Nat.add_assoc]
      have here : behindFixed next width = .ok (do return (← next) + (← width)) := by
        refine behindFixed_eq fun total sum => room [width] (by simp) total ?_
        rw [regroup, sum]
        rfl
      have later := @ih (do return (← next) + (← width)) fun front inside total sum => by
        refine room (width :: front) (List.cons_prefix_cons.mpr ⟨rfl, inside⟩) total ?_
        rw [regroup, sum]
      rw [offsets, here, ok_bind, later, ok_bind, offsetsFrom, regroup]
      rfl

theorem memberWidths_eq {fields : List Field}
    (members : ∀ field ∈ fields, fixedWidth field.layout = .ok field.layout.width?) :
    memberWidths fields = .ok (fieldWidths fields) := by
  induction fields with
  | nil => rfl
  | cons field rest ih =>
      obtain ⟨name, layout⟩ := field
      rw [List.forall_mem_cons] at members
      rw [memberWidths, members.1, ok_bind, ih members.2]
      rfl

theorem payloadWidths_eq {variants : List Variant}
    (payloads : ∀ variant ∈ variants, fixedWidth variant.layout = .ok variant.layout.width?) :
    payloadWidths variants = .ok (variantWidths variants) := by
  induction variants with
  | nil => rfl
  | cons variant rest ih =>
      obtain ⟨name, key, layout⟩ := variant
      rw [List.forall_mem_cons] at payloads
      rw [payloadWidths, payloads.1, ok_bind, ih payloads.2]
      rfl

/-- Members of fixed width add up without overflow. -/
theorem staticOffsets_of_members {fields : List Field} (fits : (Layout.struct fields).Fits)
    (members : ∀ field ∈ fields, fixedWidth field.layout = .ok field.layout.width?) :
    staticOffsets fields = .ok (knownOffsets fields, (Layout.struct fields).width?) := by
  have zero (widths : List (Option Nat)) :
      (do return (← some 0) + (← totalWidth? widths) : Option Nat) = totalWidth? widths := by
    cases totalWidth? widths <;> simp
  rw [staticOffsets, memberWidths_eq members, ok_bind, offsets_eq, zero]
  · rfl
  · intro front inside total sum
    rw [zero] at sum
    exact fits front inside total sum

/-- **Widths on machine words are widths.** -/
theorem fixedWidth_eq {layout : Layout} (all : layout.AllFit) :
    fixedWidth layout = .ok layout.width? := by
  induction layout with
  | int format | enum enumeration | mask mask | constant format value | derived format expr => rfl
  | struct fields ih =>
      have members := staticOffsets_of_members all.fits fun field inside =>
        ih field inside (all.member inside)
      have width : fixedWidth (.struct fields) = do return (← staticOffsets fields).2 := by
        rw [fixedWidth, staticOffsets, bind_assoc]
      rw [width, members]
      rfl
  | array element length ih =>
      cases length with
      | bounded capacity counter => rfl
      | fixed count =>
          rw [fixedWidth, ih all.element, ok_bind, timesFixed_eq all.fits]
          rfl
  | view key variants ih =>
      have common : fixedWidth (.view key variants) =
          behindFixed (some key.bytes) (commonWidth? (variantWidths variants)) := by
        rw [fixedWidth, payloadWidths_eq fun variant inside => ih variant inside (all.payload inside)]
        rfl
      have sum : (do return (← some key.bytes) + (← commonWidth? (variantWidths variants)) :
          Option Nat) = (Layout.view key variants).width? := by
        rw [Layout.width?]
        cases commonWidth? (variantWidths variants) <;> rfl
      rw [common, behindFixed_eq, sum]
      rw [sum]
      exact all.fits.2

/-- **Offsets on machine words are offsets.** -/
theorem staticOffsets_eq {fields : List Field} (all : (Layout.struct fields).AllFit) :
    staticOffsets fields = .ok (knownOffsets fields, (Layout.struct fields).width?) :=
  staticOffsets_of_members all.fits fun _ inside => fixedWidth_eq (all.member inside)

end Machine

/-! ### Widths that are not fixed -/

/-- The total of fixed widths is their sum. -/
theorem totalWidth?_eq_some_iff {widths : List (Option Nat)} {total : Nat} :
    totalWidth? widths = some total ↔ ∃ sizes : List Nat, widths = sizes.map some ∧
      sizes.sum = total := by
  induction widths generalizing total with
  | nil =>
      constructor
      · intro none
        exact ⟨[], rfl, Option.some.inj none⟩
      · rintro ⟨sizes, same, rfl⟩
        rw [List.map_eq_nil_iff.mp same.symm]
        rfl
  | cons width rest ih =>
      rw [totalWidth?_cons_eq_some]
      constructor
      · rintro ⟨first, rfl, others, found, rfl⟩
        obtain ⟨sizes, rfl, rfl⟩ := ih.mp found
        exact ⟨first :: sizes, rfl, rfl⟩
      · rintro ⟨sizes, same, rfl⟩
        cases sizes with
        | nil => cases same
        | cons first sizes =>
            obtain ⟨rfl, rfl⟩ := List.cons.inj same
            exact ⟨first, rfl, sizes.sum, ih.mpr ⟨sizes, rfl, rfl⟩, rfl⟩

theorem totalWidth?_eq_none_iff {widths : List (Option Nat)} :
    totalWidth? widths = none ↔ none ∈ widths := by
  induction widths with
  | nil => simp [totalWidth?]
  | cons width rest ih =>
      rw [totalWidth?_cons, List.mem_cons, ← ih]
      cases width <;> cases totalWidth? rest <;> simp

namespace Layout

/-- **The width of a layout in natural numbers**: members add up, elements multiply, and a view has
a width when all its variants have one and the same. -/
inductive Occupies : Layout → Nat → Prop where
  | int (format : IntFormat) : Occupies (.int format) format.bytes
  | enum (enumeration : Enumeration) : Occupies (.enum enumeration) enumeration.format.bytes
  | mask (mask : Mask) : Occupies (.mask mask) mask.width
  | struct {fields : List Field} {sizes : Field → Nat}
      (members : ∀ field ∈ fields, Occupies field.layout (sizes field)) :
      Occupies (.struct fields) (fields.map sizes).sum
  | array {element : Layout} {count : UInt64} {width : Nat} (elements : Occupies element width) :
      Occupies (.array element (.fixed count)) (width * count.toNat)
  | view {key : IntFormat} {variants : List Variant} {width : Nat} (nonempty : variants ≠ [])
      (payloads : ∀ variant ∈ variants, Occupies variant.layout width) :
      Occupies (.view key variants) (key.bytes + width)
  | constant (format : IntFormat) (value : UInt64) : Occupies (.constant format value) format.bytes
  | derived (format : IntFormat) (expr : SizeExpr Nat) : Occupies (.derived format expr) format.bytes

/-- Variants of one width have a common width. -/
theorem commonWidth?_variants {variants : List Variant} {width : Nat} (nonempty : variants ≠ [])
    (same : ∀ variant ∈ variants, variant.layout.width? = some width) :
    commonWidth? (variantWidths variants) = some width := by
  rw [variantWidths_eq_map]
  cases variants with
  | nil => exact absurd rfl nonempty
  | cons first rest =>
      rw [List.forall_mem_cons] at same
      rw [List.map_cons, same.1, commonWidth?, if_pos]
      rw [List.all_map, List.all_eq_true]
      exact fun variant inside => beq_iff_eq.mpr (same.2 variant inside)

/-- **A fixed width is the width.** -/
theorem width?_eq_some_iff {layout : Layout} {width : Nat} :
    layout.width? = some width ↔ layout.Occupies width := by
  constructor
  · intro fixed
    induction layout generalizing width with
    | int format | enum enumeration | mask mask | constant format value | derived format expr =>
        cases fixed
        constructor
    | struct fields ih =>
        rw [Layout.width?, fieldWidths_eq_map, totalWidth?_eq_some_iff] at fixed
        obtain ⟨sizes, widths, rfl⟩ := fixed
        have each : ∀ field ∈ fields, field.layout.width? = some (field.layout.width?.getD 0) := by
          intro field inside
          have member : field.layout.width? ∈ sizes.map some :=
            widths ▸ List.mem_map_of_mem inside
          obtain ⟨size, -, known⟩ := List.mem_map.mp member
          rw [← known]
          rfl
        have sum : sizes = fields.map (·.layout.width?.getD 0) := by
          have dropped := congrArg (List.map (·.getD 0)) widths
          rw [List.map_map, List.map_map] at dropped
          exact (dropped.trans (List.map_id _)).symm
        rw [sum]
        exact .struct fun field inside => ih field inside (each field inside)
    | array element length ih =>
        cases length with
        | bounded capacity counter => cases fixed
        | fixed count =>
            obtain ⟨single, known, rfl⟩ := Option.map_eq_some_iff.mp fixed
            exact .array (ih known)
    | view key variants ih =>
        obtain ⟨common, known, rfl⟩ := Option.map_eq_some_iff.mp fixed
        have nonempty : variants ≠ [] := by
          rintro rfl
          cases known
        rw [variantWidths_eq_map] at known
        refine .view nonempty fun variant inside => ih variant inside ?_
        exact commonWidth?_eq_some known _ (List.mem_map_of_mem inside)
  · intro occupies
    induction occupies with
    | int | enum | mask | constant | derived => rfl
    | @struct fields sizes _ ih =>
        rw [Layout.width?, fieldWidths_eq_map, totalWidth?_eq_some_iff]
        refine ⟨fields.map sizes, ?_, rfl⟩
        rw [List.map_map]
        exact List.map_congr_left ih
    | array _ ih =>
        rw [Layout.width?, ih]
        rfl
    | view nonempty _ ih =>
        rw [Layout.width?, commonWidth?_variants nonempty ih]
        rfl

/-- The length of a value depends on what is stored: a bounded array, or a view whose variants do
not all have one fixed width. -/
def Varies : Layout → Prop
  | .array _ (.bounded _ _) => True
  | .view _ variants => ¬∃ width, ∀ variant ∈ variants, variant.layout.width? = some width
  | _ => False

theorem payloadWidth_eq_none_of_mem {variants : List Variant} {variant : Variant}
    (inside : variant ∈ variants) (unknown : variant.layout.width? = none) :
    commonWidth? (variantWidths variants) = none := by
  cases common : commonWidth? (variantWidths variants) with
  | none => rfl
  | some width =>
      rw [variantWidths_eq_map] at common
      rw [commonWidth?_eq_some common _ (List.mem_map_of_mem inside)] at unknown
      cases unknown

theorem width?_of_varies {layout : Layout} (varies : layout.Varies) : layout.width? = none := by
  cases layout with
  | array element length =>
      cases length with
      | fixed count => cases varies
      | bounded capacity counter => rfl
  | view key variants =>
      rw [Layout.width?, Option.map_eq_none_iff]
      cases common : commonWidth? (variantWidths variants) with
      | none => rfl
      | some width =>
          rw [variantWidths_eq_map] at common
          exact absurd ⟨width, fun variant inside => commonWidth?_eq_some common _
            (List.mem_map_of_mem inside)⟩ varies
  | _ => cases varies

/-- A part without a fixed width leaves the whole without one. -/
theorem width?_of_contains {layout part : Layout} (inside : layout.Contains part)
    (unknown : part.width? = none) : layout.width? = none := by
  induction inside with
  | refl => exact unknown
  | member inside _ ih =>
      rw [Layout.width?, fieldWidths_eq_map, totalWidth?_eq_none_iff, ← ih unknown]
      exact List.mem_map_of_mem inside
  | @element _ length _ _ ih =>
      cases length with
      | fixed count => rw [Layout.width?, ih unknown, Option.map_none]
      | bounded capacity counter => rfl
  | payload inside _ ih =>
      rw [Layout.width?, payloadWidth_eq_none_of_mem inside (ih unknown), Option.map_none]

/-- **A width is not fixed** exactly when there is a part whose length varies. -/
theorem width?_eq_none_iff {layout : Layout} (all : layout.AllFit) :
    layout.width? = none ↔ ∃ part, layout.Contains part ∧ part.Varies := by
  constructor
  · intro unknown
    induction layout with
    | int format | enum enumeration | mask mask | constant format value | derived format expr =>
        cases unknown
    | struct fields ih =>
        rw [Layout.width?, fieldWidths_eq_map, totalWidth?_eq_none_iff] at unknown
        obtain ⟨field, inside, unknown⟩ := List.mem_map.mp unknown
        obtain ⟨part, within, varies⟩ := ih field inside (all.member inside) unknown
        exact ⟨part, .member inside within, varies⟩
    | array element length ih =>
        cases length with
        | bounded capacity counter => exact ⟨_, .refl _, trivial⟩
        | fixed count =>
            obtain ⟨part, within, varies⟩ := ih all.element (Option.map_eq_none_iff.mp unknown)
            exact ⟨part, .element within, varies⟩
    | view key variants ih =>
        refine ⟨_, .refl _, ?_⟩
        rintro ⟨width, same⟩
        rw [Layout.width?, commonWidth?_variants all.fits.1 same] at unknown
        cases unknown
  · rintro ⟨part, inside, varies⟩
    exact width?_of_contains inside (width?_of_varies varies)

end Layout

/-! ### Compiled records -/

/-- **The static layout of a compiled record is exact and does not wrap**, for the record and every
part of it: the width computed on machine words is the width, and it is missing only for the sake of
a part whose length varies; there is an offset for each member of a struct, the sum of the widths
before it while these are fixed; and the width of a struct is the sum of the widths of its members
while these are fixed. -/
theorem Schema.staticLayout_exact {specs : List FieldSpec} {order : ByteOrder} {schema : Schema}
    (compiled : Schema.compile specs order = .ok schema) {part : Layout}
    (inside : schema.root.Contains part) :
    Machine.fixedWidth part = .ok part.width? ∧
      (∀ width, part.width? = some width ↔ part.Occupies width) ∧
      (part.width? = none ↔ ∃ inner, part.Contains inner ∧ inner.Varies) ∧
      ∀ fields, part = .struct fields →
        Machine.staticOffsets fields = .ok (knownOffsets fields, part.width?) ∧
        (knownOffsets fields).length = fields.length ∧
        (∀ index < fields.length, ∀ offset,
          (knownOffsets fields)[index]? = some (some offset) ↔ ∃ sizes : List Nat,
            (fields.take index).map (·.layout.width?) = sizes.map some ∧ sizes.sum = offset) ∧
        ∀ total, part.width? = some total ↔ ∃ sizes : List Nat,
          fields.map (·.layout.width?) = sizes.map some ∧ sizes.sum = total := by
  have all : part.AllFit := (Schema.fits_of_compile compiled).part inside
  refine ⟨Machine.fixedWidth_eq all, fun _ => Layout.width?_eq_some_iff,
    Layout.width?_eq_none_iff all, ?_⟩
  rintro fields rfl
  refine ⟨Machine.staticOffsets_eq all, ?_, fun index within offset => ?_, fun total => ?_⟩
  · rw [knownOffsets, length_offsetsFrom, fieldWidths_eq_map, List.length_map]
  · rw [getElem?_knownOffsets within, Option.some_inj, totalWidth?_eq_some_iff, fieldWidths_eq_map]
  · rw [Layout.width?, totalWidth?_eq_some_iff, fieldWidths_eq_map]

theorem Schema.staticLayout_exact_samplePacket :
    Schema.compile samplePacket .big = .ok sampleSchema ∧
      sampleSchema.root.Contains sampleSchema.root ∧
      Machine.fixedWidth sampleSchema.root = .ok none ∧
      Machine.staticOffsets sampleSchema.fields =
        .ok ([some 0, some 2, some 3, some 4, none], none) := by
  have inside : sampleSchema.root.Contains sampleSchema.root := .refl _
  obtain ⟨width, -, -, struct⟩ := Schema.staticLayout_exact compile_samplePacket inside
  obtain ⟨offsets, -⟩ := struct sampleSchema.fields rfl
  exact ⟨compile_samplePacket, inside, width, offsets⟩

end RecordLayout
