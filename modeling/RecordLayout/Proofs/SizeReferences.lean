/-
**Sizes that a description fixes.**

A size expression is checked against the layouts of its siblings. What the check finds can be read
off the descriptions: compiling keeps widths (`LayoutSpec.width?_of_compile`), constants and fixed
counts, and since siblings have distinct names an index stands for a name.

* `IntSpec.resolve_eq_ok_iff`, `IntSpec.fits_iff_inRange`: what settling an integer keeps.
* `Operand.exists_resolve_iff`: references resolve exactly when they are to siblings that have the
  quantity asked for.
* `SizeExpr.fixedValue?_eq_some_iff`: the value found in the layouts is the one that the descriptions
  fix.
-/

import RecordLayout.Proofs.IntegerCodec
import RecordLayout.Proofs.ValidLayout
import RecordLayout.Proofs.Walk
import RecordLayout.Proofs.WellFormed

namespace RecordLayout

/-! ### Integers -/

theorem IntWidth.ofBytes?_eq_some_iff {bytes : UInt64} {width : IntWidth} :
    IntWidth.ofBytes? bytes = some width ↔ bytes.toNat = width.bytes := by
  unfold IntWidth.ofBytes?
  simp only [← UInt64.toNat_inj, UInt64.toNat_ofNat]
  cases width <;> simp only [IntWidth.bytes] <;> split_ifs <;> simp <;> omega

namespace IntSpec

variable {spec : IntSpec} {format : IntFormat} {order : ByteOrder}

theorem resolve_eq_ok_iff :
    spec.resolve order = .ok format ↔
      spec.width.toNat = format.bytes ∧ format.signed = spec.signed ∧
        format.order = spec.order.getD order := by
  obtain ⟨width, signed, own⟩ := format
  unfold IntSpec.resolve
  cases found : IntWidth.ofBytes? spec.width with
  | none =>
      refine iff_of_false (by simp) fun settled => ?_
      rw [IntWidth.ofBytes?_eq_some_iff.mpr settled.1] at found
      cases found
  | some named =>
      rw [IntWidth.ofBytes?_eq_some_iff] at found
      have same : spec.width.toNat = width.bytes ↔ named = width := by
        rw [found]
        cases named <;> cases width <;> decide
      simp only [Except.ok.injEq, IntFormat.mk.injEq, IntFormat.bytes, same]
      simp only [eq_comm]

/-- **The supported widths** are those that an integer can be settled with. -/
theorem exists_resolve_iff : (∃ format, spec.resolve order = .ok format) ↔ spec.Supported := by
  have widths : spec.Supported ↔ ∃ width : IntWidth, spec.width.toNat = width.bytes := by
    simp only [Supported, List.mem_cons, List.not_mem_nil, or_false, ← UInt64.toNat_inj,
      UInt64.toNat_ofNat]
    constructor
    · rintro (is | is | is | is | is)
      exacts [⟨.one, is⟩, ⟨.two, is⟩, ⟨.three, is⟩, ⟨.four, is⟩, ⟨.eight, is⟩]
    · rintro ⟨width, is⟩
      rw [is]
      cases width <;> decide
  rw [widths]
  constructor
  · rintro ⟨format, resolved⟩
    exact ⟨format.width, (resolve_eq_ok_iff.mp resolved).1⟩
  · rintro ⟨width, is⟩
    exact ⟨⟨width, spec.signed, spec.order.getD order⟩, resolve_eq_ok_iff.mpr ⟨is, rfl, rfl⟩⟩

/-- **The numbers that fit** are the same before and after settling an integer. -/
theorem fits_iff_inRange (resolved : spec.resolve order = .ok format) {value : Int} :
    format.fits value ↔ spec.InRange value := by
  obtain ⟨width, signed, -⟩ := resolve_eq_ok_iff.mp resolved
  rw [IntFormat.fits_iff, IntSpec.InRange, IntFormat.min, IntFormat.max, signed, width,
    IntWidth.size_eq, IntFormat.bytes, IntWidth.bits]
  have half : ((2 ^ (8 * format.width.bytes) : Nat) : Int) / 2 = 2 ^ (8 * format.width.bytes - 1) := by
    cases format.width <;> decide
  have whole : ((2 ^ (8 * format.width.bytes) : Nat) : Int) = 2 ^ (8 * format.width.bytes) := by
    push_cast
    rfl
  rw [half, whole]
  split <;> omega

end IntSpec

/-! ### Widths -/

theorem LayoutSpec.width?_array {element : LayoutSpec} {layout : Layout}
    {length : ArrayLength IntSpec} {count : ArrayLength IntFormat} {name : String}
    {order : ByteOrder} (counts : length.compile name order = .ok count)
    (same : layout.width? = element.width?) :
    (Layout.array layout count).width? = (LayoutSpec.array element length).width? := by
  cases length with
  | fixed described =>
      simp only [ArrayLength.compile, guard_eq_ok_iff, pure_eq_ok_iff] at counts
      obtain ⟨-, rfl⟩ := counts
      rw [Layout.width?, LayoutSpec.width?, same]
  | bounded capacity counter =>
      simp only [ArrayLength.compile, guard_eq_ok_iff, bind_eq_ok_iff, pure_eq_ok_iff] at counts
      obtain ⟨-, format, -, -, rfl⟩ := counts
      rfl

theorem LayoutSpec.width?_view {key : IntSpec} {format : IntFormat} {specs : List VariantSpec}
    {variants : List Variant} {order : ByteOrder} (resolved : key.resolve order = .ok format)
    (each : List.Forall₂ (Variant.CompiledFrom order) specs variants)
    (same : ∀ spec ∈ specs, ∀ layout, spec.kind.compile spec.name none order = .ok layout →
      layout.width? = spec.kind.width?) :
    (Layout.view format variants).width? = (LayoutSpec.view key specs).width? := by
  rw [Layout.width?, LayoutSpec.width?, variantWidths_eq_map, payloadWidths_eq_map,
    map_eq_of_forall₂ each fun spec inside variant related => same spec inside _ related.2.2,
    (IntSpec.resolve_eq_ok_iff.mp resolved).1]

/-- A described width is the width of the layout. -/
theorem LayoutSpec.width?_of_compile {spec : LayoutSpec} {name : String}
    {siblings : Option (List FieldSpec)} {order : ByteOrder} {layout : Layout}
    (compiled : spec.compile name siblings order = .ok layout) : layout.width? = spec.width? := by
  induction spec generalizing name siblings order layout with
  | int spec =>
      simp only [LayoutSpec.compile, bind_eq_ok_iff, pure_eq_ok_iff] at compiled
      obtain ⟨format, resolved, rfl⟩ := compiled
      exact congrArg some (IntSpec.resolve_eq_ok_iff.mp resolved).1.symm
  | enum spec =>
      simp only [LayoutSpec.compile, EnumSpec.compile, Enumeration.compile, bind_eq_ok_iff,
        guard_eq_ok_iff, pure_eq_ok_iff] at compiled
      obtain ⟨_, ⟨format, resolved, -, _, -, rfl⟩, rfl⟩ := compiled
      exact congrArg some (IntSpec.resolve_eq_ok_iff.mp resolved).1.symm
  | mask spec =>
      simp only [LayoutSpec.compile, MaskSpec.compile, MaskSpec.resolve, bind_eq_ok_iff,
        guard_eq_ok_iff, pure_eq_ok_iff] at compiled
      obtain ⟨_, ⟨_, ⟨-, _, -, flags, -, rfl⟩, _, -, _, -, rfl⟩, rfl⟩ := compiled
      rfl
  | struct fields own ih =>
      simp only [LayoutSpec.compile, bind_eq_ok_iff, pure_eq_ok_iff] at compiled
      obtain ⟨members, assembled, rfl⟩ := compiled
      have each := compileFields_eq_ok_iff.mp (assembleStruct_eq_ok_iff.mp assembled).2.1
      rw [Layout.width?, LayoutSpec.width?, fieldWidths_eq_map, memberWidths_eq_map,
        map_eq_of_forall₂ each fun spec inside field related => ih spec inside related.2]
  | array element length ih =>
      simp only [LayoutSpec.compile, bind_eq_ok_iff, pure_eq_ok_iff] at compiled
      obtain ⟨count, counts, layout, found, _, -, rfl⟩ := compiled
      exact LayoutSpec.width?_array counts (ih found)
  | view key variants ih =>
      obtain ⟨-, format, payloads, resolved, found, -, rfl⟩ := compile_view_eq_ok_iff.mp compiled
      exact LayoutSpec.width?_view resolved (compileVariants_eq_ok_iff.mp found).2
        fun spec inside _ => ih spec inside
  | constant format value =>
      simp only [LayoutSpec.compile, bind_eq_ok_iff, guard_eq_ok_iff, pure_eq_ok_iff] at compiled
      obtain ⟨format, resolved, -, rfl⟩ := compiled
      exact congrArg some (IntSpec.resolve_eq_ok_iff.mp resolved).1.symm
  | derived format expr =>
      cases siblings with
      | none => cases compiled
      | some siblings =>
          simp only [LayoutSpec.compile, bind_eq_ok_iff, pure_eq_ok_iff] at compiled
          obtain ⟨format, resolved, expr, -, rfl⟩ := compiled
          exact congrArg some (IntSpec.resolve_eq_ok_iff.mp resolved).1.symm

/-! ### Siblings by name and by index -/

/-- The sibling at `index` has the name. -/
def FieldSpec.NamedAt (siblings : List FieldSpec) (index : Nat) (name : String) : Prop :=
  ∃ field, siblings[index]? = some field ∧ field.name = name

theorem FieldSpec.NamedAt.unique {siblings : List FieldSpec} {index other : Nat} {name : String}
    (names : (siblings.map (·.name)).Nodup) (named : NamedAt siblings index name)
    (again : NamedAt siblings other name) : index = other := by
  obtain ⟨field, there, rfl⟩ := named
  obtain ⟨twin, elsewhere, same⟩ := again
  exact index_eq_of_nodup names there elsewhere same

section Referring

variable {siblings : List FieldSpec} {name first last : String} {index : Nat}

theorem referTo_eq_ok_iff {allowed : LayoutSpec → Bool} (names : (siblings.map (·.name)).Nodup) :
    referTo siblings allowed name = .ok index ↔
      ∃ field, siblings[index]? = some field ∧ field.name = name ∧ allowed field.kind := by
  constructor
  · exact referTo_eq_ok
  · rintro ⟨field, there, rfl, fine⟩
    unfold referTo
    simp [findIdx?_of_nodup names there, there, fine]

/-- **A range of siblings** runs from the index of its first name to the index of its last. -/
theorem FieldSpec.range_iff {range : List FieldSpec} :
    FieldSpec.Range siblings first last range ↔
      ∃ start stop, start ≤ stop ∧ NamedAt siblings start first ∧ NamedAt siblings stop last ∧
        range = (siblings.take (stop + 1)).drop start := by
  constructor
  · rintro ⟨⟨before, after, rfl⟩, starts, stops⟩
    obtain ⟨head, front, rfl⟩ := Option.map_eq_some_iff.mp starts
    obtain ⟨final, back, rfl⟩ := Option.map_eq_some_iff.mp stops
    rw [List.head?_eq_getElem?] at front
    rw [List.getLast?_eq_getElem?] at back
    have nonempty := (List.getElem?_eq_some_iff.mp front).1
    refine ⟨before.length, before.length + (range.length - 1), by omega, ⟨head, ?_, rfl⟩,
      ⟨final, ?_, rfl⟩, ?_⟩
    · rw [List.append_assoc, List.getElem?_append_right (Nat.le_refl _), Nat.sub_self,
        List.getElem?_append_left nonempty, front]
    · rw [List.append_assoc, List.getElem?_append_right (Nat.le_add_right ..),
        Nat.add_sub_cancel_left, List.getElem?_append_left (by omega), back]
    · have count : before.length + (range.length - 1) + 1 = (before ++ range).length := by
        rw [List.length_append]
        omega
      rw [count, List.take_left, List.drop_left]
  · rintro ⟨start, stop, forward, ⟨head, front, rfl⟩, ⟨final, back, rfl⟩, rfl⟩
    have inside := (List.getElem?_eq_some_iff.mp back).1
    refine ⟨?_, ?_, ?_⟩
    · exact (List.drop_suffix _ _).isInfix.trans (List.take_prefix _ _).isInfix
    · rw [List.head?_drop, List.getElem?_take_of_lt (by omega), front, Option.map_some]
    · rw [List.getLast?_drop, if_neg (by rw [List.length_take]; omega), List.getLast?_eq_getElem?,
        List.length_take, Nat.min_eq_left (Nat.succ_le_of_lt inside), Nat.succ_sub_one,
        List.getElem?_take_of_lt (Nat.lt_add_one stop), back, Option.map_some]

end Referring

namespace Operand

variable {siblings : List FieldSpec} {operand : Operand String}

/-- **References resolve** exactly when they are to siblings that have the quantity. -/
theorem exists_resolve_iff (names : (siblings.map (·.name)).Nodup) :
    (∃ resolved, operand.resolve siblings = .ok resolved) ↔ operand.RefersIn siblings := by
  cases operand with
  | const value => simp [Operand.resolve, RefersIn]
  | valueOf name =>
      simp only [Operand.resolve, bind_eq_ok_iff, pure_eq_ok_iff, referTo_eq_ok_iff names, RefersIn]
      constructor
      · rintro ⟨_, index, ⟨field, there, same, fine⟩, rfl⟩
        exact ⟨field, List.mem_of_getElem? there, same, fine⟩
      · rintro ⟨field, member, same, fine⟩
        obtain ⟨index, there⟩ := List.mem_iff_getElem?.mp member
        exact ⟨_, index, ⟨field, there, same, fine⟩, rfl⟩
  | countOf name =>
      simp only [Operand.resolve, bind_eq_ok_iff, pure_eq_ok_iff, referTo_eq_ok_iff names, RefersIn]
      constructor
      · rintro ⟨_, index, ⟨field, there, same, fine⟩, rfl⟩
        exact ⟨field, List.mem_of_getElem? there, same, fine⟩
      · rintro ⟨field, member, same, fine⟩
        obtain ⟨index, there⟩ := List.mem_iff_getElem?.mp member
        exact ⟨_, index, ⟨field, there, same, fine⟩, rfl⟩
  | sizeOf first last =>
      simp only [Operand.resolve, bind_eq_ok_iff, guard_eq_ok_iff, pure_eq_ok_iff,
        referTo_eq_ok_iff names, RefersIn, FieldSpec.range_iff, Nat.not_lt]
      constructor
      · rintro ⟨_, start, ⟨head, front, same, -⟩, stop, ⟨final, back, equal, -⟩, forward, rfl⟩
        exact ⟨_, start, stop, forward, ⟨head, front, same⟩, ⟨final, back, equal⟩, rfl⟩
      · rintro ⟨_, start, stop, forward, ⟨head, front, same⟩, ⟨final, back, equal⟩, -⟩
        exact ⟨_, start, ⟨head, front, same, trivial⟩, stop, ⟨final, back, equal, trivial⟩, forward, rfl⟩

end Operand

/-! ### Quantities -/

/-- Compiling keeps constants. -/
theorem LayoutSpec.constant_of_compile {spec : LayoutSpec} {name : String}
    {siblings : Option (List FieldSpec)} {order : ByteOrder} {layout : Layout} {value : UInt64}
    (compiled : spec.compile name siblings order = .ok layout) :
    (∃ format, layout = .constant format value) ↔ ∃ format, spec = .constant format value := by
  cases spec with
  | derived format expr =>
      cases siblings <;> grind [LayoutSpec.compile, bind_eq_ok_iff, pure_eq_ok_iff]
  | constant format stored =>
      simp only [LayoutSpec.compile, bind_eq_ok_iff, guard_eq_ok_iff, pure_eq_ok_iff] at compiled
      obtain ⟨settled, -, -, rfl⟩ := compiled
      simp
  | _ =>
      simp only [LayoutSpec.compile, bind_eq_ok_iff, guard_eq_ok_iff, pure_eq_ok_iff] at compiled
      grind

/-- Compiling keeps fixed counts. -/
theorem LayoutSpec.count_of_compile {spec : LayoutSpec} {name : String}
    {siblings : Option (List FieldSpec)} {order : ByteOrder} {layout : Layout} {count : UInt64}
    (compiled : spec.compile name siblings order = .ok layout) :
    (∃ element, layout = .array element (.fixed count)) ↔
      ∃ element, spec = .array element (.fixed count) := by
  cases spec with
  | derived format expr =>
      cases siblings <;> grind [LayoutSpec.compile, bind_eq_ok_iff, pure_eq_ok_iff]
  | array element length =>
      simp only [LayoutSpec.compile, bind_eq_ok_iff, pure_eq_ok_iff] at compiled
      obtain ⟨settled, counts, layout, -, _, -, rfl⟩ := compiled
      cases length with
      | fixed described =>
          simp only [ArrayLength.compile, guard_eq_ok_iff, pure_eq_ok_iff] at counts
          simp [← counts.2]
      | bounded capacity counter =>
          simp only [ArrayLength.compile, guard_eq_ok_iff, bind_eq_ok_iff, pure_eq_ok_iff]
            at counts
          obtain ⟨-, format, -, -, rfl⟩ := counts
          simp
  | _ =>
      simp only [LayoutSpec.compile, bind_eq_ok_iff, guard_eq_ok_iff, pure_eq_ok_iff] at compiled
      grind

section Quantities

variable {siblings : List FieldSpec} {fields : List Field} {order : ByteOrder}

/-- Members have the widths that their descriptions state. -/
theorem fieldWidths_of_compile
    (each : List.Forall₂ (Field.CompiledFrom siblings order) siblings fields) :
    fieldWidths fields = siblings.map (·.kind.width?) := by
  rw [fieldWidths_eq_map]
  exact map_eq_of_forall₂ each fun _ _ _ related => LayoutSpec.width?_of_compile related.2

theorem fixedQuantity?_valueOf {field : Field} {index : Nat} {quantity : Int}
    (there : fields[index]? = some field) :
    fixedQuantity? fields (.valueOf index) = some quantity ↔
      ∃ value, (∃ format, field.layout = .constant format value) ∧ quantity = value.toNat := by
  obtain ⟨name, layout⟩ := field
  simp only [fixedQuantity?, there]
  cases layout <;> simp [eq_comm]

theorem fixedQuantity?_countOf {field : Field} {index : Nat} {quantity : Int}
    (there : fields[index]? = some field) :
    fixedQuantity? fields (.countOf index) = some quantity ↔
      ∃ count, (∃ element, field.layout = .array element (.fixed count)) ∧
        quantity = count.toNat := by
  obtain ⟨name, layout⟩ := field
  simp only [fixedQuantity?, there]
  cases layout with
  | array element length => cases length <;> simp [eq_comm]
  | _ => simp

/-- **The layouts fix the quantity that the descriptions fix.** -/
theorem Operand.fixedQuantity?_eq_some_iff {operand : Operand String} {resolved : Operand Nat}
    {quantity : Int} (names : (siblings.map (·.name)).Nodup)
    (each : List.Forall₂ (Field.CompiledFrom siblings order) siblings fields)
    (resolves : operand.resolve siblings = .ok resolved) :
    fixedQuantity? fields resolved = some quantity ↔ operand.FixedTo siblings quantity := by
  have only {spec other : FieldSpec} (inside : spec ∈ siblings) (again : other ∈ siblings)
      (same : other.name = spec.name) : other = spec :=
    List.inj_on_of_nodup_map names again inside same
  cases operand with
  | const value =>
      simp only [Operand.resolve, Except.ok.injEq] at resolves
      subst resolves
      simp [fixedQuantity?, FixedTo, eq_comm]
  | valueOf name =>
      simp only [Operand.resolve, bind_eq_ok_iff, pure_eq_ok_iff, referTo_eq_ok_iff names]
        at resolves
      obtain ⟨index, ⟨spec, there, rfl, -⟩, rfl⟩ := resolves
      have inside := List.mem_of_getElem? there
      obtain ⟨field, present, -, compiled⟩ := exists_result_of_getElem? each there
      simp only [fixedQuantity?_valueOf present, LayoutSpec.constant_of_compile compiled, FixedTo]
      constructor
      · rintro ⟨value, ⟨format, kind⟩, rfl⟩
        exact ⟨spec, inside, rfl, format, value, kind, rfl⟩
      · rintro ⟨other, again, same, format, value, kind, rfl⟩
        exact ⟨value, ⟨format, only inside again same ▸ kind⟩, rfl⟩
  | countOf name =>
      simp only [Operand.resolve, bind_eq_ok_iff, pure_eq_ok_iff, referTo_eq_ok_iff names]
        at resolves
      obtain ⟨index, ⟨spec, there, rfl, -⟩, rfl⟩ := resolves
      have inside := List.mem_of_getElem? there
      obtain ⟨field, present, -, compiled⟩ := exists_result_of_getElem? each there
      simp only [fixedQuantity?_countOf present, LayoutSpec.count_of_compile compiled, FixedTo]
      constructor
      · rintro ⟨count, ⟨element, kind⟩, rfl⟩
        exact ⟨spec, inside, rfl, element, count, kind, rfl⟩
      · rintro ⟨other, again, same, element, count, kind, rfl⟩
        exact ⟨count, ⟨element, only inside again same ▸ kind⟩, rfl⟩
  | sizeOf first last =>
      simp only [Operand.resolve, bind_eq_ok_iff, guard_eq_ok_iff, pure_eq_ok_iff,
        referTo_eq_ok_iff names, Nat.not_lt] at resolves
      obtain ⟨start, ⟨head, front, starts, -⟩, stop, ⟨final, back, stops, -⟩, forward, rfl⟩ :=
        resolves
      have widths : fieldWidths (fieldRange fields start stop) =
          ((siblings.take (stop + 1)).drop start).map (·.kind.width?) := by
        rw [fieldWidths_eq_map, fieldRange, List.map_drop, List.map_take, List.map_drop,
          List.map_take, ← fieldWidths_eq_map, fieldWidths_of_compile each]
      simp only [fixedQuantity?, widths, Option.map_eq_some_iff, FixedTo, FieldSpec.range_iff]
      constructor
      · rintro ⟨width, total, rfl⟩
        exact ⟨_, ⟨start, stop, forward, ⟨head, front, starts⟩, ⟨final, back, stops⟩, rfl⟩, width,
          total, rfl⟩
      · rintro ⟨_, ⟨low, high, -, lowNamed, highNamed, rfl⟩, width, total, rfl⟩
        rw [← FieldSpec.NamedAt.unique names ⟨head, front, starts⟩ lowNamed,
          ← FieldSpec.NamedAt.unique names ⟨final, back, stops⟩ highNamed] at total
        exact ⟨width, total, rfl⟩

/-! ### Expressions -/

/-- A term whose references have been resolved. -/
def Term.ResolvesTo (siblings : List FieldSpec) (term : Term String) (resolved : Term Nat) : Prop :=
  resolved.negate = term.negate ∧ term.operand.resolve siblings = .ok resolved.operand

namespace SizeExpr

variable {expr : SizeExpr String} {resolved : SizeExpr Nat}

theorem resolve_eq_ok_iff :
    expr.resolve siblings = .ok resolved ↔
      List.Forall₂ (Term.ResolvesTo siblings) expr resolved := by
  rw [SizeExpr.resolve, mapM_eq_ok_iff]
  refine iff_of_eq (congrArg (List.Forall₂ · expr resolved) ?_)
  funext term result
  simp only [bind_eq_ok_iff, pure_eq_ok_iff, Term.ResolvesTo, eq_iff_iff]
  constructor
  · rintro ⟨operand, found, rfl⟩
    exact ⟨rfl, found⟩
  · rintro ⟨sign, found⟩
    exact ⟨_, found, by rw [← sign]⟩

/-- An expression resolves exactly when every term refers to siblings as it should. -/
theorem exists_resolve_iff (names : (siblings.map (·.name)).Nodup) :
    (∃ resolved, expr.resolve siblings = .ok resolved) ↔
      ∀ term ∈ expr, term.operand.RefersIn siblings := by
  simp only [resolve_eq_ok_iff]
  constructor
  · rintro ⟨resolved, each⟩ term member
    obtain ⟨result, -, -, found⟩ := exists_entry_of_mem each.flip member
    exact (Operand.exists_resolve_iff names).mp ⟨_, found⟩
  · intro refers
    refine exists_forall₂ fun term member => ?_
    obtain ⟨operand, found⟩ := (Operand.exists_resolve_iff names).mpr (refers term member)
    exact ⟨⟨term.negate, operand⟩, rfl, found⟩

/-- **The value found in the layouts** is the one that the descriptions fix. -/
theorem fixedValue?_eq_some_iff {value : Int} (names : (siblings.map (·.name)).Nodup)
    (each : List.Forall₂ (Field.CompiledFrom siblings order) siblings fields)
    (resolves : expr.resolve siblings = .ok resolved) :
    resolved.fixedValue? fields = some value ↔ expr.FixedTo siblings value := by
  have sum : resolved.fixedValue? fields = some value ↔ ∃ quantities,
      List.Forall₂ (fun term found => fixedQuantity? fields term.operand = some found) resolved
        quantities ∧ resolved.total quantities = value :=
    SizeExpr.evaluate_yields (fun outcome result => outcome = some result)
      (fun _ _ => Option.some_inj) fun _ _ _ => Option.bind_eq_some_iff
  rw [sum, SizeExpr.FixedTo]
  refine exists_congr fun quantities => ?_
  -- term by term: the same sign and the same quantity
  have terms := resolve_eq_ok_iff.mp resolves
  clear sum resolves
  induction terms generalizing quantities value with
  | nil =>
      rw [List.forall₂_nil_left_iff, List.forall₂_nil_left_iff]
      rfl
  | @cons term result rest others first _ ih =>
      cases quantities with
      | nil => simp
      | cons quantity quantities =>
          have here : fixedQuantity? fields result.operand = some quantity ↔
              term.operand.FixedTo siblings quantity :=
            Operand.fixedQuantity?_eq_some_iff names each first.2
          have sign : result.signed quantity = term.signed quantity := by
            rw [Term.signed, Term.signed, first.1]
          have later := @ih (value - term.signed quantity) quantities
          simp only [List.forall₂_cons, SizeExpr.total, List.zipWith_cons_cons, List.sum_cons, here,
            sign] at later ⊢
          rw [and_assoc, and_assoc]
          refine and_congr_right fun _ => ?_
          rwa [eq_sub_iff_add_eq', eq_sub_iff_add_eq'] at later

end SizeExpr

end Quantities

/-- Only a described size compiles to one. -/
theorem LayoutSpec.derived_of_compile {spec : LayoutSpec} {name : String}
    {siblings : List FieldSpec} {order : ByteOrder} {format : IntFormat} {expr : SizeExpr Nat}
    (compiled : spec.compile name (some siblings) order = .ok (.derived format expr)) :
    ∃ described terms, spec = .derived described terms ∧ described.resolve order = .ok format ∧
      terms.resolve siblings = .ok expr := by
  cases spec with
  | derived described terms =>
      simp only [LayoutSpec.compile, bind_eq_ok_iff, pure_eq_ok_iff, Layout.derived.injEq]
        at compiled
      obtain ⟨_, resolved, _, resolves, rfl, rfl⟩ := compiled
      exact ⟨described, terms, rfl, resolved, resolves⟩
  | _ =>
      simp only [LayoutSpec.compile, bind_eq_ok_iff, guard_eq_ok_iff, pure_eq_ok_iff] at compiled
      grind

/-! ### The checks of sizes -/

theorem Layout.sizeFault?_eq_none_iff {name : String} {layout : Layout} :
    layout.sizeFault? name = none ↔ ∀ width, layout.width? = some width → width < Address.limit := by
  unfold Layout.sizeFault?
  cases layout.width? with
  | none => simp
  | some width => simp

theorem Field.sizeFault?_eq_none_iff {fields : List Field} {field : Field} :
    field.sizeFault? fields = none ↔ ∀ format expr, field.layout = .derived format expr →
      ∀ value, expr.fixedValue? fields = some value → format.fits value := by
  unfold Field.sizeFault?
  cases field.layout with
  | derived format expr =>
      simp only [Layout.derived.injEq]
      cases found : expr.fixedValue? fields <;> grind
  | _ => simp

/-- **A run of fields has room** when every run of its first fields with fixed widths ends at an
address. -/
theorem beyondLimit?_eq_none_iff {next : Nat} {fields : List Field} (start : next < Address.limit) :
    beyondLimit? next fields = none ↔ ∀ front, front <+: fieldWidths fields → ∀ width,
      totalWidth? front = some width → next + width < Address.limit := by
  induction fields generalizing next with
  | nil =>
      simp only [beyondLimit?, fieldWidths, List.prefix_nil, forall_eq, true_iff]
      intro width none
      cases none
      exact start
  | cons field rest ih =>
      obtain ⟨name, layout⟩ := field
      have split : (∀ front, front <+: fieldWidths (⟨name, layout⟩ :: rest) → ∀ width,
          totalWidth? front = some width → next + width < Address.limit) ↔
          ∀ first, layout.width? = some first → ∀ front, front <+: fieldWidths rest → ∀ width,
            totalWidth? front = some width → next + first + width < Address.limit := by
        rw [fieldWidths]
        constructor
        · intro room first fixed front inside width total
          rw [Nat.add_assoc]
          refine room (layout.width? :: front) (List.cons_prefix_cons.mpr ⟨rfl, inside⟩) _ ?_
          exact totalWidth?_cons_eq_some.mpr ⟨first, fixed, width, total, rfl⟩
        · intro room front inside width total
          cases front with
          | nil =>
              cases total
              exact start
          | cons here front =>
              obtain ⟨rfl, within⟩ := List.cons_prefix_cons.mp inside
              obtain ⟨first, fixed, others, later, rfl⟩ := totalWidth?_cons_eq_some.mp total
              rw [← Nat.add_assoc]
              exact room first fixed front within others later
      rw [split, beyondLimit?]
      cases layout.width? with
      | none => simp
      | some first =>
          simp only [Option.some.injEq, forall_eq']
          split_ifs with inside
          · exact ih inside
          · refine iff_of_false (by simp) fun room => inside ?_
            exact room [] List.nil_prefix 0 rfl

end RecordLayout
