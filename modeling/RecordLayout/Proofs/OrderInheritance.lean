/-
**Where byte orders are stated does not matter.**

A description states the byte order of an integer, or leaves it to the nearest struct around it that
states one. The order that results is the one *in force* at that place. `LayoutSpec.restate` goes
through a whole description and states something else at each place, as a function of the order in
force there: `annotate` states that order itself, and `unordered` states nothing.

On the side of layouts, `Layout.reorder` renames the order of every integer. The two meet in one law,
which holds as long as the new statements put the renamed orders in force:

* `LayoutSpec.compile_restate`: **compiling commutes with restating the byte orders**, errors included.
  No check looks at an order, and the names and kinds of siblings, which size expressions are resolved
  against, are left alone.
* `compileStruct_annotate`: a description in which every order is stated compiles to the same layout
  under every default.
* `compileStruct_unordered`: without its orders a description compiles to a layout of one order.
-/

import RecordLayout.Proofs.ValidLayout

namespace RecordLayout

/-! ### The orders of a description -/

section Restate

variable (state : ByteOrder → Option ByteOrder)

/-- The integer, with what `state` says of the order in force. -/
def IntSpec.restate (inherited : ByteOrder) (spec : IntSpec) : IntSpec :=
  { spec with order := state (spec.order.getD inherited) }

/-- The length of an array, with the order of the stored count restated. -/
def ArrayLength.restate (inherited : ByteOrder) : ArrayLength IntSpec → ArrayLength IntSpec
  | .fixed count => .fixed count
  | .bounded capacity counter => .bounded capacity (counter.restate state inherited)

mutual

/-- The description, with every byte order restated. The members of a struct inherit the order that is
in force for the struct; elements and payloads inherit what the array or the view inherits. -/
def LayoutSpec.restate (inherited : ByteOrder) : LayoutSpec → LayoutSpec
  | .int spec => .int (spec.restate state inherited)
  | .enum spec => .enum ⟨spec.format.restate state inherited, spec.variants⟩
  | .mask spec => .mask spec
  | .struct fields own =>
      .struct (restateFields (own.getD inherited) fields) (state (own.getD inherited))
  | .array element length => .array (element.restate inherited) (length.restate state inherited)
  | .view key variants => .view (key.restate state inherited) (restateVariants inherited variants)
  | .constant format value => .constant (format.restate state inherited) value
  | .derived format expr => .derived (format.restate state inherited) expr

/-- Fields that inherit an order, with every byte order restated. -/
def restateFields (inherited : ByteOrder) : List FieldSpec → List FieldSpec
  | [] => []
  | ⟨name, kind⟩ :: rest => ⟨name, kind.restate inherited⟩ :: restateFields inherited rest

/-- Variants that inherit an order, with every byte order restated. -/
def restateVariants (inherited : ByteOrder) : List VariantSpec → List VariantSpec
  | [] => []
  | ⟨name, key, kind⟩ :: rest =>
      ⟨name, key, kind.restate inherited⟩ :: restateVariants inherited rest

end

end Restate

/-- The fields with every order stated that is in force: the one that is stated already, else that of
the nearest enclosing struct with one, else `inherited`. -/
def annotate (inherited : ByteOrder) (fields : List FieldSpec) : List FieldSpec :=
  restateFields some inherited fields

/-- The fields without any order. -/
def unordered (fields : List FieldSpec) : List FieldSpec :=
  restateFields (fun _ => none) .big fields

/-! ### The orders of a layout -/

section Reorder

variable (rename : ByteOrder → ByteOrder)

/-- The format with its byte order renamed. -/
def IntFormat.reorder (format : IntFormat) : IntFormat :=
  { format with order := rename format.order }

/-- The enumeration with its byte order renamed. -/
def Enumeration.reorder (enumeration : Enumeration) : Enumeration :=
  { enumeration with format := enumeration.format.reorder rename }

/-- The length of an array with the byte order of the stored count renamed. -/
def ArrayLength.reorder : ArrayLength IntFormat → ArrayLength IntFormat
  | .fixed count => .fixed count
  | .bounded capacity counter => .bounded capacity (counter.reorder rename)

mutual

/-- The layout with every byte order renamed. -/
def Layout.reorder : Layout → Layout
  | .int format => .int (format.reorder rename)
  | .enum enumeration => .enum (enumeration.reorder rename)
  | .mask mask => .mask mask
  | .struct fields => .struct (reorderFields fields)
  | .array element length => .array element.reorder (length.reorder rename)
  | .view key variants => .view (key.reorder rename) (reorderVariants variants)
  | .constant format value => .constant (format.reorder rename) value
  | .derived format expr => .derived (format.reorder rename) expr

/-- The fields of a struct with every byte order renamed. -/
def reorderFields : List Field → List Field
  | [] => []
  | ⟨name, layout⟩ :: rest => ⟨name, layout.reorder⟩ :: reorderFields rest

/-- The variants of a view with every byte order renamed. -/
def reorderVariants : List Variant → List Variant
  | [] => []
  | ⟨name, key, layout⟩ :: rest => ⟨name, key, layout.reorder⟩ :: reorderVariants rest

end

/-- The member with every byte order renamed. -/
def Field.reorder (field : Field) : Field := ⟨field.name, field.layout.reorder rename⟩

/-- The variant with every byte order renamed. -/
def Variant.reorder (variant : Variant) : Variant :=
  ⟨variant.name, variant.key, variant.layout.reorder rename⟩

end Reorder

theorem reorderFields_eq_map (rename : ByteOrder → ByteOrder) (fields : List Field) :
    reorderFields rename fields = fields.map (Field.reorder rename) := by
  induction fields with
  | nil => rfl
  | cons field rest ih =>
      cases field
      rw [reorderFields, ih]
      rfl

theorem reorderVariants_eq_map (rename : ByteOrder → ByteOrder) (variants : List Variant) :
    reorderVariants rename variants = variants.map (Variant.reorder rename) := by
  induction variants with
  | nil => rfl
  | cons variant rest ih =>
      cases variant
      rw [reorderVariants, ih]
      rfl

theorem Field.reorder_eq_self {rename : ByteOrder → ByteOrder} {field : Field}
    (same : field.layout.reorder rename = field.layout) : field.reorder rename = field := by
  cases field
  exact congrArg (Field.mk _) same

theorem Variant.reorder_eq_self {rename : ByteOrder → ByteOrder} {variant : Variant}
    (same : variant.layout.reorder rename = variant.layout) : variant.reorder rename = variant := by
  cases variant
  exact congrArg (Variant.mk _ _) same

/-- A renaming that changes no order changes no layout. -/
theorem Layout.reorder_id (layout : Layout) : layout.reorder id = layout := by
  induction layout with
  | int _ | enum _ | mask _ | constant _ _ | derived _ _ => rfl
  | struct fields ih =>
      have same : fields.map (Field.reorder id) = fields.map id :=
        List.map_congr_left fun field member => Field.reorder_eq_self (ih field member)
      rw [Layout.reorder, reorderFields_eq_map, same, List.map_id]
  | array element length ih =>
      rw [Layout.reorder, ih]
      cases length <;> rfl
  | view key variants ih =>
      have same : variants.map (Variant.reorder id) = variants.map id :=
        List.map_congr_left fun variant member => Variant.reorder_eq_self (ih variant member)
      rw [Layout.reorder, reorderVariants_eq_map, same, List.map_id]
      rfl

/-! ### What does not depend on the order -/

section Blind

variable {rename : ByteOrder → ByteOrder}

/-- **The width of a layout does not depend on its byte orders.** -/
@[simp]
theorem Layout.width?_reorder (layout : Layout) :
    (layout.reorder rename).width? = layout.width? := by
  induction layout with
  | int _ | enum _ | mask _ | constant _ _ | derived _ _ => rfl
  | struct fields ih =>
      rw [Layout.reorder, Layout.width?, Layout.width?, reorderFields_eq_map, fieldWidths_eq_map,
        fieldWidths_eq_map, List.map_map]
      exact congrArg totalWidth? (List.map_congr_left ih)
  | array element length ih =>
      cases length with
      | fixed count =>
          rw [Layout.reorder, ArrayLength.reorder, Layout.width?, ih, Layout.width?]
      | bounded capacity counter => rfl
  | view key variants ih =>
      rw [Layout.reorder, Layout.width?, Layout.width?, reorderVariants_eq_map,
        variantWidths_eq_map, variantWidths_eq_map, List.map_map]
      exact congrArg (fun widths => (commonWidth? widths).map (key.bytes + ·))
        (List.map_congr_left ih)

theorem fieldWidths_reorder (fields : List Field) :
    fieldWidths (fields.map (Field.reorder rename)) = fieldWidths fields := by
  rw [fieldWidths_eq_map, fieldWidths_eq_map, List.map_map]
  exact List.map_congr_left fun field _ => field.layout.width?_reorder

theorem beyondLimit?_reorder (next : Nat) (fields : List Field) :
    beyondLimit? next (fields.map (Field.reorder rename)) = beyondLimit? next fields := by
  induction fields generalizing next with
  | nil => rfl
  | cons field rest ih =>
      rw [List.map_cons, beyondLimit?, beyondLimit?]
      simp only [Field.reorder, Layout.width?_reorder, ih]

theorem Layout.sizeFault?_reorder (name : String) (layout : Layout) :
    (layout.reorder rename).sizeFault? name = layout.sizeFault? name := by
  rw [Layout.sizeFault?, Layout.width?_reorder, Layout.sizeFault?]

theorem fixedQuantity?_reorder (fields : List Field) (operand : Operand Nat) :
    fixedQuantity? (fields.map (Field.reorder rename)) operand = fixedQuantity? fields operand := by
  cases operand with
  | const value => rfl
  | valueOf index | countOf index =>
      simp only [fixedQuantity?, List.getElem?_map]
      cases fields[index]? with
      | none => rfl
      | some field =>
          obtain ⟨name, layout⟩ := field
          cases layout with
          | array element length => cases length <;> rfl
          | _ => rfl
  | sizeOf first last =>
      rw [fixedQuantity?, fixedQuantity?, fieldRange, fieldRange, ← List.map_take, ← List.map_drop,
        fieldWidths_reorder]

/-- Whether a size field has a fault does not depend on byte orders. -/
theorem Field.sizeFault?_reorder (fields : List Field) (field : Field) :
    (field.reorder rename).sizeFault? (fields.map (Field.reorder rename)) =
      field.sizeFault? fields := by
  obtain ⟨name, layout⟩ := field
  cases layout with
  | derived format expr =>
      have same : expr.fixedValue? (fields.map (Field.reorder rename)) = expr.fixedValue? fields := by
        rw [SizeExpr.fixedValue?, SizeExpr.fixedValue?]
        exact congrArg (fun quantity => SizeExpr.evaluate quantity expr)
          (funext (fixedQuantity?_reorder fields))
      simp only [Field.reorder, Layout.reorder, Field.sizeFault?, same]
      rfl
  | _ => rfl

end Blind

/-! ### Checks on descriptions -/

/-- A judgement that a change of the entries leaves alone finds the same fault. -/
theorem firstFault?_map {α ε : Type} {judge : List α → α → Option ε} {change : α → α}
    (blind : ∀ earlier entry, judge (earlier.map change) (change entry) = judge earlier entry)
    (earlier entries : List α) :
    firstFault? judge (earlier.map change) (entries.map change) =
      firstFault? judge earlier entries := by
  induction entries generalizing earlier with
  | nil => rfl
  | cons entry rest ih =>
      rw [List.map_cons, firstFault?, firstFault?, blind, ← ih (earlier ++ [entry]),
        List.map_append]
      rfl

section Restated

variable {state : ByteOrder → Option ByteOrder} {inherited : ByteOrder}

/-- The field with every byte order restated. -/
def FieldSpec.restate (state : ByteOrder → Option ByteOrder) (inherited : ByteOrder)
    (field : FieldSpec) : FieldSpec :=
  ⟨field.name, field.kind.restate state inherited⟩

/-- The variant with every byte order restated. -/
def VariantSpec.restate (state : ByteOrder → Option ByteOrder) (inherited : ByteOrder)
    (variant : VariantSpec) : VariantSpec :=
  ⟨variant.name, variant.key, variant.kind.restate state inherited⟩

theorem restateFields_eq_map (fields : List FieldSpec) :
    restateFields state inherited fields = fields.map (FieldSpec.restate state inherited) := by
  induction fields with
  | nil => rfl
  | cons field rest ih =>
      cases field
      rw [restateFields, ih]
      rfl

theorem restateVariants_eq_map (variants : List VariantSpec) :
    restateVariants state inherited variants =
      variants.map (VariantSpec.restate state inherited) := by
  induction variants with
  | nil => rfl
  | cons variant rest ih =>
      cases variant
      rw [restateVariants, ih]
      rfl

theorem FieldSpec.fault?_restate (earlier : List FieldSpec) (field : FieldSpec) :
    (field.restate state inherited).fault? (earlier.map (FieldSpec.restate state inherited)) =
      field.fault? earlier := by
  unfold FieldSpec.fault?
  rw [List.any_map]
  rfl

theorem VariantSpec.fault?_restate {rename : ByteOrder → ByteOrder} (key : IntFormat)
    (earlier : List VariantSpec) (variant : VariantSpec) :
    (variant.restate state inherited).fault? (key.reorder rename)
      (earlier.map (VariantSpec.restate state inherited)) = variant.fault? key earlier := by
  unfold VariantSpec.fault?
  rw [List.any_map, List.any_map]
  rfl

/-- The kinds that a size expression can refer to are left alone. -/
theorem LayoutSpec.kind_restate (spec : LayoutSpec) :
    (spec.restate state inherited).hasValue = spec.hasValue ∧
      (spec.restate state inherited).isArray = spec.isArray := by
  cases spec <;> exact ⟨rfl, rfl⟩

/-- **References lead to the same siblings**, whatever their byte orders. -/
theorem referTo_restate {allowed : LayoutSpec → Bool}
    (blind : ∀ kind : LayoutSpec, allowed (kind.restate state inherited) = allowed kind)
    (siblings : List FieldSpec) (name : String) :
    referTo (siblings.map (FieldSpec.restate state inherited)) allowed name =
      referTo siblings allowed name := by
  have located : (siblings.map (FieldSpec.restate state inherited)).findIdx? (·.name == name) =
      siblings.findIdx? (·.name == name) := by
    rw [List.findIdx?_map]
    rfl
  unfold referTo
  rw [located]
  cases siblings.findIdx? (·.name == name) with
  | none => rfl
  | some index => simp only [List.getElem?_map, Option.any_map, FieldSpec.restate, blind]

theorem Operand.resolve_restate (siblings : List FieldSpec) (operand : Operand String) :
    operand.resolve (siblings.map (FieldSpec.restate state inherited)) =
      operand.resolve siblings := by
  cases operand with
  | const value => rfl
  | valueOf name =>
      rw [Operand.resolve, Operand.resolve, referTo_restate fun kind => kind.kind_restate.1]
  | countOf name =>
      rw [Operand.resolve, Operand.resolve, referTo_restate fun kind => kind.kind_restate.2]
  | sizeOf first last =>
      rw [Operand.resolve, Operand.resolve, referTo_restate fun _ => rfl,
        referTo_restate fun _ => rfl]

theorem SizeExpr.resolve_restate (siblings : List FieldSpec) (expr : SizeExpr String) :
    SizeExpr.resolve (siblings.map (FieldSpec.restate state inherited)) expr =
      SizeExpr.resolve siblings expr := by
  unfold SizeExpr.resolve
  simp only [Operand.resolve_restate]

/-- **A struct is assembled from restated fields** as it is from the fields themselves. -/
theorem assembleStruct_restate {rename : ByteOrder → ByteOrder} (specs : List FieldSpec)
    (members : Except SchemaError (List Field)) :
    assembleStruct (specs.map (FieldSpec.restate state inherited))
        (members.map (List.map (Field.reorder rename))) =
      (assembleStruct specs members).map (List.map (Field.reorder rename)) := by
  have names : firstFault? FieldSpec.fault? [] (specs.map (FieldSpec.restate state inherited)) =
      firstFault? FieldSpec.fault? [] specs :=
    firstFault?_map FieldSpec.fault?_restate [] specs
  unfold assembleStruct
  rw [names]
  cases firstFault? FieldSpec.fault? [] specs with
  | some fault => rfl
  | none =>
      cases members with
      | error cause => rfl
      | ok fields =>
          have sizes : (fields.map (Field.reorder rename)).findSome?
              (Field.sizeFault? (fields.map (Field.reorder rename))) =
              fields.findSome? (Field.sizeFault? fields) := by
            rw [List.findSome?_map]
            exact congrArg (fun fault => fields.findSome? fault)
              (funext (Field.sizeFault?_reorder fields))
          show (raise (List.findSome? _ (fields.map (Field.reorder rename))) >>= fun _ =>
            raise ((beyondLimit? 0 (fields.map (Field.reorder rename))).map _) >>= fun _ => _) = _
          rw [sizes, beyondLimit?_reorder]
          cases findings : fields.findSome? (Field.sizeFault? fields) with
          | some fault => simp [raise, findings, bind, Except.bind, Except.map]
          | none =>
              cases beyond : beyondLimit? 0 fields <;>
                simp [raise, findings, beyond, bind, Except.bind, Except.map, pure, Except.pure]

end Restated

/-! ### Compiling restated descriptions -/

section Compile

variable {state : ByteOrder → Option ByteOrder} {rename : ByteOrder → ByteOrder}
  {inherited outer : ByteOrder}

/-- Under the order `outer`, what is stated puts the renamed orders in force. -/
def Settles (state : ByteOrder → Option ByteOrder) (rename : ByteOrder → ByteOrder)
    (outer : ByteOrder) : Prop :=
  ∀ inForce, (state inForce).getD outer = rename inForce

theorem IntSpec.resolve_restate (settled : Settles state rename outer) (spec : IntSpec) :
    (spec.restate state inherited).resolve outer =
      (spec.resolve inherited).map (IntFormat.reorder rename) := by
  unfold IntSpec.resolve IntSpec.restate
  cases IntWidth.ofBytes? spec.width with
  | none => rfl
  | some width =>
      have order := settled (spec.order.getD inherited)
      simp only [order, Except.map, IntFormat.reorder]

theorem EnumSpec.compile_restate (settled : Settles state rename outer) (spec : EnumSpec)
    (name : String) :
    EnumSpec.compile name outer ⟨spec.format.restate state inherited, spec.variants⟩ =
      (spec.compile name inherited).map (Enumeration.reorder rename) := by
  unfold EnumSpec.compile
  rw [spec.format.resolve_restate settled]
  cases spec.format.resolve inherited with
  | error cause => rfl
  | ok format =>
      show Enumeration.compile name (format.reorder rename) spec.variants =
        (Enumeration.compile name format spec.variants).map (Enumeration.reorder rename)
      unfold Enumeration.compile
      split
      · rfl
      · -- the faults of a named value are the same in either format
        show (raise (firstFault? (EnumVariant.fault? format) [] spec.variants) >>= fun _ => _) = _
        cases firstFault? (EnumVariant.fault? format) [] spec.variants <;> rfl

theorem ArrayLength.compile_restate (settled : Settles state rename outer)
    (length : ArrayLength IntSpec) (name : String) :
    (length.restate state inherited).compile name outer =
      (length.compile name inherited).map (ArrayLength.reorder rename) := by
  cases length with
  | fixed count =>
      show (if count = 0 then _ else _) = Except.map _ (if count = 0 then _ else _)
      split <;> rfl
  | bounded capacity counter =>
      simp only [ArrayLength.restate, ArrayLength.compile, counter.resolve_restate settled]
      split
      · rfl
      · cases counter.resolve inherited with
        | error cause => rfl
        | ok format =>
            show (if !format.fits capacity.toNat then _ else _) =
              Except.map _ (if !format.fits capacity.toNat then _ else _)
            split <;> rfl

theorem compileFields_restate {siblings specs : List FieldSpec}
    (inner : ∀ spec ∈ specs,
      (spec.kind.restate state inherited).compile spec.name
          (some (siblings.map (FieldSpec.restate state inherited))) outer =
        (spec.kind.compile spec.name (some siblings) inherited).map (Layout.reorder rename)) :
    compileFields (siblings.map (FieldSpec.restate state inherited)) outer
        (specs.map (FieldSpec.restate state inherited)) =
      (compileFields siblings inherited specs).map (List.map (Field.reorder rename)) := by
  induction specs with
  | nil => rfl
  | cons spec rest ih =>
      obtain ⟨name, kind⟩ := spec
      rw [List.forall_mem_cons] at inner
      rw [List.map_cons, FieldSpec.restate, compileFields, compileFields, inner.1, ih inner.2]
      cases kind.compile name (some siblings) inherited with
      | error cause => rfl
      | ok layout => cases compileFields siblings inherited rest <;> rfl

theorem compileVariants_restate {key : IntFormat} {specs : List VariantSpec}
    (inner : ∀ spec ∈ specs,
      (spec.kind.restate state inherited).compile spec.name none outer =
        (spec.kind.compile spec.name none inherited).map (Layout.reorder rename))
    (earlier : List VariantSpec) :
    compileVariants (key.reorder rename) outer (earlier.map (VariantSpec.restate state inherited))
        (specs.map (VariantSpec.restate state inherited)) =
      (compileVariants key inherited earlier specs).map (List.map (Variant.reorder rename)) := by
  induction specs generalizing earlier with
  | nil => rfl
  | cons spec rest ih =>
      obtain ⟨name, value, kind⟩ := spec
      rw [List.forall_mem_cons] at inner
      have judged : VariantSpec.fault? (key.reorder rename)
          (earlier.map (VariantSpec.restate state inherited))
          ⟨name, value, kind.restate state inherited⟩ = VariantSpec.fault? key earlier _ :=
        VariantSpec.fault?_restate key earlier ⟨name, value, kind⟩
      have later := ih inner.2 (earlier ++ [⟨name, value, kind⟩])
      rw [List.map_append, List.map_singleton, VariantSpec.restate] at later
      rw [List.map_cons, VariantSpec.restate, compileVariants, compileVariants, judged, inner.1,
        later]
      cases VariantSpec.fault? key earlier ⟨name, value, kind⟩ with
      | some fault => rfl
      | none =>
          cases kind.compile name none inherited with
          | error cause => rfl
          | ok layout =>
              cases compileVariants key inherited (earlier ++ [⟨name, value, kind⟩]) rest <;> rfl

/-- **Compiling commutes with restating the byte orders.** The statements put renamed orders in force
at the top, and inside of every struct whatever order is in force around it; then the layout is the
renamed one, or the error is the same. -/
theorem LayoutSpec.compile_restate (closed : ∀ other, Settles state rename (rename other))
    (spec : LayoutSpec) (name : String) (siblings : Option (List FieldSpec))
    (settled : Settles state rename outer) :
    (spec.restate state inherited).compile name
        (siblings.map (List.map (FieldSpec.restate state inherited))) outer =
      (spec.compile name siblings inherited).map (Layout.reorder rename) := by
  induction spec generalizing name siblings inherited outer with
  | int spec =>
      rw [LayoutSpec.restate, LayoutSpec.compile, LayoutSpec.compile, spec.resolve_restate settled]
      cases spec.resolve inherited <;> rfl
  | enum spec =>
      rw [LayoutSpec.restate, LayoutSpec.compile, LayoutSpec.compile, spec.compile_restate settled]
      cases spec.compile name inherited <;> rfl
  | mask spec =>
      rw [LayoutSpec.restate, LayoutSpec.compile, LayoutSpec.compile]
      cases spec.compile <;> rfl
  | struct fields own ih =>
      -- the members inherit the renamed order of the struct, which settles their own
      have members : compileFields _ (rename (own.getD inherited)) _ =
          (compileFields fields (own.getD inherited) fields).map (List.map (Field.reorder rename)) :=
        compileFields_restate fun spec member => ih spec member spec.name (some fields) (closed _)
      rw [LayoutSpec.restate, LayoutSpec.compile, LayoutSpec.compile]
      simp only [settled (own.getD inherited), restateFields_eq_map, members,
        assembleStruct_restate]
      cases assembled : assembleStruct fields
          (compileFields fields (own.getD inherited) fields) with
      | error cause => rfl
      | ok fields =>
          show Except.ok (Layout.struct _) = Except.ok (Layout.struct (reorderFields rename fields))
          rw [reorderFields_eq_map]
  | array element length ih =>
      have inner : (element.restate state inherited).compile name none outer =
          (element.compile name none inherited).map (Layout.reorder rename) := ih name none settled
      rw [LayoutSpec.restate, LayoutSpec.compile, LayoutSpec.compile, length.compile_restate settled,
        inner]
      cases length.compile name inherited with
      | error cause => rfl
      | ok length =>
          cases element.compile name none inherited with
          | error cause => rfl
          | ok element =>
              have size : (Layout.array (element.reorder rename) (length.reorder rename)).sizeFault?
                  name = (Layout.array element length).sizeFault? name :=
                Layout.sizeFault?_reorder name (.array element length)
              show (raise (Layout.sizeFault? name _) >>= fun _ => _) = _
              rw [size]
              simp only [ok_bind]
              cases (Layout.array element length).sizeFault? name <;> rfl
  | view key variants ih =>
      rw [LayoutSpec.restate, LayoutSpec.compile, LayoutSpec.compile, restateVariants_eq_map,
        List.isEmpty_map, key.resolve_restate settled]
      split
      · rfl
      · cases key.resolve inherited with
        | error cause => rfl
        | ok key =>
            have payloads : compileVariants (key.reorder rename) outer [] _ =
                (compileVariants key inherited [] variants).map (List.map (Variant.reorder rename)) :=
              compileVariants_restate (fun spec member => ih spec member spec.name none settled) []
            show (compileVariants (key.reorder rename) outer [] _ >>= fun variants => _) = _
            rw [payloads]
            simp only [ok_bind]
            cases compileVariants key inherited [] variants with
            | error cause => rfl
            | ok variants =>
                have size : (Layout.view (key.reorder rename)
                    (variants.map (Variant.reorder rename))).sizeFault? name =
                    (Layout.view key variants).sizeFault? name := by
                  rw [← reorderVariants_eq_map]
                  exact Layout.sizeFault?_reorder name (.view key variants)
                show (raise (Layout.sizeFault? name _) >>= fun _ => _) = _
                rw [size]
                simp only [ok_bind]
                cases (Layout.view key variants).sizeFault? name with
                | some fault => rfl
                | none =>
                    show Except.ok (Layout.view _ _) =
                      Except.ok (Layout.view _ (reorderVariants rename variants))
                    rw [reorderVariants_eq_map]
  | constant format value =>
      rw [LayoutSpec.restate, LayoutSpec.compile, LayoutSpec.compile,
        format.resolve_restate settled]
      cases format.resolve inherited with
      | error cause => rfl
      | ok format =>
          show (if !format.fits value.toNat then _ else _) =
            Except.map _ (if !format.fits value.toNat then _ else _)
          split <;> rfl
  | derived format expr =>
      cases siblings with
      | none => rfl
      | some siblings =>
          rw [LayoutSpec.restate, Option.map_some, LayoutSpec.compile, LayoutSpec.compile,
            format.resolve_restate settled, SizeExpr.resolve_restate]
          cases format.resolve inherited with
          | error cause => rfl
          | ok format => cases SizeExpr.resolve siblings expr <;> rfl

/-- The fields of a whole record. -/
theorem compileStruct_restate (closed : ∀ other, Settles state rename (rename other))
    (settled : Settles state rename outer) (fields : List FieldSpec) :
    compileStruct outer (restateFields state inherited fields) =
      (compileStruct inherited fields).map (List.map (Field.reorder rename)) := by
  rw [compileStruct, compileStruct, restateFields_eq_map]
  rw [compileFields_restate fun spec _ =>
    LayoutSpec.compile_restate closed spec.kind spec.name (some fields) settled]
  exact assembleStruct_restate fields _

end Compile

/-! ### Stating every order -/

/-- **Making inherited byte orders explicit preserves the meaning**: under every default, the annotated
fields compile to what the fields compile to under the order that was made explicit, or they fail with
the same error. -/
theorem compileStruct_annotate (fields : List FieldSpec) (inherited outer : ByteOrder) :
    compileStruct outer (annotate inherited fields) = compileStruct inherited fields := by
  have renamed : compileStruct outer (annotate inherited fields) =
      (compileStruct inherited fields).map (List.map (Field.reorder id)) :=
    compileStruct_restate (fun _ _ => rfl) (fun _ => rfl) fields
  have same : Field.reorder id = id :=
    funext fun field => Field.reorder_eq_self field.layout.reorder_id
  rw [renamed, same, List.map_id_fun]
  cases compileStruct inherited fields <;> rfl

-- The struct has an order of its own, which goes through the array to the count and the elements.
example :
    annotate .little
      [⟨"id", .int ⟨4, false, none⟩⟩,
        ⟨"list", .struct [⟨"items", .array (.int ⟨2, false, none⟩) (.bounded 9 ⟨1, false, none⟩)⟩]
          (some .big)⟩] =
      [⟨"id", .int ⟨4, false, some .little⟩⟩,
        ⟨"list", .struct [⟨"items", .array (.int ⟨2, false, some .big⟩)
          (.bounded 9 ⟨1, false, some .big⟩)⟩] (some .big)⟩] := rfl

/-! ### Stating none -/

section Unordered

variable {state : ByteOrder → Option ByteOrder}

theorem IntSpec.restate_congr (blind : ∀ first second, state first = state second) (spec : IntSpec)
    (inherited other : ByteOrder) : spec.restate state inherited = spec.restate state other := by
  rw [IntSpec.restate, IntSpec.restate, blind (spec.order.getD inherited)]

/-- Where the same is stated of every order, it does not matter which order is inherited. -/
theorem LayoutSpec.restate_congr (blind : ∀ first second, state first = state second)
    (spec : LayoutSpec) (inherited other : ByteOrder) :
    spec.restate state inherited = spec.restate state other := by
  induction spec generalizing inherited other with
  | int spec => rw [LayoutSpec.restate, spec.restate_congr blind inherited other, LayoutSpec.restate]
  | enum spec =>
      rw [LayoutSpec.restate, spec.format.restate_congr blind inherited other, LayoutSpec.restate]
  | mask _ => rfl
  | struct fields own ih =>
      have members : fields.map (FieldSpec.restate state (own.getD inherited)) =
          fields.map (FieldSpec.restate state (own.getD other)) :=
        List.map_congr_left fun field member =>
          congrArg (FieldSpec.mk field.name) (ih field member _ _)
      rw [LayoutSpec.restate, LayoutSpec.restate, blind (own.getD inherited) (own.getD other),
        restateFields_eq_map, restateFields_eq_map, members]
  | array element length ih =>
      rw [LayoutSpec.restate, LayoutSpec.restate, ih inherited other]
      cases length with
      | fixed _ => rfl
      | bounded _ counter =>
          rw [ArrayLength.restate, counter.restate_congr blind inherited other, ArrayLength.restate]
  | view key variants ih =>
      have payloads : variants.map (VariantSpec.restate state inherited) =
          variants.map (VariantSpec.restate state other) :=
        List.map_congr_left fun variant member =>
          congrArg (VariantSpec.mk variant.name variant.key) (ih variant member _ _)
      rw [LayoutSpec.restate, LayoutSpec.restate, key.restate_congr blind inherited other,
        restateVariants_eq_map, restateVariants_eq_map, payloads]
  | constant format value =>
      rw [LayoutSpec.restate, format.restate_congr blind inherited other, LayoutSpec.restate]
  | derived format expr =>
      rw [LayoutSpec.restate, format.restate_congr blind inherited other, LayoutSpec.restate]

/-- **Without its orders** a description compiles to the layout with one order throughout, or fails
with the same error. -/
theorem compileStruct_unordered (fields : List FieldSpec) (inherited outer : ByteOrder) :
    compileStruct outer (unordered fields) =
      (compileStruct inherited fields).map (List.map (Field.reorder fun _ => outer)) := by
  have same : unordered fields = restateFields (fun _ => none) inherited fields := by
    rw [unordered, restateFields_eq_map, restateFields_eq_map]
    exact List.map_congr_left fun field _ => congrArg (FieldSpec.mk field.name)
      (field.kind.restate_congr (fun _ _ => rfl) _ _)
  rw [same]
  exact compileStruct_restate (fun _ _ => rfl) (fun _ => rfl) fields

end Unordered

end RecordLayout
