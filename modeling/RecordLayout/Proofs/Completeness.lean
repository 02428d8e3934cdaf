/-
**A record can be written exactly when it is complete.**

What keeps a record from being written is either missing or too large: a leaf that is not stored, a
view without a selection, a size whose value its format cannot hold. The first two are read off the
parts of the draft one by one (`Draft.Stored`). The value of a size is a sum over its siblings
(`Scope.total`), defined here without the evaluation that can fail.

* `Scope.evaluate_eq_total`: in a struct whose leaves are stored, every size has its value.
* `Draft.exists_misfit_of_encode_eq_error`: if nothing is missing, an encoding fails at a size that
  does not fit, and the failure names it.
* `Schema.toBuffer_ok_iff_complete`: the records that can be written, and why the others cannot.
-/

import RecordLayout.Proofs.DraftGrowth
import RecordLayout.Proofs.WellFormed

namespace RecordLayout

/-! ### Sizes belong to structs -/

/-- The layout is the outcome of compiling some description. -/
def Layout.Compiled (layout : Layout) : Prop :=
  ∃ (spec : LayoutSpec) (name : String) (siblings : Option (List FieldSpec)) (order : ByteOrder),
    spec.compile name siblings order = .ok layout

/-- The direct parts of a layout are the outcome of compiling, and only members have siblings. -/
def Layout.PartsCompiled : Layout → Prop
  | .struct fields => ∀ field ∈ fields, field.layout.Compiled
  | .array element _ => ∃ (spec : LayoutSpec) (name : String) (order : ByteOrder),
      spec.compile name none order = .ok element
  | .view _ variants => ∀ variant ∈ variants, ∃ (spec : LayoutSpec) (name : String)
      (order : ByteOrder), spec.compile name none order = .ok variant.layout
  | _ => True

namespace Layout.Compiled

variable {layout part : Layout}

theorem partsCompiled (compiled : layout.Compiled) : layout.PartsCompiled := by
  obtain ⟨spec, name, siblings, order, compiled⟩ := compiled
  cases spec with
  | int spec | enum spec | mask spec =>
      simp only [LayoutSpec.compile, bind_eq_ok_iff, pure_eq_ok_iff] at compiled
      obtain ⟨_, -, rfl⟩ := compiled
      trivial
  | constant format value =>
      simp only [LayoutSpec.compile, bind_eq_ok_iff, guard_eq_ok_iff, pure_eq_ok_iff] at compiled
      obtain ⟨format, -, -, rfl⟩ := compiled
      trivial
  | derived format expr =>
      cases siblings with
      | none => cases compiled
      | some siblings =>
          simp only [LayoutSpec.compile, bind_eq_ok_iff, pure_eq_ok_iff] at compiled
          obtain ⟨format, -, expr, -, rfl⟩ := compiled
          trivial
  | struct fields own =>
      simp only [LayoutSpec.compile, bind_eq_ok_iff, pure_eq_ok_iff] at compiled
      obtain ⟨members, assembled, rfl⟩ := compiled
      obtain ⟨-, each, -⟩ := assembleStruct_eq_ok_iff.mp assembled
      intro field inside
      obtain ⟨spec, -, -, found⟩ := exists_entry_of_mem (compileFields_eq_ok_iff.mp each) inside
      exact ⟨_, _, _, _, found⟩
  | array element length =>
      simp only [LayoutSpec.compile, bind_eq_ok_iff, raise_eq_ok_iff, pure_eq_ok_iff] at compiled
      obtain ⟨_, -, inner, found, _, -, rfl⟩ := compiled
      exact ⟨_, _, _, found⟩
  | view key variants =>
      obtain ⟨-, _, layouts, -, found, -, rfl⟩ := LayoutSpec.compile_view_eq_ok_iff.mp compiled
      intro variant inside
      obtain ⟨spec, -, -, -, found⟩ :=
        exists_entry_of_mem (compileVariants_eq_ok_iff.mp found).2 inside
      exact ⟨_, _, _, found⟩

theorem valid (compiled : layout.Compiled) : layout.Valid := by
  obtain ⟨spec, name, siblings, order, compiled⟩ := compiled
  exact LayoutSpec.valid_of_compile compiled

theorem member {fields : List Field} {field : Field} (compiled : (Layout.struct fields).Compiled)
    (inside : field ∈ fields) : field.layout.Compiled :=
  compiled.partsCompiled field inside

theorem element {inner : Layout} {length : ArrayLength IntFormat}
    (compiled : (Layout.array inner length).Compiled) : inner.Compiled := by
  obtain ⟨spec, name, order, found⟩ := compiled.partsCompiled
  exact ⟨spec, name, none, order, found⟩

theorem payload {key : IntFormat} {variants : List Variant} {variant : Variant}
    (compiled : (Layout.view key variants).Compiled) (inside : variant ∈ variants) :
    variant.layout.Compiled := by
  obtain ⟨spec, name, order, found⟩ := compiled.partsCompiled variant inside
  exact ⟨spec, name, none, order, found⟩

theorem of_contains (compiled : layout.Compiled) (inside : layout.Contains part) : part.Compiled := by
  induction inside with
  | refl => exact compiled
  | member inside _ ih => exact ih (compiled.member inside)
  | element _ ih => exact ih compiled.element
  | payload inside _ ih => exact ih (compiled.payload inside)

end Layout.Compiled

/-- **A size without siblings is refused.** -/
theorem LayoutSpec.ne_derived_of_compile {spec : LayoutSpec} {name : String} {order : ByteOrder}
    {layout : Layout} (compiled : spec.compile name none order = .ok layout) (format : IntFormat)
    (expr : SizeExpr Nat) : layout ≠ .derived format expr := by
  rintro rfl
  cases spec with
  | derived => cases compiled
  | _ =>
      simp only [LayoutSpec.compile, bind_eq_ok_iff, guard_eq_ok_iff, raise_eq_ok_iff,
        pure_eq_ok_iff, reduceCtorEq, and_false, exists_false] at compiled

theorem Schema.compiled_root {specs : List FieldSpec} {order : ByteOrder} {schema : Schema}
    (compiled : Schema.compile specs order = .ok schema) : schema.root.Compiled := by
  simp only [Schema.compile, compileStruct, bind_eq_ok_iff, pure_eq_ok_iff] at compiled
  obtain ⟨fields, assembled, rfl⟩ := compiled
  refine ⟨.struct specs none, "", none, order, ?_⟩
  simp only [LayoutSpec.compile, bind_eq_ok_iff, pure_eq_ok_iff]
  exact ⟨fields, assembled, rfl⟩

/-! ### What is stored, and what sizes are worth -/

namespace Scope

/-- The quantity that an operand stands for in a struct as it stands; a value that is not stored
counts for nothing. -/
def amount (scope : Scope) : Operand Nat → Int
  | .const value => value.toNat
  | .valueOf index =>
      match (scope.fields.zip scope.members)[index]? with
      | some (field, member) => (member.number? field.layout).getD 0
      | none => 0
  | .countOf index => scope.countOf index
  | .sizeOf first last => rangeLength (memberSizes scope.fields scope.members) first last

/-- The value of a size: the signed sum of its quantities. -/
def total (scope : Scope) (expr : SizeExpr Nat) : Int :=
  expr.total (expr.map fun term => scope.amount term.operand)

end Scope

namespace Draft

/-- The part holds what has to be stored there: the word of an integer or enumeration, the selection
of a view. -/
def Stored : Layout → Draft → Prop
  | .int _, draft | .enum _, draft => ∃ word, draft = .scalar (some word)
  | .view _ _, draft => ∃ index payload, draft = .view (some (index, payload))
  | _, _ => True

/-- The record has a size field of this name and format, in one of its structs, and this is its
value there. -/
def HasSize (layout : Layout) (draft : Draft) (name : String) (format : IntFormat) (value : Int) :
    Prop :=
  ∃ place fields members, draft.at? layout place = some (.struct fields, .struct members) ∧
    ∃ field ∈ fields, field.name = name ∧ ∃ expr, field.layout = .derived format expr ∧
      Scope.total ⟨fields, members⟩ expr = value

/-- A size of the record whose format cannot hold its value. -/
def Misfit (layout : Layout) (draft : Draft) (name : String) (format : IntFormat) (value : Int) :
    Prop :=
  draft.HasSize layout name format value ∧ ¬(format.min ≤ value ∧ value ≤ format.max)

/-! ### Parts by their own names -/

variable {layout inner : Layout} {draft part : Draft}

theorem Everywhere.to_part {holds : Layout → Draft → Prop} {step : Reader.Step}
    (all : draft.Everywhere holds layout) (found : draft.part? layout step = some (inner, part)) :
    part.Everywhere holds inner :=
  (everywhere_iff.mp all).2 step inner part found

/-- The sizes of a part are sizes of the whole. -/
theorem Misfit.of_part {step : Reader.Step} {name : String} {format : IntFormat} {value : Int}
    (found : draft.part? layout step = some (inner, part))
    (misfit : part.Misfit inner name format value) : draft.Misfit layout name format value := by
  obtain ⟨⟨place, fields, members, there, valued⟩, outside⟩ := misfit
  refine ⟨⟨step :: place, fields, members, ?_, valued⟩, outside⟩
  rw [at?, found]
  exact there

theorem part?_member {fields : List Field} {members : List Draft} {field : Field} {member : Draft}
    (names : (fields.map (·.name)).Nodup) (inside : (field, member) ∈ fields.zip members) :
    (Draft.struct members).part? (.struct fields) (.member field.name) =
      some (field.layout, member) := by
  obtain ⟨index, paired⟩ := List.mem_iff_getElem?.mp inside
  obtain ⟨declared, there⟩ := List.getElem?_zip_eq_some.mp paired
  have found : Field.indexOf? fields field.name = some index := findIdx?_of_nodup names declared
  simp [part?, found, declared, there]

theorem exists_part?_element {element : Layout} {length : ArrayLength IntFormat}
    {elements : List Draft} (inside : part ∈ elements) :
    ∃ step, (Draft.array elements).part? (.array element length) step = some (element, part) := by
  obtain ⟨index, there⟩ := List.mem_iff_getElem?.mp inside
  exact ⟨.element index, by simp [part?, there]⟩

theorem part?_active {key : IntFormat} {variants : List Variant} {variant : Variant} {index : Nat}
    {payload : Draft} (selected : variants[index]? = some variant) :
    (Draft.view (some (index, payload))).part? (.view key variants) .active =
      some (variant.layout, payload) := by
  simp [part?, selected]

/-- A stored number is a number. -/
theorem Shaped.exists_number? (shaped : draft.Shaped layout) (stored : draft.Stored layout)
    (hasValue : layout.hasValue) : ∃ value, draft.number? layout = some value := by
  cases shaped with
  | int | enum =>
      obtain ⟨word, same⟩ := stored
      cases same
      exact ⟨_, rfl⟩
  | constant => exact ⟨_, rfl⟩
  | _ => cases hasValue

end Draft

/-! ### Sizes have their values -/

namespace Scope

variable {fields : List Field} {members : List Draft}

/-- **Every quantity is found** in a struct whose leaves are stored. -/
theorem quantityBy_eq_amount {operand : Operand Nat} (whole : members.length = fields.length)
    (each : ∀ pair ∈ fields.zip members, pair.2.Shaped pair.1.layout)
    (stored : ∀ pair ∈ fields.zip members, pair.2.Stored pair.1.layout)
    (refers : operand.RefersTo fields) :
    Scope.quantityBy ⟨fields, members⟩ (memberSizes fields members) operand =
      .ok (Scope.amount ⟨fields, members⟩ operand) := by
  cases operand with
  | valueOf index =>
      obtain ⟨field, declared, hasValue⟩ := refers
      obtain ⟨member, there, paired⟩ := Field.exists_member whole declared
      have inside := List.mem_of_getElem? paired
      obtain ⟨value, known⟩ := (each _ inside).exists_number? (stored _ inside) hasValue
      simp only [quantityBy, valueOf, amount, declared, there, paired]
      rw [known]
      rfl
  | const _ | countOf _ | sizeOf _ _ => rfl

/-- **Every size has its value** in a struct whose leaves are stored. -/
theorem evaluate_eq_total {field : Field} {format : IntFormat} {expr : SizeExpr Nat}
    (valid : (Layout.struct fields).Valid)
    (shaped : (Draft.struct members).Shaped (.struct fields))
    (stored : (Draft.struct members).Everywhere Draft.Stored (.struct fields))
    (inside : field ∈ fields) (derived : field.layout = .derived format expr) :
    expr.evaluate (Scope.quantityBy ⟨fields, members⟩ (memberSizes fields members)) =
      .ok (Scope.total ⟨fields, members⟩ expr) := by
  cases valid with
  | struct names references _ =>
      cases shaped with
      | struct whole each =>
          have leaves (pair : Field × Draft) (member : pair ∈ fields.zip members) :
              pair.2.Stored pair.1.layout :=
            (Draft.everywhere_iff.mp (stored.to_part (Draft.part?_member names member))).1
          apply (SizeExpr.evaluate_yields
            (fun (outcome : Except WriteError Int) value => outcome = .ok value)
            (fun _ _ => pure_eq_ok_iff) fun _ _ _ => bind_eq_ok_iff).mpr
          refine ⟨expr.map fun term => Scope.amount ⟨fields, members⟩ term.operand, ?_, rfl⟩
          rw [List.forall₂_map_right_iff, List.forall₂_same]
          intro term used
          exact quantityBy_eq_amount whole each leaves
            (references field inside format expr derived term used)

/-- A size that cannot be encoded has a value that does not fit. -/
theorem misfit_of_encodeSize_eq_error {scope : Scope} {lengths : List Nat} {name : String}
    {format : IntFormat} {expr : SizeExpr Nat} {value : Int} {cause : WriteError}
    (evaluated : expr.evaluate (scope.quantityBy lengths) = .ok value)
    (failed : scope.encodeSize lengths name format expr = .error cause) :
    ¬(format.min ≤ value ∧ value ≤ format.max) ∧
      cause = .overflow name value format.min format.max := by
  rw [← IntFormat.fits_iff]
  simp only [encodeSize, evaluateBy, evaluated, ok_bind, bind_eq_error_iff] at failed
  obtain misfit | ⟨_, -, impossible⟩ := failed
  · split at misfit
    · rename_i outside
      cases misfit
      exact ⟨by simpa using outside, rfl⟩
    · cases misfit
  · cases impossible

end Scope

/-! ### Complete drafts -/

namespace Draft

variable {layout inner : Layout} {draft part : Draft}

/-- A struct that cannot be encoded has a member that cannot. -/
theorem exists_member_of_encode_eq_error {fields : List Field} {members : List Draft}
    {name : String} {cause : WriteError}
    (each : ∀ pair ∈ fields.zip members, pair.2.Shaped pair.1.layout)
    (failed : Draft.encode (.struct fields) name (.struct members) = .error cause) :
    ∃ pair ∈ fields.zip members, Scope.encodeMember ⟨fields, members⟩ (memberSizes fields members)
      pair.1 pair.2 = .error cause := by
  simp only [encode_struct, bind_eq_error_iff, mapM_eq_ok_iff] at failed
  obtain parts | ⟨parts, found, chunks | ⟨_, -, impossible⟩⟩ := failed
  · -- a size that measures nothing is the same in both passes
    obtain ⟨pair, inside, failed⟩ := exists_of_mapM_eq_error parts
    refine ⟨pair, inside, ?_⟩
    unfold Scope.part at failed
    unfold Scope.encodeMember
    split at failed
    · split at failed
      · cases failed
      · rename_i unmeasured
        rw [Scope.encodeSize_of_not_isMeasured (by simpa using unmeasured) _ [], failed]
    · exact failed
  · have lengths : parts.map List.length = memberSizes fields members :=
      map_eq_of_forall₂ found fun pair inside part => Scope.length_part (each pair inside)
    rw [lengths] at chunks
    exact exists_of_mapM_eq_error chunks
  · cases impossible

/-- The parts of a complete draft are complete, or sizes. -/
theorem Complete.of_part {step : Reader.Step} (complete : draft.Complete layout)
    (found : draft.part? layout step = some (inner, part)) :
    part.Complete inner ∨ ∃ format expr, inner = .derived format expr := by
  cases hasPart_of_part? found with
  | @member fields members index field _ declared there =>
      cases complete with
      | struct each _ =>
          have paired : (fields.zip members)[index]? = some (field, part) :=
            List.getElem?_zip_eq_some.mpr ⟨declared, there⟩
          by_cases size : ∃ format expr, field.layout = .derived format expr
          · exact .inr size
          · exact .inl (each _ (List.mem_of_getElem? paired) fun format expr same =>
              size ⟨format, expr, same⟩)
  | element there =>
      cases complete with
      | array each => exact .inl (each _ (List.mem_of_getElem? there))
  | payload declared =>
      cases complete with
      | view selected inside =>
          rw [selected] at declared
          cases declared
          exact .inl inside

theorem Complete.everywhere (complete : draft.Complete layout) :
    draft.Everywhere (fun inner part =>
      part.Complete inner ∨ ∃ format expr, inner = .derived format expr) layout := by
  refine everywhere_of_parts (fun here found => ?_) (.inl complete)
  rcases here with complete | ⟨format, expr, rfl⟩
  · exact complete.of_part found
  · cases found

/-- In a complete draft everything is stored. -/
theorem Complete.stored (complete : draft.Complete layout) :
    draft.Everywhere Stored layout := by
  intro place inner part there
  rcases complete.everywhere place inner part there with complete | ⟨format, expr, rfl⟩
  · cases complete with
    | int | enum => exact ⟨_, rfl⟩
    | view => exact ⟨_, _, rfl⟩
    | _ => trivial
  · trivial

/-- In a complete draft every size fits. -/
theorem Complete.fits {name : String} {format : IntFormat} {value : Int} (valid : layout.Valid)
    (shaped : draft.Shaped layout) (complete : draft.Complete layout)
    (size : draft.HasSize layout name format value) :
    format.min ≤ value ∧ value ≤ format.max := by
  obtain ⟨place, fields, members, there, field, declared, rfl, expr, derived, rfl⟩ := size
  obtain ⟨inner, fit⟩ := shaped.everywhere Layout.Valid.part valid place _ _ there
  rcases complete.everywhere place _ _ there with here | ⟨_, _, impossible⟩
  · have value := Scope.evaluate_eq_total inner fit here.stored declared derived
    cases fit with
    | struct whole each =>
        cases here with
        | struct _ sizes =>
            obtain ⟨index, found⟩ := List.mem_iff_getElem?.mp declared
            obtain ⟨member, -, paired⟩ := Field.exists_member whole found
            obtain ⟨other, evaluated, fits⟩ := sizes _ (List.mem_of_getElem? paired) _ _ derived
            rw [value] at evaluated
            cases evaluated
            exact IntFormat.fits_iff.mp fits
  · cases impossible

/-- **If nothing is missing, an encoding fails at a size that does not fit**, and the failure names
the size and its value. -/
theorem exists_misfit_of_encode_eq_error {name : String} {cause : WriteError}
    (compiled : layout.Compiled) (shaped : draft.Shaped layout)
    (stored : draft.Everywhere Stored layout)
    (plain : ∀ format expr, layout ≠ .derived format expr)
    (failed : draft.encode layout name = .error cause) :
    ∃ label format value, draft.Misfit layout label format value ∧
      cause = .overflow label value format.min format.max := by
  induction shaped generalizing name with
  | int | enum =>
      obtain ⟨word, same⟩ := (everywhere_iff.mp stored).1
      cases same
      cases failed
  | mask | constant => cases failed
  | derived => exact absurd rfl (plain _ _)
  | unselected =>
      obtain ⟨index, payload, same⟩ := (everywhere_iff.mp stored).1
      cases same
  | @struct fields members whole each ih =>
      obtain ⟨⟨field, member⟩, inside, failed⟩ := exists_member_of_encode_eq_error each failed
      have declared : field ∈ fields := (List.of_mem_zip inside).1
      unfold Scope.encodeMember at failed
      split at failed
      · rename_i format expr derived
        obtain ⟨misfit, same⟩ := Scope.misfit_of_encodeSize_eq_error
          (Scope.evaluate_eq_total compiled.valid (.struct whole each) stored declared derived) failed
        have size : (Draft.struct members).HasSize (.struct fields) field.name format
            (Scope.total ⟨fields, members⟩ expr) :=
          ⟨[], fields, members, rfl, field, declared, rfl, expr, derived, rfl⟩
        exact ⟨field.name, format, _, ⟨size, misfit⟩, same⟩
      · rename_i plain
        cases compiled.valid with
        | struct names _ _ =>
            have found := part?_member names inside
            obtain ⟨label, format, value, misfit, same⟩ :=
              ih _ inside (compiled.member declared) (stored.to_part found) plain failed
            exact ⟨label, format, value, misfit.of_part found, same⟩
  | @array element length elements counted each ih =>
      simp only [Draft.encode, bind_eq_error_iff, encodeElements_eq_mapM] at failed
      obtain chunks | ⟨_, -, impossible⟩ := failed
      · obtain ⟨draft, inside, failed⟩ := exists_of_mapM_eq_error chunks
        obtain ⟨step, found⟩ := exists_part?_element inside
        obtain ⟨spec, own, order, alone⟩ := compiled.partsCompiled
        obtain ⟨label, format, value, misfit, same⟩ :=
          ih draft inside compiled.element (stored.to_part found)
            (LayoutSpec.ne_derived_of_compile alone) failed
        exact ⟨label, format, value, misfit.of_part found, same⟩
      · cases impossible
  | @view key variants index variant payload selected inside ih =>
      simp only [Draft.encode, selected, bind_eq_error_iff] at failed
      obtain failed | ⟨_, -, impossible⟩ := failed
      · have declared := List.mem_of_getElem? selected
        have found := @part?_active key variants variant index payload selected
        obtain ⟨spec, own, order, alone⟩ := compiled.partsCompiled variant declared
        obtain ⟨label, format, value, misfit, same⟩ :=
          ih (compiled.payload declared) (stored.to_part found)
            (LayoutSpec.ne_derived_of_compile alone) failed
        exact ⟨label, format, value, misfit.of_part found, same⟩
      · cases impossible

end Draft

/-! ### Records that can be written -/

namespace Schema

variable {specs : List FieldSpec} {order : ByteOrder} {schema : Schema}

/-- **A record can be written exactly when it is complete**, and so can every struct in it: every
leaf is stored, every view has a selection, and every size has a value that its format holds. If only
the sizes are at fault, the reason names a size that does not fit, with its value. -/
theorem toBuffer_ok_iff_complete (compiled : Schema.compile specs order = .ok schema)
    (operations : List Operation) {place : Reader.Path} {fields : List Field} {members : List Draft}
    (reached : (schema.build operations).at? schema.root place =
      some (.struct fields, .struct members)) :
    let layout := Layout.struct fields
    let draft := Draft.struct members
    ((∃ bytes, draft.toBuffer layout = .ok bytes) ↔
      draft.Everywhere Draft.Stored layout ∧ ∀ name format value,
        draft.HasSize layout name format value → format.min ≤ value ∧ value ≤ format.max) ∧
    (draft.Everywhere Draft.Stored layout →
      (∃ name format value, draft.Misfit layout name format value) →
      ∃ name format value, draft.Misfit layout name format value ∧
        draft.toBuffer layout = .error (.overflow name value format.min format.max)) := by
  intro layout draft
  obtain ⟨whole, shaped⟩ : layout.Compiled ∧ draft.Shaped layout :=
    (schema.shaped_build operations).everywhere Layout.Compiled.of_contains (compiled_root compiled)
      place _ _ reached
  have bytes := Draft.toBuffer_eq whole.valid shaped
  cases encoded : draft.encode layout "" with
  | ok chunk =>
      have complete := Draft.complete_of_encode shaped encoded
      rw [encoded] at bytes
      refine ⟨iff_of_true ⟨_, bytes⟩ ⟨complete.stored, fun _ _ _ => ?_⟩, ?_⟩
      · exact complete.fits whole.valid shaped
      · rintro - ⟨name, format, value, size, misfit⟩
        exact absurd (complete.fits whole.valid shaped size) misfit
  | error cause =>
      rw [encoded] at bytes
      have blame (stored : draft.Everywhere Draft.Stored layout) :
          ∃ name format value, draft.Misfit layout name format value ∧
            draft.toBuffer layout = .error (.overflow name value format.min format.max) := by
        obtain ⟨name, format, value, misfit, rfl⟩ :=
          Draft.exists_misfit_of_encode_eq_error whole shaped stored nofun encoded
        exact ⟨name, format, value, misfit, bytes⟩
      refine ⟨iff_of_false ?_ ?_, fun stored _ => blame stored⟩
      · rintro ⟨written, found⟩
        rw [bytes] at found
        cases found
      · rintro ⟨stored, fits⟩
        obtain ⟨name, format, value, ⟨size, misfit⟩, -⟩ := blame stored
        exact misfit (fits name format value size)

/-- A list that stores the index of its last item, which an empty list does not have. -/
def sampleList : List FieldSpec :=
  let byte : IntSpec := ⟨1, false, none⟩
  [⟨"last", .derived byte [⟨false, .countOf "items"⟩, ⟨true, .const 1⟩]⟩,
    ⟨"items", .array (.int byte) (.bounded 4 byte)⟩]

/-- The layout of the list. -/
def sampleListFields : List Field :=
  let byte : IntFormat := ⟨.one, false, .big⟩
  [⟨"last", .derived byte [⟨false, .countOf 1⟩, ⟨true, .const 1⟩]⟩,
    ⟨"items", .array (.int byte) (.bounded 4 byte)⟩]

theorem toBuffer_ok_iff_complete_sampleList :
    let layout := Layout.struct sampleListFields
    let draft := Draft.struct [.computed, .array []]
    Schema.compile sampleList .big = .ok ⟨sampleListFields⟩ ∧
      draft.Everywhere Draft.Stored layout ∧
      draft.Misfit layout "last" ⟨.one, false, .big⟩ (-1) ∧
      ∃ name format value, draft.Misfit layout name format value ∧
        draft.toBuffer layout = .error (.overflow name value format.min format.max) := by
  intro layout draft
  have compiled : Schema.compile sampleList .big = .ok ⟨sampleListFields⟩ := rfl
  have reached : (Schema.build ⟨sampleListFields⟩ []).at? (Schema.root ⟨sampleListFields⟩) [] =
      some (layout, draft) := rfl
  have stored : Draft.Everywhere Draft.Stored (.struct sampleListFields)
      (.struct [.computed, .array []]) := by
    refine Draft.everywhere_iff.mpr ⟨trivial, fun step inner part found => ?_⟩
    cases Draft.hasPart_of_part? found with
    | @member _ _ index _ _ declared there =>
        -- neither the size nor the empty array has parts
        rcases index with _ | _ | index
        · cases declared
          cases there
          refine Draft.everywhere_iff.mpr ⟨trivial, fun _ _ _ found => ?_⟩
          cases Draft.hasPart_of_part? found
        · cases declared
          cases there
          refine Draft.everywhere_iff.mpr ⟨trivial, fun _ _ _ found => ?_⟩
          cases Draft.hasPart_of_part? found with
          | element there => cases there
        · cases declared
  have misfit : draft.Misfit layout "last" ⟨.one, false, .big⟩ (-1) :=
    ⟨⟨[], sampleListFields, _, rfl, _, List.mem_cons_self, rfl, _, rfl, by decide⟩, by decide⟩
  exact ⟨compiled, stored, misfit,
    (toBuffer_ok_iff_complete compiled [] reached).2 stored ⟨_, _, _, misfit⟩⟩

end Schema

end RecordLayout
