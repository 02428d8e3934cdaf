/-
**What is missing when nothing seems to be.**

A part reports that it is set unless it is a leaf without a word (`Draft.isSet`). A view without a
selection has nothing to write either, and yet it counts as set. So a record all of whose parts report
that they are set may still be refused for a part that is not set, and this part is such a view.

* `Draft.Called`: a part of a draft with a property, and the name that a refusal gives to it.
* `Draft.called_of_encode_eq_error`: an encoding fails because of a part that is not stored, which is
  named, or because of a size that does not fit.
* `Draft.Called.unselected`: where every part reports that it is set, what is not stored is a view.
* `Schema.notSet_iff_unselected`: the records whose parts are all set, and which of them are refused
  for a part that is not.
-/

import RecordLayout.Proofs.Completeness

namespace RecordLayout

namespace Draft

/-! ### Parts and their names -/

/-- **A part with a property, by its name**: a member has the name of its field, an element the name
of its array, a payload the name of its variant. -/
inductive Called (holds : Layout → Draft → Prop) :
    Layout → (name : String) → Draft → (label : String) → Prop where
  | here {layout : Layout} {name : String} {draft : Draft} (found : holds layout draft) :
      Called holds layout name draft name
  | member {fields : List Field} {members : List Draft} {name label : String} {field : Field}
      {part : Draft} (inside : (field, part) ∈ fields.zip members)
      (inner : Called holds field.layout field.name part label) :
      Called holds (.struct fields) name (.struct members) label
  | element {element : Layout} {length : ArrayLength IntFormat} {elements : List Draft}
      {name label : String} {part : Draft} (inside : part ∈ elements)
      (inner : Called holds element name part label) :
      Called holds (.array element length) name (.array elements) label
  | payload {key : IntFormat} {variants : List Variant} {index : Nat} {variant : Variant}
      {name label : String} {part : Draft} (selected : variants[index]? = some variant)
      (inner : Called holds variant.layout variant.name part label) :
      Called holds (.view key variants) name (.view (some (index, part))) label

/-- What has to be stored in the part is not. -/
def Missing (layout : Layout) (draft : Draft) : Prop := ¬draft.Stored layout

/-- The part is a view without a selection. -/
def Unselected (layout : Layout) (draft : Draft) : Prop :=
  ∃ key variants, layout = .view key variants ∧ draft = .view none

variable {layout : Layout} {draft : Draft} {name label : String}

/-- **A missing part that reports that it is set is a view without a selection.** -/
theorem Missing.unselected (missing : draft.Missing layout) (shaped : draft.Shaped layout)
    (set : draft.isSet = true) : draft.Unselected layout := by
  cases shaped with
  | @int _ stored _ | @enum _ stored _ =>
      cases stored with
      | none => cases set
      | some word => exact absurd ⟨word, rfl⟩ missing
  | unselected => exact ⟨_, _, rfl, rfl⟩
  | @view _ _ index _ payload _ _ => exact absurd ⟨index, payload, rfl⟩ missing
  | _ => exact absurd trivial missing

/-- The parts of a draft in which everything is set. -/
theorem Called.unselected (called : draft.Called Missing layout name label) (valid : layout.Valid)
    (shaped : draft.Shaped layout)
    (set : draft.Everywhere (fun _ part => part.isSet = true) layout) :
    draft.Called Unselected layout name label := by
  induction called with
  | here missing => exact .here (missing.unselected shaped (everywhere_iff.mp set).1)
  | member inside inner ih =>
      cases shaped with
      | struct whole each =>
          have declared := (List.of_mem_zip inside).1
          cases valid with
          | struct names _ members =>
              exact .member inside (ih (members _ declared) (each _ inside)
                (set.to_part (part?_member names inside)))
  | element inside inner ih =>
      cases shaped with
      | array counted each =>
          obtain ⟨step, found⟩ := exists_part?_element inside
          exact .element inside (ih valid.element (each _ inside) (set.to_part found))
  | payload selected inner ih =>
      cases shaped with
      | view again fits =>
          rw [selected] at again
          cases again
          exact .payload selected (ih (valid.payload (List.mem_of_getElem? selected)) fits
            (set.to_part (part?_active selected)))

/-- A part with a name is at a place. -/
theorem Called.exists_at? {holds : Layout → Draft → Prop}
    (called : draft.Called holds layout name label) (valid : layout.Valid) :
    ∃ place inner part, draft.at? layout place = some (inner, part) ∧ holds inner part := by
  have goes {whole inner : Layout} {draft part : Draft} {step : Reader.Step}
      (found : draft.part? whole step = some (inner, part))
      (rest : ∃ place last leaf, part.at? inner place = some (last, leaf) ∧ holds last leaf) :
      ∃ place last leaf, draft.at? whole place = some (last, leaf) ∧ holds last leaf := by
    obtain ⟨place, last, leaf, there, true⟩ := rest
    refine ⟨step :: place, last, leaf, ?_, true⟩
    rw [at?, found]
    exact there
  induction called with
  | here found => exact ⟨[], _, _, rfl, found⟩
  | member inside inner ih =>
      have declared := (List.of_mem_zip inside).1
      cases valid with
      | struct names _ members => exact goes (part?_member names inside) (ih (members _ declared))
  | element inside inner ih =>
      obtain ⟨step, found⟩ := exists_part?_element inside
      exact goes found (ih valid.element)
  | payload selected inner ih =>
      exact goes (part?_active selected) (ih (valid.payload (List.mem_of_getElem? selected)))

/-! ### Why an encoding fails -/

/-- **The reason why a part cannot be encoded**: something is missing and named, or a size does not
fit. -/
def Blames (layout : Layout) (name : String) (draft : Draft) (cause : WriteError) : Prop :=
  (∃ label, cause = .notSet label ∧ draft.Called Missing layout name label) ∨
    ∃ label value low high, cause = .overflow label value low high

theorem Blames.of_called {inner : Layout} {own : String} {part : Draft} {cause : WriteError}
    (blames : part.Blames inner own cause)
    (outer : ∀ label, part.Called Missing inner own label → draft.Called Missing layout name label) :
    draft.Blames layout name cause := by
  refine blames.imp_left ?_
  rintro ⟨label, same, called⟩
  exact ⟨label, same, outer label called⟩

/-- A size that cannot be encoded uses the value of a member that has none, or does not fit. -/
theorem blames_of_encodeSize_eq_error {fields : List Field} {members : List Draft}
    {lengths : List Nat} {field : Field} {format : IntFormat} {expr : SizeExpr Nat}
    {cause : WriteError} (whole : members.length = fields.length)
    (each : ∀ pair ∈ fields.zip members, pair.2.Shaped pair.1.layout)
    (refers : ∀ term ∈ expr, term.operand.RefersTo fields)
    (failed : Scope.encodeSize ⟨fields, members⟩ lengths field.name format expr = .error cause) :
    (Draft.struct members).Blames (.struct fields) name cause := by
  simp only [Scope.encodeSize, Scope.evaluateBy, bind_eq_error_iff] at failed
  obtain (unresolved | ⟨value, -, misfit⟩) | ⟨_, -, impossible⟩ := failed
  · obtain ⟨term, inside, failed⟩ := SizeExpr.exists_of_evaluate_eq_error unresolved
    have known := refers term inside
    generalize term.operand = operand at failed known
    cases operand with
    | valueOf index =>
        obtain ⟨sibling, declared, hasValue⟩ := known
        obtain ⟨member, there, paired⟩ := Field.exists_member whole declared
        have beside := List.mem_of_getElem? paired
        simp only [Scope.quantityBy, Scope.valueOf, declared, there] at failed
        split at failed
        · cases failed
        · rename_i unknown
          cases failed
          refine .inl ⟨sibling.name, rfl, .member beside (.here fun stored => ?_)⟩
          obtain ⟨value, known⟩ := (each _ beside).exists_number? stored hasValue
          rw [known] at unknown
          cases unknown
    | _ => cases failed
  · split at misfit
    · cases misfit
      exact .inr ⟨_, _, _, _, rfl⟩
    · cases misfit
  · cases impossible

/-- **An encoding fails for a reason**: a part that is not stored, or a size that does not fit. -/
theorem called_of_encode_eq_error {cause : WriteError} (compiled : layout.Compiled)
    (shaped : draft.Shaped layout) (plain : ∀ format expr, layout ≠ .derived format expr)
    (failed : draft.encode layout name = .error cause) : draft.Blames layout name cause := by
  induction shaped generalizing name with
  | @int _ stored _ | @enum _ stored _ =>
      cases stored with
      | none =>
          cases failed
          refine .inl ⟨name, rfl, .here ?_⟩
          rintro ⟨word, same⟩
          cases same
      | some word => cases failed
  | mask | constant => cases failed
  | derived => exact absurd rfl (plain _ _)
  | unselected =>
      cases failed
      refine .inl ⟨name, rfl, .here ?_⟩
      rintro ⟨index, payload, same⟩
      cases same
  | @struct fields members whole each ih =>
      obtain ⟨⟨field, member⟩, inside, failed⟩ := exists_member_of_encode_eq_error each failed
      have declared : field ∈ fields := (List.of_mem_zip inside).1
      unfold Scope.encodeMember at failed
      split at failed
      · rename_i format expr derived
        cases compiled.valid with
        | struct _ references _ =>
            exact blames_of_encodeSize_eq_error whole each
              (references field declared format expr derived) failed
      · rename_i plain
        exact (ih _ inside (compiled.member declared) plain failed).of_called fun label =>
          .member inside
  | @array element length elements counted each ih =>
      simp only [Draft.encode, bind_eq_error_iff, encodeElements_eq_mapM] at failed
      obtain chunks | ⟨_, -, impossible⟩ := failed
      · obtain ⟨draft, inside, failed⟩ := exists_of_mapM_eq_error chunks
        obtain ⟨spec, own, order, alone⟩ := compiled.partsCompiled
        exact (ih draft inside compiled.element (LayoutSpec.ne_derived_of_compile alone)
          failed).of_called fun label => .element inside
      · cases impossible
  | @view key variants index variant payload selected inside ih =>
      simp only [Draft.encode, selected, bind_eq_error_iff] at failed
      obtain failed | ⟨_, -, impossible⟩ := failed
      · have declared := List.mem_of_getElem? selected
        obtain ⟨spec, own, order, alone⟩ := compiled.partsCompiled variant declared
        exact (ih (compiled.payload declared) (LayoutSpec.ne_derived_of_compile alone)
          failed).of_called fun label => .payload selected
      · cases impossible

theorem toBuffer_eq_error_iff {cause : WriteError} (valid : layout.Valid)
    (shaped : draft.Shaped layout) :
    draft.toBuffer layout = .error cause ↔ draft.encode layout "" = .error cause := by
  rw [toBuffer_eq valid shaped]
  cases draft.encode layout "" with
  | ok chunk => exact iff_of_false nofun nofun
  | error other => rw [Except.map, Except.error.injEq, Except.error.injEq]

end Draft

namespace Schema

variable {specs : List FieldSpec} {order : ByteOrder} {schema : Schema}

/-- **What is missing when nothing seems to be.** Every part of a struct of a record reports that it
is set. Then the struct is refused for a part that is not set exactly when some view in it has no
selection and no size is at fault first, and the refusal names such a view. In particular a struct all
of whose views have a selection is never refused so. -/
theorem notSet_iff_unselected (compiled : Schema.compile specs order = .ok schema)
    (operations : List Operation) {place : Reader.Path} {fields : List Field} {members : List Draft}
    (reached : (schema.build operations).at? schema.root place =
      some (.struct fields, .struct members))
    (set : (Draft.struct members).Everywhere (fun _ part => part.isSet = true) (.struct fields)) :
    let layout := Layout.struct fields
    let draft := Draft.struct members
    ((∃ label, draft.toBuffer layout = .error (.notSet label)) ↔
      (∃ inside inner part, draft.at? layout inside = some (inner, part) ∧ part.Unselected inner) ∧
        ∀ label value low high,
          draft.toBuffer layout ≠ .error (.overflow label value low high)) ∧
    ∀ label, draft.toBuffer layout = .error (.notSet label) →
      draft.Called Draft.Unselected layout "" label := by
  intro layout draft
  obtain ⟨whole, shaped⟩ : layout.Compiled ∧ draft.Shaped layout :=
    (schema.shaped_build operations).everywhere Layout.Compiled.of_contains (compiled_root compiled)
      place _ _ reached
  have failed {cause : WriteError} := @Draft.toBuffer_eq_error_iff _ _ cause whole.valid shaped
  have named (label : String) (refused : draft.toBuffer layout = .error (.notSet label)) :
      draft.Called Draft.Unselected layout "" label := by
    obtain ⟨other, same, called⟩ | ⟨_, _, _, _, same⟩ :=
      Draft.called_of_encode_eq_error whole shaped nofun (failed.mp refused)
    · cases same
      exact called.unselected whole.valid shaped set
    · cases same
  refine ⟨⟨?_, ?_⟩, named⟩
  · rintro ⟨label, refused⟩
    refine ⟨(named label refused).exists_at? whole.valid, fun _ _ _ _ other => ?_⟩
    rw [refused] at other
    cases other
  · rintro ⟨⟨inside, _, _, there, key, variants, rfl, rfl⟩, fits⟩
    cases encoded : draft.encode layout "" with
    | ok chunk =>
        -- whatever can be encoded has a selection in all its views
        obtain ⟨index, payload, same⟩ :=
          (Draft.complete_of_encode shaped encoded).stored inside _ _ there
        cases same
    | error cause =>
        obtain ⟨label, rfl, -⟩ | ⟨label, value, low, high, rfl⟩ :=
          Draft.called_of_encode_eq_error whole shaped nofun encoded
        · exact ⟨label, failed.mpr encoded⟩
        · exact absurd (failed.mpr encoded) (fits label value low high)

/-- A record that is one view. -/
def sampleChoice : List FieldSpec :=
  let byte : IntSpec := ⟨1, false, none⟩
  [⟨"choice", .view byte [⟨"number", 1, .int byte⟩]⟩]

def sampleChoiceSchema : Schema :=
  let byte : IntFormat := ⟨.one, false, .big⟩
  ⟨[⟨"choice", .view byte [⟨"number", 1, .int byte⟩]⟩]⟩

/-- All the parts of the blank record report that they are set. -/
theorem isSet_sampleChoice : sampleChoiceSchema.blank.Everywhere (fun _ part => part.isSet = true)
    sampleChoiceSchema.root := by
  refine Draft.everywhere_iff.mpr ⟨rfl, fun step inner part found => ?_⟩
  cases Draft.hasPart_of_part? found with
  | @member _ _ index field _ declared there =>
      cases index with
      | zero =>
          cases declared
          cases there
          refine Draft.everywhere_iff.mpr ⟨rfl, fun step inner part found => ?_⟩
          cases Draft.hasPart_of_part? found
      | succ index => cases declared

theorem notSet_iff_unselected_sampleChoice :
    Schema.compile sampleChoice .big = .ok sampleChoiceSchema ∧
      sampleChoiceSchema.blank.Called Draft.Unselected sampleChoiceSchema.root "" "choice" := by
  have compiled : Schema.compile sampleChoice .big = .ok sampleChoiceSchema := rfl
  have whole : (sampleChoiceSchema.build []).at? sampleChoiceSchema.root [] =
    some (sampleChoiceSchema.root, sampleChoiceSchema.blank) := rfl
  obtain ⟨-, named⟩ := notSet_iff_unselected compiled [] whole isSet_sampleChoice
  exact ⟨compiled, named "choice" rfl⟩

/-- **Nothing seems to be missing, and something is.** -/
theorem toBuffer_sampleChoice_eq_notSet :
    Schema.compile sampleChoice .big = .ok sampleChoiceSchema ∧
      (sampleChoiceSchema.build []).Everywhere (fun _ part => part.isSet = true)
        sampleChoiceSchema.root ∧
      (sampleChoiceSchema.build []).toBuffer sampleChoiceSchema.root =
        .error (.notSet "choice") :=
  ⟨rfl, isSet_sampleChoice, rfl⟩

end Schema

end RecordLayout
