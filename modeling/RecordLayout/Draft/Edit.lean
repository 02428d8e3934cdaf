/-
**Editing a draft.**

A part of a draft is reached by a path of steps from the root: to a member of a struct, to an
element of an array, to the payload of a view. Two kinds of step change the draft: appending an
element to a bounded array, and selecting a variant of a view that has none selected yet.

An edit at the end of a path stores a value, switches a flag, appends or selects. When a step or
the edit is refused, what the steps before it have done stays done; a refused edit of a single part
leaves the part as it was.
-/

import RecordLayout.Draft
import RecordLayout.Schema

namespace RecordLayout

/-- What is known of the part of a draft that is being edited. -/
structure Site where
  /-- The name of the field; elements have the name of their array, payloads of their variant. -/
  name : String
  layout : Layout

/-- A run of changes to a part of a draft; a refusal keeps the part as the run left it. -/
abbrev Edit := EStateM WriteError Draft

namespace Draft

/-! ### Storing values -/

/-- The draft of a number in an integer format. -/
def ofNumber (name : String) (format : IntFormat) (value : Int) : Except WriteError Draft :=
  if format.fits value then .ok (.scalar (some (format.toWord value)))
  else .error (.overflow name value format.min format.max)

/-- The draft of an unsigned number, which may also be the value of an enumeration. -/
def ofUnsigned (site : Site) (value : UInt64) : Except WriteError Draft :=
  match site.layout with
  | .int format => ofNumber site.name format value.toNat
  | .enum enumeration =>
      match enumeration.nameOf? value with
      | some _ => .ok (.scalar (some value))
      | none => .error (.unknownEnumVariant (toString value.toNat))
  | .constant _ _ => .error (.readOnly site.name)
  | .derived _ _ => .error (.readOnly site.name)
  | _ => .error (.wrongKind site.name)

/-- The draft of a signed number. -/
def ofSigned (site : Site) (value : Int) : Except WriteError Draft :=
  match site.layout with
  | .int format => ofNumber site.name format value
  | .constant _ _ => .error (.readOnly site.name)
  | .derived _ _ => .error (.readOnly site.name)
  | _ => .error (.wrongKind site.name)

/-- The draft of a named value of an enumeration. -/
def ofVariant (site : Site) (variant : String) : Except WriteError Draft :=
  match site.layout with
  | .enum enumeration =>
      match enumeration.valueOf? variant with
      | some value => .ok (.scalar (some value))
      | none => .error (.unknownEnumVariant variant)
  | _ => .error (.wrongKind site.name)

/-! ### Views of a part -/

/-- The mask that is being edited, and its bytes. -/
def asMask (site : Site) (draft : Draft) : Except WriteError (Mask × Bytes) :=
  match site.layout, draft with
  | .mask declared, .mask bytes => .ok (declared, bytes)
  | _, _ => .error (.wrongKind site.name)

/-- The fields of the struct that is being edited, and the drafts of its members. -/
def asStruct (site : Site) (draft : Draft) : Except WriteError (List Field × List Draft) :=
  match site.layout, draft with
  | .struct fields, .struct members => .ok (fields, members)
  | _, _ => .error (.wrongKind site.name)

/-- The array that is being edited: element layout, length and the drafts of its elements. -/
def asArray (site : Site) (draft : Draft) :
    Except WriteError (Layout × ArrayLength IntFormat × List Draft) :=
  match site.layout, draft with
  | .array element length, .array elements => .ok (element, length, elements)
  | _, _ => .error (.wrongKind site.name)

/-- The view that is being edited: its variants and its selection. -/
def asView (site : Site) (draft : Draft) :
    Except WriteError (List Variant × Option (Nat × Draft)) :=
  match site.layout, draft with
  | .view _ variants, .view selection => .ok (variants, selection)
  | _, _ => .error (.wrongKind site.name)

/-- The mask with a flag set or cleared. -/
def setFlag (site : Site) (flag : String) (on : Bool) (draft : Draft) : Except WriteError Draft := do
  let (declared, bytes) ← draft.asMask site
  return .mask (← declared.set bytes flag on)

/-- The stored bit of a flag. -/
def getFlag (site : Site) (flag : String) (draft : Draft) : Except WriteError Bool := do
  let (declared, bytes) ← draft.asMask site
  declared.get bytes flag

/-- The key of the selected variant. -/
def selectedKey? (site : Site) (draft : Draft) : Except WriteError (Option UInt64) := do
  let (variants, selection) ← draft.asView site
  return selection.bind fun (index, _) => variants[index]?.map (·.key)

/-- Whether an array takes no further element. -/
def isFull (length : ArrayLength IntFormat) (count : Nat) : Bool :=
  match length with
  | .fixed _ => true
  | .bounded capacity _ => capacity.toNat ≤ count

/-- The payload of the variant at `index`: the selected one, or a blank one if none is selected. -/
def select (variants : List Variant) (index : Nat) (variant : Variant) :
    Option (Nat × Draft) → Except WriteError Draft
  | none => .ok variant.layout.blank
  | some (current, payload) =>
      if current = index then .ok payload
      else
        let selected := match variants[current]? with
          | some other => other.key
          | none => 0
        .error (.alreadySelected selected variant.key)

end Draft

namespace Edit

/-- Replaces the part by what `change` makes of it; a refusal leaves it. -/
def update (change : Draft → Except WriteError Draft) : Edit Unit := fun draft =>
  match change draft with
  | .ok next => .ok () next
  | .error cause => .error cause draft

/-- What `look` finds in the part. -/
def inspect {α : Type} (look : Draft → Except WriteError α) : Edit α := fun draft =>
  match look draft with
  | .ok answer => .ok answer draft
  | .error cause => .error cause draft

/-- Edits `part` and puts it back into the whole by `rebuild`, also after a refusal. -/
def within {α : Type} (part : Draft) (rebuild : Draft → Draft) (edit : Edit α) : Edit α := fun _ =>
  match edit part with
  | .ok answer part => .ok answer (rebuild part)
  | .error cause part => .error cause (rebuild part)

/-! ### Steps -/

/-- Edits the member of a struct with a name. -/
def atMember {α : Type} (site : Site) (name : String) (edit : Site → Edit α) : Edit α := do
  let (fields, members) ← inspect (Draft.asStruct site)
  match Field.indexOf? fields name with
  | none => throw (.unknownField name)
  | some index =>
      match fields[index]?, members[index]? with
      | some field, some member =>
          within member (fun part => .struct (members.set index part))
            (edit ⟨field.name, field.layout⟩)
      | _, _ => throw (.unknownField name)

/-- Edits the element of an array with an index. -/
def atElement {α : Type} (site : Site) (index : Nat) (edit : Site → Edit α) : Edit α := do
  let (element, _, elements) ← inspect (Draft.asArray site)
  match elements[index]? with
  | none => throw (.indexOutOfRange index elements.length)
  | some draft =>
      within draft (fun part => .array (elements.set index part)) (edit ⟨site.name, element⟩)

/-- Appends an element to a bounded array and edits it. -/
def atNewElement {α : Type} (site : Site) (edit : Site → Edit α) : Edit α := do
  let (element, length, elements) ← inspect (Draft.asArray site)
  if Draft.isFull length elements.length then
    throw (.capacityExceeded site.name length.capacity)
  within element.blank (fun part => .array (elements ++ [part])) (edit ⟨site.name, element⟩)

/-- Selects the variant at `index`, if there is one, and edits its payload. -/
def atVariant {α : Type} (variants : List Variant) (selection : Option (Nat × Draft))
    (index? : Option Nat) (unknown : WriteError) (edit : Site → Edit α) : Edit α :=
  match index?.bind fun index => variants[index]?.map fun variant => (index, variant) with
  | none => throw unknown
  | some (index, variant) => do
      let payload ← inspect fun _ => Draft.select variants index variant selection
      within payload (fun part => .view (some (index, part))) (edit ⟨variant.name, variant.layout⟩)

/-- Selects the variant with a key and edits its payload. -/
def atKey {α : Type} (site : Site) (key : UInt64) (edit : Site → Edit α) : Edit α := do
  let (variants, selection) ← inspect (Draft.asView site)
  atVariant variants selection (Variant.indexOfKey? variants key) (.unknownVariant key) edit

/-- Selects the variant with a name and edits its payload. -/
def atNamed {α : Type} (site : Site) (name : String) (edit : Site → Edit α) : Edit α := do
  let (variants, selection) ← inspect (Draft.asView site)
  atVariant variants selection (Variant.indexOfName? variants name) (.unknownVariantName name) edit

/-- A step from a part of a draft to a part of it. -/
inductive Step where
  | member (name : String)
  | element (index : Nat)
  /-- To a new element at the end of a bounded array. -/
  | append
  /-- To the payload of the variant with a key, which is selected by the step. -/
  | key (value : UInt64)
  /-- To the payload of the variant with a name, which is selected by the step. -/
  | variant (name : String)

/-- Takes a step and edits the part it leads to. -/
def enter {α : Type} (site : Site) (step : Step) (edit : Site → Edit α) : Edit α :=
  match step with
  | .member name => atMember site name edit
  | .element index => atElement site index edit
  | .append => atNewElement site edit
  | .key value => atKey site value edit
  | .variant name => atNamed site name edit

/-- Follows a path and edits the part it leads to. -/
def along {α : Type} : (path : List Step) → (edit : Site → Edit α) → Site → Edit α
  | [], edit, site => edit site
  | step :: rest, edit, site => enter site step (along rest edit)

/-! ### Actions -/

/-- A change to one part of a draft. -/
inductive Action where
  /-- Stores an unsigned number, or an enumeration by its value. -/
  | set (value : UInt64)
  | setSigned (value : Int)
  /-- Stores an enumeration by its name. -/
  | setEnum (variant : String)
  | setFlag (flag : String) (on : Bool)
  /-- Appends a blank element. -/
  | push
  /-- Appends an element and stores an unsigned number in it. -/
  | pushValue (value : UInt64)
  | select (key : UInt64)
  | selectNamed (name : String)

/-- Carries out an action. -/
def Action.run (site : Site) : Action → Edit Unit
  | .set value => update fun _ => Draft.ofUnsigned site value
  | .setSigned value => update fun _ => Draft.ofSigned site value
  | .setEnum variant => update fun _ => Draft.ofVariant site variant
  | .setFlag flag on => update (Draft.setFlag site flag on)
  | .push => atNewElement site fun _ => pure ()
  | .pushValue value => atNewElement site fun element => update fun _ => Draft.ofUnsigned element value
  | .select key => atKey site key fun _ => pure ()
  | .selectNamed name => atNamed site name fun _ => pure ()

end Edit

/-- The draft of a record in which nothing is stored. -/
def Schema.blank (schema : Schema) : Draft := schema.root.blank

/-- The record as the site of an edit. -/
def Schema.site (schema : Schema) : Site := ⟨"", schema.root⟩

/-- Follows a path from the root of a record and edits the part it leads to. -/
def Schema.edit {α : Type} (schema : Schema) (path : List Edit.Step) (edit : Site → Edit α) :
    Edit α :=
  Edit.along path edit schema.site

end RecordLayout
