/-
**Byte orders show in the bytes and nowhere else.**

Two descriptions that differ only in their byte orders describe records that nobody can tell apart
without looking at the bytes. They compile or fail alike, every operation on a draft is answered alike,
the drafts are written or refused alike, and what is written reads back as the same value.

A draft holds words and not bytes, so both records have the same drafts. The comparison goes through
the layout with the order of every integer renamed (`Layout.reorder`): each function on drafts is shown
to be blind to the renaming, and two layouts that differ in their orders become one when every order is
renamed to the same.

* `Edit.along_reorder`, `Edit.Action.run_reorder`: edits do not see byte orders.
* `Draft.encode_reorder`: the encoding has the same length, or fails for the same reason.
* `Draft.value?_reorder`: the draft stands for the same value.
* `Schema.byteOrder_unobservable`: whole runs, from the descriptions to the values read back.
-/

import RecordLayout.Proofs.OrderInheritance
import RecordLayout.Proofs.RoundTrip

namespace RecordLayout

variable {rename : ByteOrder → ByteOrder}

/-! ### Drafts -/

/-- The blank draft does not depend on byte orders. -/
@[simp]
theorem Layout.blank_reorder (layout : Layout) : (layout.reorder rename).blank = layout.blank := by
  induction layout with
  | struct fields ih =>
      rw [Layout.reorder, Layout.blank, Layout.blank, reorderFields_eq_map, blankMembers_eq_map,
        blankMembers_eq_map, List.map_map]
      exact congrArg Draft.struct (List.map_congr_left ih)
  | array element length ih =>
      cases length with
      | fixed count => rw [Layout.reorder, ArrayLength.reorder, Layout.blank, ih, Layout.blank]
      | bounded _ _ => rfl
  | _ => rfl

theorem ArrayLength.counterWidth_reorder (length : ArrayLength IntFormat) :
    (length.reorder rename).counterWidth = length.counterWidth := by
  cases length <;> rfl

/-- **The size of a draft does not depend on byte orders.** -/
@[simp]
theorem Draft.size_reorder (layout : Layout) (draft : Draft) :
    draft.size (layout.reorder rename) = draft.size layout := by
  -- a draft of another kind than its layout counts as the width of the layout
  have width (layout : Layout) :
      (layout.reorder rename).width?.getD 0 = layout.width?.getD 0 := by
    rw [Layout.width?_reorder]
  induction layout generalizing draft with
  | int _ | enum _ | mask _ | constant _ _ | derived _ _ => cases draft <;> rfl
  | struct fields ih =>
      cases draft with
      | struct members =>
          rw [Layout.reorder, Draft.size, Draft.size, reorderFields_eq_map, membersSize_eq_sum,
            membersSize_eq_sum, List.zip_map_left, List.map_map]
          refine congrArg List.sum (List.map_congr_left fun pair inside => ?_)
          exact ih pair.1 (List.of_mem_zip inside).1 pair.2
      | _ => exact width (.struct fields)
  | array element length ih =>
      cases draft with
      | array elements =>
          rw [Layout.reorder, Draft.size, Draft.size, ArrayLength.counterWidth_reorder,
            elementsSize_eq_sum, elementsSize_eq_sum]
          exact congrArg (length.counterWidth + ·.sum) (List.map_congr_left fun draft _ => ih draft)
      | _ => exact width (.array element length)
  | view key variants ih =>
      cases draft with
      | view selection =>
          cases selection with
          | none => rfl
          | some selected =>
              obtain ⟨index, payload⟩ := selected
              rw [Layout.reorder, Draft.size, Draft.size, reorderVariants_eq_map, List.getElem?_map]
              cases declared : variants[index]? with
              | none => rfl
              | some variant =>
                  exact congrArg (key.bytes + ·)
                    (ih variant (List.mem_of_getElem? declared) payload)
      | _ => exact width (.view key variants)

/-! ### Edits -/

/-- The site with every byte order renamed. -/
def Site.reorder (rename : ByteOrder → ByteOrder) (site : Site) : Site :=
  ⟨site.name, site.layout.reorder rename⟩

namespace Draft

theorem ofUnsigned_reorder (site : Site) (value : UInt64) :
    ofUnsigned (site.reorder rename) value = ofUnsigned site value := by
  obtain ⟨name, layout⟩ := site
  cases layout <;> rfl

theorem ofSigned_reorder (site : Site) (value : Int) :
    ofSigned (site.reorder rename) value = ofSigned site value := by
  obtain ⟨name, layout⟩ := site
  cases layout <;> rfl

theorem ofVariant_reorder (site : Site) (variant : String) :
    ofVariant (site.reorder rename) variant = ofVariant site variant := by
  obtain ⟨name, layout⟩ := site
  cases layout <;> rfl

theorem asMask_reorder (site : Site) (draft : Draft) :
    draft.asMask (site.reorder rename) = draft.asMask site := by
  obtain ⟨name, layout⟩ := site
  cases layout <;> rfl

theorem asStruct_reorder (site : Site) (draft : Draft) :
    draft.asStruct (site.reorder rename) =
      (draft.asStruct site).map (Prod.map (List.map (Field.reorder rename)) id) := by
  obtain ⟨name, layout⟩ := site
  cases layout with
  | struct fields =>
      cases draft with
      | struct members =>
          show Except.ok (reorderFields rename fields, members) = _
          rw [reorderFields_eq_map]
          rfl
      | _ => rfl
  | _ => cases draft <;> rfl

theorem asArray_reorder (site : Site) (draft : Draft) :
    draft.asArray (site.reorder rename) =
      (draft.asArray site).map
        (Prod.map (Layout.reorder rename) (Prod.map (ArrayLength.reorder rename) id)) := by
  obtain ⟨name, layout⟩ := site
  cases layout <;> cases draft <;> rfl

theorem asView_reorder (site : Site) (draft : Draft) :
    draft.asView (site.reorder rename) =
      (draft.asView site).map (Prod.map (List.map (Variant.reorder rename)) id) := by
  obtain ⟨name, layout⟩ := site
  cases layout with
  | view key variants =>
      cases draft with
      | view selection =>
          show Except.ok (reorderVariants rename variants, selection) = _
          rw [reorderVariants_eq_map]
          rfl
      | _ => rfl
  | _ => cases draft <;> rfl

theorem isFull_reorder (length : ArrayLength IntFormat) (count : Nat) :
    isFull (length.reorder rename) count = isFull length count := by
  cases length <;> rfl

/-- Selecting a variant looks at keys and blank payloads only. -/
theorem select_reorder (variants : List Variant) (index : Nat) (variant : Variant)
    (selection : Option (Nat × Draft)) :
    select (variants.map (Variant.reorder rename)) index (variant.reorder rename) selection =
      select variants index variant selection := by
  cases selection with
  | none => exact congrArg Except.ok variant.layout.blank_reorder
  | some selected =>
      obtain ⟨current, payload⟩ := selected
      rw [select, select, List.getElem?_map]
      cases variants[current]? <;> rfl

end Draft

theorem ArrayLength.capacity_reorder (length : ArrayLength IntFormat) :
    (length.reorder rename).capacity = length.capacity := by
  cases length <;> rfl

theorem Field.indexOf?_reorder (fields : List Field) (name : String) :
    Field.indexOf? (fields.map (Field.reorder rename)) name = Field.indexOf? fields name := by
  rw [Field.indexOf?, List.findIdx?_map]
  rfl

theorem Variant.indexOfKey?_reorder (variants : List Variant) (key : UInt64) :
    Variant.indexOfKey? (variants.map (Variant.reorder rename)) key =
      Variant.indexOfKey? variants key := by
  rw [Variant.indexOfKey?, List.findIdx?_map]
  rfl

theorem Variant.indexOfName?_reorder (variants : List Variant) (name : String) :
    Variant.indexOfName? (variants.map (Variant.reorder rename)) name =
      Variant.indexOfName? variants name := by
  rw [Variant.indexOfName?, List.findIdx?_map]
  rfl

namespace Edit

variable {α : Type}

theorem atVariant_reorder (variants : List Variant) (selection : Option (Nat × Draft))
    (index? : Option Nat) (unknown : WriteError) (edit : Site → Edit α) :
    atVariant (variants.map (Variant.reorder rename)) selection index? unknown edit =
      atVariant variants selection index? unknown fun sub => edit (sub.reorder rename) := by
  unfold atVariant
  cases index? with
  | none => rfl
  | some index =>
      simp only [Option.bind_some, List.getElem?_map]
      cases variants[index]? with
      | none => rfl
      | some variant =>
          simp only [Option.map_some, Draft.select_reorder]
          rfl

/-- **A step does not see byte orders**: it is refused alike, or leads to the same part. -/
theorem enter_reorder (site : Site) (step : Step) (edit : Site → Edit α) :
    enter (site.reorder rename) step edit =
      enter site step fun sub => edit (sub.reorder rename) := by
  funext draft
  cases step with
  | member name =>
      rw [enter, enter, atMember, atMember, inspect_bind, inspect_bind, Draft.asStruct_reorder]
      cases draft.asStruct site with
      | error cause => rfl
      | ok pair =>
          obtain ⟨fields, members⟩ := pair
          simp only [Except.map, Prod.map_apply, id_eq, Field.indexOf?_reorder, List.getElem?_map]
          cases Field.indexOf? fields name with
          | none => rfl
          | some index =>
              dsimp only
              cases fields[index]? <;> cases members[index]? <;> rfl
  | element index =>
      rw [enter, enter, atElement, atElement, inspect_bind, inspect_bind, Draft.asArray_reorder]
      cases draft.asArray site <;> rfl
  | append =>
      rw [enter, enter, atNewElement, atNewElement, inspect_bind, inspect_bind,
        Draft.asArray_reorder]
      cases draft.asArray site with
      | error cause => rfl
      | ok triple =>
          obtain ⟨element, length, elements⟩ := triple
          simp only [Except.map, Prod.map_apply, id_eq, Draft.isFull_reorder,
            ArrayLength.capacity_reorder, Layout.blank_reorder]
          rfl
  | key value =>
      rw [enter, enter, atKey, atKey, inspect_bind, inspect_bind, Draft.asView_reorder]
      cases draft.asView site with
      | error cause => rfl
      | ok pair =>
          simp only [Except.map, Prod.map_fst, Prod.map_snd, id_eq, Variant.indexOfKey?_reorder,
            atVariant_reorder]
  | variant name =>
      rw [enter, enter, atNamed, atNamed, inspect_bind, inspect_bind, Draft.asView_reorder]
      cases draft.asView site with
      | error cause => rfl
      | ok pair =>
          simp only [Except.map, Prod.map_fst, Prod.map_snd, id_eq, Variant.indexOfName?_reorder,
            atVariant_reorder]

/-- **A path does not see byte orders.** -/
theorem along_reorder (path : List Step) (edit : Site → Edit α) (site : Site) :
    along path edit (site.reorder rename) =
      along path (fun sub => edit (sub.reorder rename)) site := by
  induction path generalizing site with
  | nil => rfl
  | cons step rest ih =>
      rw [along, along, enter_reorder]
      exact congrArg (enter site step) (funext ih)

theorem Action.store_reorder (action : Action) (site : Site) :
    action.store (site.reorder rename) = action.store site := by
  cases action with
  | set value | pushValue value =>
      exact congrArg (fun made => update fun _ => made) (Draft.ofUnsigned_reorder site value)
  | setSigned value =>
      exact congrArg (fun made => update fun _ => made) (Draft.ofSigned_reorder site value)
  | setEnum variant =>
      exact congrArg (fun made => update fun _ => made) (Draft.ofVariant_reorder site variant)
  | setFlag flag on =>
      refine congrArg update (funext fun draft => ?_)
      rw [Draft.setFlag, Draft.asMask_reorder, Draft.setFlag]
  | push | select _ | selectNamed _ => rfl

/-- **An action does not see byte orders.** -/
theorem Action.run_reorder (action : Action) (site : Site) :
    action.run (site.reorder rename) = action.run site := by
  rw [run_eq_along, run_eq_along, along_reorder]
  exact congrArg (fun store => along action.steps store site) (funext action.store_reorder)

end Edit

theorem Operation.edit_reorder (operation : Operation) (site : Site) :
    operation.edit (site.reorder rename) = operation.edit site := by
  unfold Operation.edit
  cases operation.action with
  | none => rfl
  | some action => exact action.run_reorder site

/-! ### Encoding -/

theorem IntFormat.length_encode_reorder (format : IntFormat) (word : UInt64) :
    ((format.reorder rename).encode word).length = (format.encode word).length := by
  rw [IntFormat.length_encode, IntFormat.length_encode]
  rfl

theorem Draft.number?_reorder (layout : Layout) (draft : Draft) :
    draft.number? (layout.reorder rename) = draft.number? layout := by
  rcases draft with (_ | _) | _ | _ | _ | _ | _ <;> cases layout <;> rfl

namespace Scope

/-- The scope with every byte order renamed. -/
def reorder (rename : ByteOrder → ByteOrder) (scope : Scope) : Scope :=
  ⟨scope.fields.map (Field.reorder rename), scope.members⟩

theorem valueOf_reorder (scope : Scope) (index : Nat) :
    (scope.reorder rename).valueOf index = scope.valueOf index := by
  rw [valueOf, reorder, List.getElem?_map, valueOf]
  cases scope.fields[index]? with
  | none => rfl
  | some field =>
      cases scope.members[index]? with
      | none => rfl
      | some member => simp only [Option.map_some, Field.reorder, Draft.number?_reorder]

/-- The quantities of a size expression do not depend on byte orders. -/
theorem quantityBy_reorder (scope : Scope) (lengths : List Nat) :
    (scope.reorder rename).quantityBy lengths = scope.quantityBy lengths := by
  funext operand
  cases operand with
  | valueOf index => exact scope.valueOf_reorder index
  | const _ | countOf _ | sizeOf _ _ => rfl

theorem evaluateBy_reorder (scope : Scope) (lengths : List Nat) (name : String)
    (format : IntFormat) (expr : SizeExpr Nat) :
    (scope.reorder rename).evaluateBy lengths name (format.reorder rename) expr =
      scope.evaluateBy lengths name format expr := by
  rw [evaluateBy, quantityBy_reorder]
  rfl

theorem encodeSize_reorder (scope : Scope) (lengths : List Nat) (name : String)
    (format : IntFormat) (expr : SizeExpr Nat) :
    ((scope.reorder rename).encodeSize lengths name (format.reorder rename) expr).map List.length =
      (scope.encodeSize lengths name format expr).map List.length := by
  rw [encodeSize, evaluateBy_reorder, encodeSize]
  cases scope.evaluateBy lengths name format expr with
  | error cause => rfl
  | ok value => exact congrArg Except.ok (format.length_encode_reorder _)

variable {scope : Scope} {field : Field} {member : Draft}

/-- A member is encoded alike if its value is. -/
theorem encodeMember_reorder (lengths : List Nat)
    (inner : (member.encode (field.layout.reorder rename) field.name).map List.length =
      (member.encode field.layout field.name).map List.length) :
    ((scope.reorder rename).encodeMember lengths (field.reorder rename) member).map List.length =
      (scope.encodeMember lengths field member).map List.length := by
  obtain ⟨name, layout⟩ := field
  cases layout with
  | derived format expr => exact scope.encodeSize_reorder lengths name format expr
  | _ => exact inner

theorem part_reorder
    (inner : (member.encode (field.layout.reorder rename) field.name).map List.length =
      (member.encode field.layout field.name).map List.length) :
    ((scope.reorder rename).part (field.reorder rename) member).map List.length =
      (scope.part field member).map List.length := by
  obtain ⟨name, layout⟩ := field
  cases layout with
  | derived format expr =>
      show Except.map _ (if expr.isMeasured then _ else _) =
        Except.map _ (if expr.isMeasured then _ else _)
      split
      · rfl
      · exact scope.encodeSize_reorder [] name format expr
  | _ => exact inner

end Scope

/-- A struct is encoded alike if the values of its members are: the parts have the same lengths, and so
have the members that are made by them. -/
theorem Draft.encode_struct_reorder {fields : List Field} {members : List Draft} (name : String)
    (alike : ∀ pair ∈ fields.zip members,
      (pair.2.encode (pair.1.layout.reorder rename) pair.1.name).map List.length =
        (pair.2.encode pair.1.layout pair.1.name).map List.length) :
    (Draft.encode (.struct (fields.map (Field.reorder rename))) name (.struct members)).map
        List.length =
      (Draft.encode (.struct fields) name (.struct members)).map List.length := by
  let scope : Scope := ⟨fields, members⟩
  have parts : ((fields.zip members).mapM fun pair =>
        (scope.reorder rename).part (pair.1.reorder rename) pair.2).map (List.map List.length) =
      ((fields.zip members).mapM fun pair => scope.part pair.1 pair.2).map (List.map List.length) :=
    map_mapM_congr fun pair inside => Scope.part_reorder (alike pair inside)
  have chunks (lengths : List Nat) : ((fields.zip members).mapM fun pair =>
        (scope.reorder rename).encodeMember lengths (pair.1.reorder rename) pair.2).map
          (List.map List.length) =
      ((fields.zip members).mapM fun pair => scope.encodeMember lengths pair.1 pair.2).map
        (List.map List.length) :=
    map_mapM_congr fun pair inside => Scope.encodeMember_reorder lengths (alike pair inside)
  rw [Draft.encode_struct, Draft.encode_struct, List.zip_map_left, List.mapM_map]
  refine map_bind_congr parts fun parts others lengths => ?_
  rw [lengths, List.mapM_map]
  refine map_bind_congr (chunks _) fun chunks others lengths => ?_
  refine congrArg Except.ok ?_
  rw [List.length_flatten, lengths, List.length_flatten]

/-- **The encoding has the same length under other byte orders, or fails for the same reason.** -/
theorem Draft.encode_reorder (layout : Layout) (draft : Draft) (name : String) :
    (draft.encode (layout.reorder rename) name).map List.length =
      (draft.encode layout name).map List.length := by
  induction layout generalizing draft name with
  | int format =>
      rcases draft with (_ | word) | _ | _ | _ | _ | _
      case scalar.some => exact congrArg Except.ok (format.length_encode_reorder word)
      all_goals rfl
  | enum enumeration =>
      rcases draft with (_ | word) | _ | _ | _ | _ | _
      case scalar.some => exact congrArg Except.ok (enumeration.format.length_encode_reorder word)
      all_goals rfl
  | mask _ => cases draft <;> rfl
  | struct fields ih =>
      cases draft with
      | struct members =>
          have alike : ∀ pair ∈ fields.zip members,
              (pair.2.encode (pair.1.layout.reorder rename) pair.1.name).map List.length =
                (pair.2.encode pair.1.layout pair.1.name).map List.length :=
            fun pair inside => ih pair.1 (List.of_mem_zip inside).1 pair.2 pair.1.name
          rw [Layout.reorder, reorderFields_eq_map]
          exact Draft.encode_struct_reorder name alike
      | _ => rfl
  | array element length ih =>
      cases draft with
      | array elements =>
          rw [Layout.reorder, Draft.encode, Draft.encode, encodeElements_eq_mapM,
            encodeElements_eq_mapM]
          refine map_bind_congr (map_mapM_congr fun draft _ => ih draft name)
            fun chunks others lengths => ?_
          refine congrArg Except.ok ?_
          rw [List.length_append, List.length_append, List.length_flatten, lengths,
            List.length_flatten, ArrayLength.length_encodeCount, ArrayLength.length_encodeCount,
            ArrayLength.counterWidth_reorder]
      | _ => rfl
  | view key variants ih =>
      rcases draft with _ | _ | _ | _ | (_ | ⟨index, payload⟩) | _
      case view.some =>
        rw [Layout.reorder, Draft.encode, Draft.encode, reorderVariants_eq_map, List.getElem?_map]
        cases declared : variants[index]? with
        | none => rfl
        | some variant =>
            refine map_bind_congr (ih variant (List.mem_of_getElem? declared) payload variant.name)
              fun chunk other length => ?_
            refine congrArg Except.ok ?_
            rw [List.length_append, List.length_append, length]
            exact congrArg (· + other.length) (key.length_encode_reorder variant.key)
      all_goals rfl
  | constant format value =>
      cases draft with
      | computed => exact congrArg Except.ok (format.length_encode_reorder value)
      | _ => rfl
  | derived _ _ => cases draft <;> rfl

/-! ### Values -/

theorem Scope.memberValue?_reorder {scope : Scope} {field : Field} {member : Draft}
    (sizes : List Nat)
    (inner : member.value? (field.layout.reorder rename) = member.value? field.layout) :
    (scope.reorder rename).memberValue? sizes (field.reorder rename) member =
      scope.memberValue? sizes field member := by
  obtain ⟨name, layout⟩ := field
  cases layout with
  | derived format expr =>
      show ((expr.evaluate ((scope.reorder rename).quantityBy sizes)).toOption.map _) = _
      rw [quantityBy_reorder]
      rfl
  | _ => exact inner

theorem memberSizes_reorder (fields : List Field) (members : List Draft) :
    memberSizes (fields.map (Field.reorder rename)) members = memberSizes fields members := by
  rw [memberSizes, memberSizes, List.zip_map_left, List.map_map]
  exact List.map_congr_left fun pair _ => Draft.size_reorder pair.1.layout pair.2

theorem memberValues_reorder {scope : Scope} {sizes : List Nat} {fields : List Field}
    {members : List Draft}
    (inner : ∀ field ∈ fields, ∀ member : Draft,
      member.value? (field.layout.reorder rename) = member.value? field.layout) :
    memberValues (scope.reorder rename) sizes (fields.map (Field.reorder rename)) members =
      memberValues scope sizes fields members := by
  induction fields generalizing members with
  | nil => cases members <;> rfl
  | cons field rest ih =>
      cases members with
      | nil => cases field; rfl
      | cons member members =>
          rw [List.forall_mem_cons] at inner
          rw [List.map_cons, memberValues_cons, memberValues_cons, ih inner.2,
            Scope.memberValue?_reorder sizes (inner.1 member)]
          rfl

theorem elementValues_reorder {element : Layout} {elements : List Draft}
    (inner : ∀ draft : Draft, draft.value? (element.reorder rename) = draft.value? element) :
    elementValues (element.reorder rename) elements = elementValues element elements := by
  induction elements with
  | nil => rfl
  | cons draft rest ih => rw [elementValues, inner, ih, elementValues]

/-- **A draft stands for the same value under other byte orders.** -/
theorem Draft.value?_reorder (layout : Layout) (draft : Draft) :
    draft.value? (layout.reorder rename) = draft.value? layout := by
  induction layout generalizing draft with
  | int _ | enum _ => rcases draft with (_ | _) | _ | _ | _ | _ | _ <;> rfl
  | mask _ | constant _ _ | derived _ _ => cases draft <;> rfl
  | struct fields ih =>
      cases draft with
      | struct members =>
          have values : memberValues (Scope.reorder rename ⟨fields, members⟩)
              (memberSizes fields members) (fields.map (Field.reorder rename)) members =
              memberValues ⟨fields, members⟩ (memberSizes fields members) fields members :=
            memberValues_reorder ih
          rw [Layout.reorder, Draft.value?, Draft.value?, reorderFields_eq_map,
            memberSizes_reorder]
          exact congrArg (·.bind fun values => some (Value.struct values)) values
      | _ => rfl
  | array element length ih =>
      cases draft with
      | array elements =>
          rw [Layout.reorder, Draft.value?, Draft.value?, elementValues_reorder ih]
      | _ => rfl
  | view key variants ih =>
      rcases draft with _ | _ | _ | _ | (_ | ⟨index, payload⟩) | _
      case view.some =>
        rw [Layout.reorder, Draft.value?, Draft.value?, reorderVariants_eq_map, List.getElem?_map]
        cases declared : variants[index]? with
        | none => rfl
        | some variant =>
            have inner := ih variant (List.mem_of_getElem? declared) payload
            show (payload.value? (variant.layout.reorder rename) >>= fun value => _) = _
            rw [inner]
            rfl
      all_goals rfl

/-! ### What a draft shows -/

/-- What a part of a draft shows of itself. -/
structure Sight where
  name : String
  /-- The words, bytes, elements and selections that are stored. -/
  draft : Draft
  size : Nat
  /-- The bits of a mask, by the names of the flags. -/
  flag : String → Except WriteError Bool
  /-- How many elements an array takes. -/
  capacity : Except WriteError UInt64
  /-- The key of the selected variant of a view. -/
  selected : Except WriteError (Option UInt64)

/-- The part of a draft, as it shows itself at its site. -/
def Draft.sight (site : Site) (draft : Draft) : Sight where
  name := site.name
  draft := draft
  size := draft.size site.layout
  flag name := draft.getFlag site name
  capacity := (draft.asArray site).map fun array => array.2.1.capacity
  selected := draft.selectedKey? site

/-- What an edit answers. -/
def Edit.answer {α : Type} (edit : Edit α) (draft : Draft) : Except WriteError α :=
  match edit draft with
  | .ok answer _ => .ok answer
  | .error cause _ => .error cause

/-- An operation, answered by the sight of the part that it was carried out on. -/
def Operation.look (operation : Operation) (site : Site) : Edit Sight := do
  operation.edit site
  Edit.inspect fun draft => .ok (draft.sight site)

/-- The answers to a run of operations, each with the size of the record after it. -/
def Schema.answers (schema : Schema) :
    Draft → List Operation → List (Except WriteError Sight × Nat)
  | _, [] => []
  | draft, operation :: rest =>
      let next := schema.perform draft operation
      ((schema.edit operation.path operation.look).answer draft, next.size schema.root) ::
        schema.answers next rest

theorem Draft.selectedKey?_reorder (site : Site) (draft : Draft) :
    draft.selectedKey? (site.reorder rename) = draft.selectedKey? site := by
  rw [Draft.selectedKey?, Draft.asView_reorder, Draft.selectedKey?]
  cases draft.asView site with
  | error cause => rfl
  | ok pair =>
      obtain ⟨variants, selection⟩ := pair
      cases selection with
      | none => rfl
      | some selected =>
          refine congrArg Except.ok ?_
          show (variants.map (Variant.reorder rename))[selected.1]?.map (·.key) =
            variants[selected.1]?.map (·.key)
          rw [List.getElem?_map, Option.map_map]
          rfl

/-- **The sight of a part does not depend on byte orders.** -/
theorem Draft.sight_reorder (site : Site) (draft : Draft) :
    draft.sight (site.reorder rename) = draft.sight site := by
  have flags (name : String) : draft.getFlag (site.reorder rename) name = draft.getFlag site name := by
    rw [Draft.getFlag, Draft.asMask_reorder, Draft.getFlag]
  have capacity : (draft.asArray (site.reorder rename)).map (fun array => array.2.1.capacity) =
      (draft.asArray site).map fun array => array.2.1.capacity := by
    rw [Draft.asArray_reorder]
    cases draft.asArray site with
    | error cause => rfl
    | ok triple => exact congrArg Except.ok triple.2.1.capacity_reorder
  have size : draft.size (site.reorder rename).layout = draft.size site.layout :=
    Draft.size_reorder site.layout draft
  unfold Draft.sight
  simp only [flags, capacity, size, Draft.selectedKey?_reorder]
  rfl

theorem Operation.look_reorder (operation : Operation) (site : Site) :
    operation.look (site.reorder rename) = operation.look site := by
  rw [Operation.look, Operation.edit_reorder, Operation.look]
  simp only [Draft.sight_reorder]

/-! ### Whole records -/

namespace Schema

/-- The schema with every byte order renamed. -/
def reorder (rename : ByteOrder → ByteOrder) (schema : Schema) : Schema :=
  ⟨schema.fields.map (Field.reorder rename)⟩

theorem root_reorder (schema : Schema) :
    (schema.reorder rename).root = schema.root.reorder rename := by
  rw [root, root, Layout.reorder, reorderFields_eq_map]
  rfl

theorem edit_reorder {α : Type} {edit : Site → Edit α} (schema : Schema) (path : List Edit.Step)
    (blind : ∀ site : Site, edit (site.reorder rename) = edit site) :
    (schema.reorder rename).edit path edit = schema.edit path edit := by
  have site : (schema.reorder rename).site = schema.site.reorder rename :=
    congrArg (Site.mk "") schema.root_reorder
  rw [Schema.edit, site, Edit.along_reorder, Schema.edit]
  exact congrArg (fun edit => Edit.along path edit schema.site) (funext blind)

theorem perform_reorder (schema : Schema) :
    (schema.reorder rename).perform = schema.perform := by
  funext draft operation
  rw [perform, schema.edit_reorder operation.path operation.edit_reorder, perform]

theorem blank_reorder (schema : Schema) : (schema.reorder rename).blank = schema.blank := by
  rw [blank, root_reorder, Layout.blank_reorder, blank]

/-- **Runs build the same drafts under other byte orders.** -/
theorem build_reorder (schema : Schema) (operations : List Operation) :
    (schema.reorder rename).build operations = schema.build operations := by
  rw [build, perform_reorder, blank_reorder, build]

/-- **Runs are answered alike under other byte orders.** -/
theorem answers_reorder (schema : Schema) (draft : Draft) (operations : List Operation) :
    (schema.reorder rename).answers draft operations = schema.answers draft operations := by
  induction operations generalizing draft with
  | nil => rfl
  | cons operation rest ih =>
      rw [answers, answers, ih, schema.edit_reorder operation.path operation.look_reorder,
        perform_reorder, root_reorder, Draft.size_reorder]

/-- Schemas that are one schema when every byte order is renamed to the same. -/
def Alike (first second : Schema) : Prop :=
  first.reorder (fun _ => .big) = second.reorder fun _ => .big

variable {first second : Schema}

theorem Alike.blank_eq (alike : first.Alike second) : first.blank = second.blank := by
  rw [← first.blank_reorder, alike, second.blank_reorder]

theorem Alike.build_eq (alike : first.Alike second) (operations : List Operation) :
    first.build operations = second.build operations := by
  rw [← first.build_reorder, alike, second.build_reorder]

theorem Alike.answers_eq (alike : first.Alike second) (draft : Draft)
    (operations : List Operation) :
    first.answers draft operations = second.answers draft operations := by
  rw [← first.answers_reorder, alike, second.answers_reorder]

theorem Alike.root_reorder_eq (alike : first.Alike second) :
    first.root.reorder (fun _ => .big) = second.root.reorder fun _ => .big := by
  rw [← first.root_reorder, alike, second.root_reorder]

theorem Alike.size_eq (alike : first.Alike second) (draft : Draft) :
    draft.size first.root = draft.size second.root := by
  rw [← Draft.size_reorder first.root, alike.root_reorder_eq, Draft.size_reorder]

theorem Alike.value?_eq (alike : first.Alike second) (draft : Draft) :
    draft.value? first.root = draft.value? second.root := by
  rw [← Draft.value?_reorder first.root, alike.root_reorder_eq, Draft.value?_reorder]

theorem Alike.encode_eq (alike : first.Alike second) (draft : Draft) (name : String) :
    (draft.encode first.root name).map List.length =
      (draft.encode second.root name).map List.length := by
  rw [← Draft.encode_reorder first.root, alike.root_reorder_eq, Draft.encode_reorder]

/-- Descriptions that differ in their byte orders compile alike. -/
theorem compile_alike {fields others : List FieldSpec} (same : unordered fields = unordered others)
    (order other : ByteOrder) :
    (∃ cause, compile fields order = .error cause ∧ compile others other = .error cause) ∨
      ∃ first second, compile fields order = .ok first ∧ compile others other = .ok second ∧
        first.Alike second := by
  have renamed : (compileStruct order fields).map (List.map (Field.reorder fun _ => .big)) =
      (compileStruct other others).map (List.map (Field.reorder fun _ => .big)) := by
    rw [← compileStruct_unordered, same, compileStruct_unordered]
  unfold compile
  obtain ⟨cause, left, right⟩ | ⟨members, members', left, right, equal⟩ := map_eq_map_cases renamed
  · rw [left, right]
    exact .inl ⟨cause, rfl, rfl⟩
  · rw [left, right]
    exact .inr ⟨⟨members⟩, ⟨members'⟩, rfl, rfl, congrArg Schema.mk equal⟩

/-- Writing to a buffer is answered alike. -/
theorem Alike.writeTo_eq (alike : first.Alike second) {draft : Draft} (valid : first.root.Valid)
    (valid' : second.root.Valid) (shaped : draft.Shaped first.root)
    (shaped' : draft.Shaped second.root) (buffer : Buffer) :
    (draft.writeTo first.root buffer).1 = (draft.writeTo second.root buffer).1 := by
  have forget (outcome : Except WriteError Bytes) (size : Nat) :
      (outcome.map fun _ => size) = (outcome.map List.length).map fun _ => size := by
    cases outcome <;> rfl
  rw [Draft.writeTo_outcome valid shaped, Draft.writeTo_outcome valid' shaped', alike.size_eq,
    forget, alike.encode_eq, ← forget]

/-- Drafts are written alike: both fail for the same reason, or the bytes are as many and stand for the
same value. -/
theorem Alike.toBuffer_cases (alike : first.Alike second) {draft : Draft} (valid : first.root.Valid)
    (valid' : second.root.Valid) (shaped : draft.Shaped first.root)
    (shaped' : draft.Shaped second.root) :
    (∃ cause, draft.toBuffer first.root = .error cause ∧ draft.toBuffer second.root = .error cause) ∨
      ∃ bytes bytes', draft.toBuffer first.root = .ok bytes ∧
        draft.toBuffer second.root = .ok bytes' ∧ bytes.size = bytes'.size ∧
        (bytes.size < Address.limit →
          ∃ value, first.parse bytes = .ok value ∧ second.parse bytes' = .ok value) := by
  rw [Draft.toBuffer_eq valid shaped, Draft.toBuffer_eq valid' shaped']
  obtain ⟨cause, left, right⟩ | ⟨chunk, chunk', left, right, length⟩ :=
    map_eq_map_cases (alike.encode_eq draft "")
  · rw [left, right]
    exact .inl ⟨cause, rfl, rfl⟩
  · rw [left, right]
    refine .inr ⟨chunk.toArray, chunk'.toArray, rfl, rfl, length, fun small => ?_⟩
    have small' : chunk'.toArray.size < Address.limit := by rwa [List.size_toArray, ← length]
    obtain ⟨value, known, reads⟩ :=
      Draft.decode_encode small valid shaped left (Holds.whole chunk.toArray)
    obtain ⟨value', known', reads'⟩ :=
      Draft.decode_encode small' valid' shaped' right (Holds.whole chunk'.toArray)
    -- both are the value of the one draft
    rw [alike.value?_eq, known'] at known
    cases known
    exact ⟨value, reads.decoded, reads'.decoded⟩

/-- **Byte orders are unobservable except in the bytes.** Descriptions that are equal without their
orders, under any two defaults, fail to compile with the same error or both compile. In the second
case every run of operations is answered alike at each step and builds the same draft. The draft then
has one size, is written with the same outcome to every buffer, and has bytes in both orders or in
none; these are as many, and each schema reads the same value from its own. -/
theorem byteOrder_unobservable {fields others : List FieldSpec}
    (same : unordered fields = unordered others) (order other : ByteOrder) :
    (∃ cause, compile fields order = .error cause ∧ compile others other = .error cause) ∨
      ∃ first second, compile fields order = .ok first ∧ compile others other = .ok second ∧
        ∀ operations : List Operation,
          let draft := first.build operations
          first.answers first.blank operations = second.answers second.blank operations ∧
          second.build operations = draft ∧
          draft.size first.root = draft.size second.root ∧
          (∀ buffer, (draft.writeTo first.root buffer).1 = (draft.writeTo second.root buffer).1) ∧
          ((∃ cause, draft.toBuffer first.root = .error cause ∧
              draft.toBuffer second.root = .error cause) ∨
            ∃ bytes bytes', draft.toBuffer first.root = .ok bytes ∧
              draft.toBuffer second.root = .ok bytes' ∧ bytes.size = bytes'.size ∧
              (bytes.size < Address.limit →
                ∃ value, first.parse bytes = .ok value ∧ second.parse bytes' = .ok value)) := by
  obtain failed | ⟨first, second, compiled, compiled', alike⟩ := compile_alike same order other
  · exact .inl failed
  · refine .inr ⟨first, second, compiled, compiled', fun operations => ?_⟩
    intro draft
    have valid := valid_of_compile compiled
    have valid' := valid_of_compile compiled'
    have shaped : draft.Shaped first.root := first.shaped_build operations
    have built : second.build operations = draft := (alike.build_eq operations).symm
    have shaped' : draft.Shaped second.root := built ▸ second.shaped_build operations
    refine ⟨?_, built, alike.size_eq draft, alike.writeTo_eq valid valid' shaped shaped',
      alike.toBuffer_cases valid valid' shaped shaped'⟩
    rw [alike.blank_eq, alike.answers_eq]

end Schema

/-- The packet with orders stated here and there. -/
def mixedPacket : List FieldSpec :=
  let byte : IntSpec := ⟨1, false, none⟩
  [⟨"size", .derived ⟨2, false, some .big⟩ [⟨false, .sizeOf "kind" "body"⟩]⟩,
    ⟨"kind", .enum ⟨⟨1, false, some .big⟩, [⟨"data", 1⟩, ⟨"ack", 2⟩]⟩⟩,
    ⟨"flags", .mask ⟨1, [⟨"urgent", 0, [], []⟩, ⟨"last", 7, [], []⟩]⟩⟩,
    ⟨"items", .array (.int ⟨2, false, some .little⟩) (.bounded 4 byte)⟩,
    ⟨"body", .view byte [⟨"ping", 1, .int ⟨2, true, none⟩⟩, ⟨"pong", 2, .constant byte 9⟩]⟩]

/-- The layout of the packet in which orders are stated here and there. -/
def mixedSchema : Schema :=
  let byte : IntFormat := ⟨.one, false, .little⟩
  ⟨[⟨"size", .derived ⟨.two, false, .big⟩ [⟨false, .sizeOf 1 4⟩]⟩,
    ⟨"kind", .enum ⟨⟨.one, false, .big⟩, [⟨"data", 1⟩, ⟨"ack", 2⟩]⟩⟩,
    ⟨"flags", .mask ⟨1, [⟨"urgent", 0, [], []⟩, ⟨"last", 7, [], []⟩]⟩⟩,
    ⟨"items", .array (.int ⟨.two, false, .little⟩) (.bounded 4 byte)⟩,
    ⟨"body", .view byte
      [⟨"ping", 1, .int ⟨.two, true, .little⟩⟩, ⟨"pong", 2, .constant byte 9⟩]⟩]⟩

namespace Schema

/-- The size stands in one order in both; the item and the payload do not, and are read back as the
same numbers. -/
theorem byteOrder_unobservable_mixedPacket :
    unordered samplePacket = unordered mixedPacket ∧
      compile samplePacket .big = .ok sampleSchema ∧
      compile mixedPacket .little = .ok mixedSchema ∧
      ∃ value, sampleSchema.parse #[0, 8, 2, 1, 1, 2, 1, 1, 255, 254] = .ok value ∧
        mixedSchema.parse #[0, 8, 2, 1, 1, 1, 2, 1, 254, 255] = .ok value := by
  have same : unordered samplePacket = unordered mixedPacket := rfl
  have mixed : compile mixedPacket .little = .ok mixedSchema := rfl
  refine ⟨same, compile_samplePacket, mixed, ?_⟩
  obtain ⟨cause, failed, -⟩ | ⟨first, second, compiled, compiled', runs⟩ :=
    byteOrder_unobservable same .big .little
  · rw [compile_samplePacket] at failed
    cases failed
  · rw [compile_samplePacket] at compiled
    rw [mixed] at compiled'
    cases compiled
    cases compiled'
    have wrote : (sampleSchema.build sampleRun).toBuffer sampleSchema.root =
        .ok #[0, 8, 2, 1, 1, 2, 1, 1, 255, 254] := by decide +kernel
    have wrote' : (sampleSchema.build sampleRun).toBuffer mixedSchema.root =
        .ok #[0, 8, 2, 1, 1, 1, 2, 1, 254, 255] := by decide +kernel
    obtain ⟨-, -, -, -, ⟨cause, failed, -⟩ | ⟨bytes, bytes', left, right, -, reads⟩⟩ :=
      runs sampleRun
    · rw [wrote] at failed
      cases failed
    · rw [wrote] at left
      rw [wrote'] at right
      cases left
      cases right
      exact reads (by decide)

end Schema

end RecordLayout
