/-
**The shape of a draft, and the runs that keep it.**

`Draft.Shaped` says that a draft has the shape of its layout and that what is stored in it is
allowed there: words within the width of their format, declared values of an enumeration, all the
bytes of a mask, all the members of a struct, as many elements as the array allows, the payload of
a variant that exists.

An `Operation` follows a path from the root of a record and does something to the part it leads to.
`Schema.build` runs a list of operations on the blank draft. An operation that is refused is part
of the run: what its path has done before the refusal stays.

* `Edit.enter_cases`: a step either is refused and changes nothing, or edits one part
  and puts it back (`Enters` lists how).
* `Edit.Carries`: what passes from a part to the whole around it. Whatever an action keeps of one
  part (`Edit.Leaves` lists what it can do there), an operation keeps of the record.
* `Schema.shaped_build`: every draft that a run of operations builds is shaped.
-/

import RecordLayout.Draft.Edit
import RecordLayout.Proofs.IntegerCodec
import RecordLayout.Proofs.ValidLayout

namespace RecordLayout

/-! ### Shapes -/

/-- The array can have this number of elements. -/
def ArrayLength.Allows : ArrayLength IntFormat → Nat → Prop
  | .fixed count, number => number = count.toNat
  | .bounded capacity _, number => number ≤ capacity.toNat

/-- **The draft has the shape of the layout** and holds only what the layout allows. -/
inductive Draft.Shaped : Layout → Draft → Prop where
  | int {format : IntFormat} {stored : Option UInt64}
      (held : ∀ word ∈ stored, word.toNat < 2 ^ format.width.bits) :
      Shaped (.int format) (.scalar stored)
  | enum {enumeration : Enumeration} {stored : Option UInt64}
      (named : ∀ word ∈ stored, ∃ name, enumeration.nameOf? word = some name) :
      Shaped (.enum enumeration) (.scalar stored)
  | mask {mask : Mask} {bytes : Bytes} (whole : bytes.length = mask.width) :
      Shaped (.mask mask) (.mask bytes)
  | struct {fields : List Field} {members : List Draft} (whole : members.length = fields.length)
      (each : ∀ pair ∈ fields.zip members, Shaped pair.1.layout pair.2) :
      Shaped (.struct fields) (.struct members)
  | array {element : Layout} {length : ArrayLength IntFormat} {elements : List Draft}
      (counted : length.Allows elements.length) (each : ∀ draft ∈ elements, Shaped element draft) :
      Shaped (.array element length) (.array elements)
  | unselected {key : IntFormat} {variants : List Variant} :
      Shaped (.view key variants) (.view none)
  | view {key : IntFormat} {variants : List Variant} {index : Nat} {variant : Variant}
      {payload : Draft} (selected : variants[index]? = some variant)
      (inside : Shaped variant.layout payload) :
      Shaped (.view key variants) (.view (some (index, payload)))
  | constant {format : IntFormat} {value : UInt64} : Shaped (.constant format value) .computed
  | derived {format : IntFormat} {expr : SizeExpr Nat} : Shaped (.derived format expr) .computed

/-- The parts of a shaped struct are its members, each with its field. -/
theorem Draft.Shaped.member {fields : List Field} {members : List Draft} {index : Nat}
    {field : Field} {member : Draft}
    (each : ∀ pair ∈ fields.zip members, Draft.Shaped pair.1.layout pair.2)
    (declared : fields[index]? = some field) (there : members[index]? = some member) :
    member.Shaped field.layout := by
  refine each (field, member) (List.mem_of_getElem? (i := index) ?_)
  rw [List.getElem?_zip_eq_some]
  exact ⟨declared, there⟩

/-- Every field of a whole struct has its member. -/
theorem Field.exists_member {fields : List Field} {members : List Draft} {index : Nat}
    {field : Field} (whole : members.length = fields.length)
    (declared : fields[index]? = some field) :
    ∃ member, members[index]? = some member ∧ (fields.zip members)[index]? = some (field, member) := by
  have inside : index < members.length := by
    rw [whole]
    exact (List.getElem?_eq_some_iff.mp declared).1
  have there := List.getElem?_eq_getElem inside
  exact ⟨members[index], there, List.getElem?_zip_eq_some.mpr ⟨declared, there⟩⟩

/-- A shaped struct stays shaped when a member is replaced by a shaped one. -/
theorem Draft.Shaped.set_member {fields : List Field} {members : List Draft} {index : Nat}
    {field : Field} {part : Draft} (shaped : Draft.Shaped (.struct fields) (.struct members))
    (declared : fields[index]? = some field) (fits : part.Shaped field.layout) :
    Draft.Shaped (.struct fields) (.struct (members.set index part)) := by
  cases shaped with
  | struct whole each =>
      refine .struct (by rw [List.length_set, whole]) fun ⟨other, draft⟩ member => ?_
      obtain ⟨position, found⟩ := List.mem_iff_getElem?.mp member
      obtain ⟨otherDeclared, there⟩ := List.getElem?_zip_eq_some.mp found
      by_cases same : index = position
      · subst same
        rw [List.getElem?_set_self'] at there
        obtain ⟨_, _, rfl⟩ := Option.map_eq_some_iff.mp there
        rw [declared] at otherDeclared
        cases otherDeclared
        exact fits
      · rw [List.getElem?_set_ne same] at there
        exact Draft.Shaped.member each otherDeclared there

/-! ### Blank drafts -/

theorem blankMembers_eq_map (fields : List Field) :
    blankMembers fields = fields.map (·.layout.blank) := by
  induction fields with
  | nil => rfl
  | cons field rest ih =>
      cases field
      rw [blankMembers, ih, List.map_cons]

/-- **The blank draft is shaped.** -/
theorem Layout.shaped_blank (layout : Layout) : layout.blank.Shaped layout := by
  induction layout with
  | int format => exact .int (by simp)
  | enum enumeration => exact .enum (by simp)
  | mask mask => exact .mask (by simp [Mask.blank])
  | struct fields ih =>
      rw [Layout.blank, blankMembers_eq_map]
      refine .struct (by simp) fun ⟨field, draft⟩ member => ?_
      rw [List.zip_map_right, List.mem_map] at member
      obtain ⟨⟨first, second⟩, inside, equal⟩ := member
      simp only [Prod.map_apply, id_eq, Prod.mk.injEq] at equal
      have same : first = second := by
        obtain ⟨position, found⟩ := List.mem_iff_getElem?.mp inside
        obtain ⟨there, again⟩ := List.getElem?_zip_eq_some.mp found
        exact Option.some.inj (there.symm.trans again)
      rw [← equal.1, ← equal.2, same]
      exact ih second (List.of_mem_zip inside).2
  | array element length ih =>
      cases length with
      | fixed count => exact .array (by simp [ArrayLength.Allows]) fun draft member =>
          (List.eq_of_mem_replicate member) ▸ ih
      | bounded capacity counter => exact .array (by simp [ArrayLength.Allows]) (by simp)
  | view key variants _ => exact .unselected
  | constant format value => exact .constant
  | derived format expr => exact .derived

/-! ### Runs of operations -/

/-- The draft that an edit leaves, also when it is refused. -/
def Edit.after {α : Type} (edit : Edit α) (draft : Draft) : Draft :=
  match edit draft with
  | .ok _ next => next
  | .error _ next => next

/-- An operation on a record: a path from the root, and what is done to the part at its end, if
anything. -/
structure Operation where
  path : List Edit.Step
  action : Option Edit.Action

/-- What an operation does at the end of its path. -/
def Operation.edit (operation : Operation) (site : Site) : Edit Unit :=
  match operation.action with
  | some action => action.run site
  | none => pure ()

/-- The draft that an operation leaves, whether it is refused or not. -/
def Schema.perform (schema : Schema) (draft : Draft) (operation : Operation) : Draft :=
  (schema.edit operation.path operation.edit).after draft

/-- The draft that a run of operations builds, from a blank one. -/
def Schema.build (schema : Schema) (operations : List Operation) : Draft :=
  operations.foldl schema.perform schema.blank

namespace Edit

/-! ### What a step can do -/

/-- **The steps that lead somewhere.** The step goes from a draft at `site` to `part`, which stands
at another site, and `rebuild` puts the part back into the whole. -/
inductive Enters (site : Site) : Draft → Step → Site → Draft → (Draft → Draft) → Prop where
  | member {fields : List Field} {members : List Draft} {name : String} {index : Nat}
      {field : Field} {part : Draft} (struct : site.layout = .struct fields)
      (found : Field.indexOf? fields name = some index) (declared : fields[index]? = some field)
      (there : members[index]? = some part) :
      Enters site (.struct members) (.member name) ⟨field.name, field.layout⟩ part
        fun part => .struct (members.set index part)
  | element {element : Layout} {length : ArrayLength IntFormat} {elements : List Draft}
      {index : Nat} {part : Draft} (array : site.layout = .array element length)
      (there : elements[index]? = some part) :
      Enters site (.array elements) (.element index) ⟨site.name, element⟩ part
        fun part => .array (elements.set index part)
  | append {element : Layout} {length : ArrayLength IntFormat} {elements : List Draft}
      (array : site.layout = .array element length)
      (room : Draft.isFull length elements.length = false) :
      Enters site (.array elements) .append ⟨site.name, element⟩ element.blank
        fun part => .array (elements ++ [part])
  | payload {key : IntFormat} {variants : List Variant} {selection : Option (Nat × Draft)}
      {step : Step} {index : Nat} {variant : Variant} {part : Draft}
      (view : site.layout = .view key variants)
      (named : (∃ value, step = .key value ∧ Variant.indexOfKey? variants value = some index) ∨
        ∃ name, step = .variant name ∧ Variant.indexOfName? variants name = some index)
      (declared : variants[index]? = some variant)
      (selected : Draft.select variants index variant selection = .ok part) :
      Enters site (.view selection) step ⟨variant.name, variant.layout⟩ part
        fun part => .view (some (index, part))

section Steps

variable {α β : Type}

theorem inspect_bind (look : Draft → Except WriteError β) (next : β → Edit α) (draft : Draft) :
    (inspect look >>= next) draft =
      match look draft with
      | .ok answer => next answer draft
      | .error cause => .error cause draft := by
  show EStateM.bind (inspect look) next draft = _
  unfold EStateM.bind inspect
  cases look draft <;> rfl

theorem asStruct_eq_ok {site : Site} {draft : Draft} {fields : List Field} {members : List Draft}
    (looked : Draft.asStruct site draft = .ok (fields, members)) :
    site.layout = .struct fields ∧ draft = .struct members := by
  unfold Draft.asStruct at looked
  split at looked <;> simp_all

theorem asArray_eq_ok {site : Site} {draft : Draft} {element : Layout}
    {length : ArrayLength IntFormat} {elements : List Draft}
    (looked : Draft.asArray site draft = .ok (element, length, elements)) :
    site.layout = .array element length ∧ draft = .array elements := by
  unfold Draft.asArray at looked
  split at looked <;> simp_all

theorem asView_eq_ok {site : Site} {draft : Draft} {variants : List Variant}
    {selection : Option (Nat × Draft)}
    (looked : Draft.asView site draft = .ok (variants, selection)) :
    (∃ key, site.layout = .view key variants) ∧ draft = .view selection := by
  unfold Draft.asView at looked
  split at looked <;> simp_all

theorem atVariant_cases {site : Site} {key : IntFormat} {variants : List Variant}
    {selection : Option (Nat × Draft)} {index? : Option Nat} (unknown : WriteError) {step : Step}
    (view : site.layout = .view key variants)
    (named : ∀ index, index? = some index →
      (∃ value, step = .key value ∧ Variant.indexOfKey? variants value = some index) ∨
        ∃ name, step = .variant name ∧ Variant.indexOfName? variants name = some index) :
    (∃ cause, ∀ edit : Site → Edit α,
        atVariant variants selection index? unknown edit (.view selection) =
          .error cause (.view selection)) ∨
      ∃ sub part rebuild, Enters site (.view selection) step sub part rebuild ∧
        ∀ edit : Site → Edit α,
          atVariant variants selection index? unknown edit (.view selection) =
            within part rebuild (edit sub) (.view selection) := by
  unfold atVariant
  cases index? with
  | none => exact .inl ⟨unknown, fun _ => rfl⟩
  | some index =>
      cases declared : variants[index]? with
      | none => exact .inl ⟨unknown, fun _ => by simp [declared]; rfl⟩
      | some variant =>
          simp only [Option.bind_some, declared, Option.map_some, inspect_bind]
          cases selected : Draft.select variants index variant selection with
          | error cause => exact .inl ⟨cause, fun _ => rfl⟩
          | ok part =>
              exact .inr ⟨_, part, _, .payload view (named index rfl) declared selected,
                fun _ => rfl⟩

/-- **A step is refused and changes nothing, or it edits one part and puts it back**, whatever the
edit is. -/
theorem enter_cases (site : Site) (step : Step) (draft : Draft) :
    (∃ cause, ∀ edit : Site → Edit α, enter site step edit draft = .error cause draft) ∨
      ∃ sub part rebuild, Enters site draft step sub part rebuild ∧
        ∀ edit : Site → Edit α, enter site step edit draft = within part rebuild (edit sub) draft := by
  cases step with
  | member name =>
      simp only [enter, atMember, inspect_bind]
      cases looked : Draft.asStruct site draft with
      | error cause => exact .inl ⟨cause, fun _ => rfl⟩
      | ok pair =>
          obtain ⟨fields, members⟩ := pair
          obtain ⟨struct, rfl⟩ := asStruct_eq_ok looked
          cases found : Field.indexOf? fields name with
          | none => exact .inl ⟨.unknownField name, fun _ => by simp [found]; rfl⟩
          | some index =>
              cases declared : fields[index]? with
              | none => exact .inl ⟨.unknownField name, fun _ => by simp [found, declared]; rfl⟩
              | some field =>
                  cases there : members[index]? with
                  | none =>
                      exact .inl ⟨.unknownField name, fun _ => by
                        simp [found, declared, there]
                        rfl⟩
                  | some part =>
                      exact .inr ⟨_, part, _, .member struct found declared there, fun _ => by
                        simp [found, declared, there]⟩
  | element index =>
      simp only [enter, atElement, inspect_bind]
      cases looked : Draft.asArray site draft with
      | error cause => exact .inl ⟨cause, fun _ => rfl⟩
      | ok triple =>
          obtain ⟨element, length, elements⟩ := triple
          obtain ⟨array, rfl⟩ := asArray_eq_ok looked
          cases there : elements[index]? with
          | none => exact .inl ⟨.indexOutOfRange index elements.length, fun _ => by simp [there]; rfl⟩
          | some part => exact .inr ⟨_, part, _, .element array there, fun _ => by simp [there]⟩
  | append =>
      simp only [enter, atNewElement, inspect_bind]
      cases looked : Draft.asArray site draft with
      | error cause => exact .inl ⟨cause, fun _ => rfl⟩
      | ok triple =>
          obtain ⟨element, length, elements⟩ := triple
          obtain ⟨array, rfl⟩ := asArray_eq_ok looked
          cases room : Draft.isFull length elements.length with
          | true =>
              exact .inl ⟨.capacityExceeded site.name length.capacity, fun _ => by
                simp [room]
                rfl⟩
          | false => exact .inr ⟨_, _, _, .append array room, fun _ => by simp [room]⟩
  | key value =>
      simp only [enter, atKey, inspect_bind]
      cases looked : Draft.asView site draft with
      | error cause => exact .inl ⟨cause, fun _ => rfl⟩
      | ok pair =>
          obtain ⟨variants, selection⟩ := pair
          obtain ⟨⟨key, view⟩, rfl⟩ := asView_eq_ok looked
          exact atVariant_cases _ view fun index found => .inl ⟨value, rfl, found⟩
  | variant name =>
      simp only [enter, atNamed, inspect_bind]
      cases looked : Draft.asView site draft with
      | error cause => exact .inl ⟨cause, fun _ => rfl⟩
      | ok pair =>
          obtain ⟨variants, selection⟩ := pair
          obtain ⟨⟨key, view⟩, rfl⟩ := asView_eq_ok looked
          exact atVariant_cases _ view fun index found => .inr ⟨name, rfl, found⟩

end Steps

/-! ### Keeping the shape -/

/-- The part that a step leads to is shaped, and so is the whole around a shaped part. -/
theorem Enters.shaped {site sub : Site} {draft part : Draft} {step : Step} {rebuild : Draft → Draft}
    (enters : Enters site draft step sub part rebuild) (shaped : draft.Shaped site.layout) :
    part.Shaped sub.layout ∧
      ∀ next, next.Shaped sub.layout → (rebuild next).Shaped site.layout := by
  cases enters with
  | member struct found declared there =>
      rw [struct] at shaped ⊢
      refine ⟨?_, fun next fits => shaped.set_member declared fits⟩
      cases shaped with
      | struct whole each => exact Draft.Shaped.member each declared there
  | element array there =>
      rw [array] at shaped ⊢
      cases shaped with
      | array counted each =>
          refine ⟨each _ (List.mem_of_getElem? there), fun next fits => ?_⟩
          refine .array (by rwa [List.length_set]) fun draft member => ?_
          rcases List.mem_or_eq_of_mem_set member with old | rfl
          · exact each draft old
          · exact fits
  | @append element length elements array room =>
      rw [array] at shaped ⊢
      cases shaped with
      | array counted each =>
          refine ⟨Layout.shaped_blank element, fun next fits => ?_⟩
          refine .array ?_ fun draft member => ?_
          · cases length with
            | fixed count => simp [Draft.isFull] at room
            | bounded capacity counter =>
                simp only [Draft.isFull, decide_eq_false_iff_not, Nat.not_le] at room
                simpa [ArrayLength.Allows] using room
          · rcases List.mem_append.mp member with old | new
            · exact each draft old
            · exact List.mem_singleton.mp new ▸ fits
  | @payload key variants selection step index variant part view named declared selected =>
      rw [view] at shaped ⊢
      refine ⟨?_, fun next fits => .view declared fits⟩
      cases shaped with
      | unselected =>
          simp only [Draft.select, Except.ok.injEq] at selected
          exact selected ▸ Layout.shaped_blank variant.layout
      | @view _ _ current other payload currentDeclared inside =>
          simp only [Draft.select] at selected
          split_ifs at selected with same
          cases selected
          rw [same, declared] at currentDeclared
          cases currentDeclared
          exact inside

theorem after_within {α : Type} (part : Draft) (rebuild : Draft → Draft) (edit : Edit α)
    (draft : Draft) : (within part rebuild edit).after draft = rebuild (edit.after part) := by
  unfold after within
  cases edit part <;> rfl

/-- **What passes from a part to the whole**: a relation between a part and what an edit leaves of
it, which holds when nothing changes and of every whole around a part that it holds of. -/
structure Carries (kept : Site → Draft → Draft → Prop) : Prop where
  refl : ∀ site draft, kept site draft draft
  enters : ∀ {site sub : Site} {draft part next : Draft} {step : Step} {rebuild : Draft → Draft},
    Enters site draft step sub part rebuild → kept sub part next → kept site draft (rebuild next)

/-- An edit along a path keeps of the whole what it keeps of the part. -/
theorem Carries.along {α : Type} {kept : Site → Draft → Draft → Prop} {edit : Site → Edit α}
    (carries : Carries kept) (edited : ∀ site draft, kept site draft ((edit site).after draft))
    (path : List Step) (site : Site) (draft : Draft) :
    kept site draft ((along path edit site).after draft) := by
  induction path generalizing site draft with
  | nil => exact edited site draft
  | cons step rest ih =>
      rw [Edit.along]
      obtain ⟨cause, refused⟩ | ⟨sub, part, rebuild, enters, entered⟩ :=
        enter_cases site step draft
      · rw [after, refused]
        exact carries.refl site draft
      · have same : (enter site step (Edit.along rest edit)).after draft =
            (within part rebuild (Edit.along rest edit sub)).after draft := by
          rw [after, after, entered]
        rw [same, after_within]
        exact carries.enters enters (ih sub part)

/-- Shapes pass from a part to the whole. -/
theorem carries_shaped :
    Carries fun site draft next => draft.Shaped site.layout → next.Shaped site.layout where
  refl _ _ shaped := shaped
  enters enters kept shaped := (enters.shaped shaped).2 _ (kept (enters.shaped shaped).1)

/-- What holds of a part and of every change to it holds of what is left. -/
theorem after_update {change : Draft → Except WriteError Draft} {kept : Draft → Prop} {draft : Draft}
    (same : kept draft) (changed : ∀ next, change draft = .ok next → kept next) :
    kept ((update change).after draft) := by
  unfold after update
  cases found : change draft with
  | ok next => exact changed next found
  | error cause => exact same

end Edit

/-! ### Storing keeps the shape -/

/-- **What an action can leave of a part**: the part as it is, a single word that the layout allows,
or the bytes of a mask with a flag switched. -/
inductive Edit.Leaves (site : Site) (draft : Draft) : Draft → Prop where
  | same : Leaves site draft draft
  | word {word : UInt64} (shaped : (Draft.scalar (some word)).Shaped site.layout) :
      Leaves site draft (.scalar (some word))
  | mask {mask : Mask} {bytes : Bytes} {index : Nat} {on : Bool} (layout : site.layout = .mask mask)
      (held : draft = .mask bytes) : Leaves site draft (.mask (mask.switch bytes index on))

/-- The draft is a single word that the layout allows. -/
def Draft.IsWord (layout : Layout) (draft : Draft) : Prop :=
  ∃ word, draft = .scalar (some word) ∧ (Draft.scalar (some word)).Shaped layout

section Storing

variable {site : Site} {draft next : Draft}

theorem Edit.Leaves.of_isWord (stored : next.IsWord site.layout) : Edit.Leaves site draft next := by
  obtain ⟨word, rfl, shaped⟩ := stored
  exact .word shaped

theorem Draft.isWord_ofNumber {name : String} {format : IntFormat} {value : Int}
    (int : site.layout = .int format) (stored : Draft.ofNumber name format value = .ok next) :
    next.IsWord site.layout := by
  unfold Draft.ofNumber at stored
  split_ifs at stored
  cases stored
  refine ⟨_, rfl, ?_⟩
  rw [int]
  exact .int fun word held => Option.mem_some.mp held ▸ format.toWord_lt value

theorem Draft.isWord_ofUnsigned {value : UInt64} (stored : Draft.ofUnsigned site value = .ok next) :
    next.IsWord site.layout := by
  unfold Draft.ofUnsigned at stored
  split at stored
  · rename_i format int
    exact Draft.isWord_ofNumber int stored
  · rename_i enumeration enum
    split at stored
    · rename_i name known
      cases stored
      refine ⟨_, rfl, ?_⟩
      rw [enum]
      exact .enum fun word held => Option.mem_some.mp held ▸ ⟨name, known⟩
    · cases stored
  all_goals cases stored

theorem Draft.isWord_ofSigned {value : Int} (stored : Draft.ofSigned site value = .ok next) :
    next.IsWord site.layout := by
  unfold Draft.ofSigned at stored
  split at stored
  · rename_i format int
    exact Draft.isWord_ofNumber int stored
  all_goals cases stored

/-- The value of a name has a name. -/
theorem Enumeration.exists_nameOf? {enumeration : Enumeration} {name : String} {value : UInt64}
    (found : enumeration.valueOf? name = some value) :
    ∃ other, enumeration.nameOf? value = some other := by
  have some : (enumeration.variants.find? (·.value == value)).isSome := by
    rw [List.find?_isSome]
    exact ⟨_, mem_of_valueOf? found, by simp⟩
  obtain ⟨other, first⟩ := Option.isSome_iff_exists.mp some
  exact ⟨other.name, by rw [Enumeration.nameOf?, first, Option.map_some]⟩

theorem Draft.isWord_ofVariant {variant : String} (stored : Draft.ofVariant site variant = .ok next) :
    next.IsWord site.layout := by
  unfold Draft.ofVariant at stored
  split at stored
  · rename_i enumeration enum
    split at stored
    · rename_i value found
      cases stored
      refine ⟨_, rfl, ?_⟩
      rw [enum]
      exact .enum fun word held => Option.mem_some.mp held ▸ Enumeration.exists_nameOf? found
    · cases stored
  · cases stored

theorem Draft.leaves_setFlag {flag : String} {on : Bool}
    (stored : Draft.setFlag site flag on draft = .ok next) : Edit.Leaves site draft next := by
  simp only [Draft.setFlag, bind_eq_ok_iff, pure_eq_ok_iff] at stored
  obtain ⟨⟨mask, bytes⟩, looked, switched, set, rfl⟩ := stored
  obtain ⟨layout, held⟩ : site.layout = .mask mask ∧ draft = .mask bytes := by
    unfold Draft.asMask at looked
    split at looked <;> simp_all
  unfold Mask.set at set
  split at set
  · cases set
    exact .mask layout held
  · cases set

end Storing

theorem Mask.length_setWithin (mask : Mask) (depth : Nat) (bytes : Bytes) (index : Nat) :
    (mask.setWithin depth bytes index).length = bytes.length := by
  have fold : ∀ (change : Bytes → Nat → Bytes),
      (∀ bytes other, (change bytes other).length = bytes.length) →
      ∀ (others : List Nat) (bytes : Bytes), (others.foldl change bytes).length = bytes.length := by
    intro change keeps others
    induction others with
    | nil => exact fun _ => rfl
    | cons other rest ih => exact fun bytes => (ih _).trans (keeps bytes other)
  induction depth generalizing bytes index with
  | zero => rfl
  | succ depth ih =>
      rw [Mask.setWithin, fold _ ih,
        fold _ fun bytes other => mask.length_writeOwn bytes other false, mask.length_writeOwn]

theorem Mask.length_switch (mask : Mask) (bytes : Bytes) (index : Nat) (on : Bool) :
    (mask.switch bytes index on).length = bytes.length := by
  unfold Mask.switch
  split
  · exact mask.length_setWithin ..
  · exact mask.length_writeOwn ..

theorem Edit.Leaves.shaped {site : Site} {draft next : Draft} (leaves : Edit.Leaves site draft next)
    (shaped : draft.Shaped site.layout) : next.Shaped site.layout := by
  cases leaves with
  | same => exact shaped
  | word fits => exact fits
  | @mask mask bytes index on layout held =>
      rw [layout, held] at shaped
      rw [layout]
      cases shaped with
      | mask whole => exact .mask (by rw [mask.length_switch, whole])

/-! ### Every run keeps the shape -/

/-- The step that an action takes before it stores anything. -/
def Edit.Action.steps : Edit.Action → List Edit.Step
  | .push | .pushValue _ => [.append]
  | .select key => [.key key]
  | .selectNamed name => [.variant name]
  | _ => []

/-- What an action stores at the end of its steps, if anything. -/
def Edit.Action.store : Edit.Action → Site → Edit Unit
  | .set value | .pushValue value => fun site => update fun _ => Draft.ofUnsigned site value
  | .setSigned value => fun site => update fun _ => Draft.ofSigned site value
  | .setEnum variant => fun site => update fun _ => Draft.ofVariant site variant
  | .setFlag flag on => fun site => update (Draft.setFlag site flag on)
  | _ => fun _ => pure ()

/-- An action goes its steps and stores what it stores. -/
theorem Edit.Action.run_eq_along (action : Edit.Action) (site : Site) :
    action.run site = Edit.along action.steps action.store site := by
  cases action <;> rfl

theorem Edit.Action.leaves_store (action : Edit.Action) (site : Site) (draft : Draft) :
    Edit.Leaves site draft ((action.store site).after draft) := by
  cases action with
  | set value | pushValue value =>
      exact after_update .same fun _ stored => .of_isWord (Draft.isWord_ofUnsigned stored)
  | setSigned value =>
      exact after_update .same fun _ stored => .of_isWord (Draft.isWord_ofSigned stored)
  | setEnum variant =>
      exact after_update .same fun _ stored => .of_isWord (Draft.isWord_ofVariant stored)
  | setFlag flag on => exact after_update .same fun _ stored => Draft.leaves_setFlag stored
  | push | select key | selectNamed name => exact .same

/-- **An operation keeps of the record what its action keeps of one part.** -/
theorem Edit.Carries.perform {kept : Site → Draft → Draft → Prop} (carries : Edit.Carries kept)
    (stored : ∀ {site draft next}, Edit.Leaves site draft next → kept site draft next)
    (schema : Schema) (draft : Draft) (operation : Operation) :
    kept schema.site draft (schema.perform draft operation) := by
  refine carries.along (fun site draft => ?_) operation.path schema.site draft
  unfold Operation.edit
  split
  · rename_i action _
    rw [Edit.Action.run_eq_along]
    exact carries.along (fun _ _ => stored (action.leaves_store _ _)) _ site draft
  · exact carries.refl site draft

theorem Schema.shaped_perform {schema : Schema} {draft : Draft} (operation : Operation)
    (shaped : draft.Shaped schema.root) : (schema.perform draft operation).Shaped schema.root :=
  Edit.carries_shaped.perform (fun leaves => leaves.shaped) schema draft operation shaped

theorem Schema.shaped_of_edit {schema : Schema} {draft next : Draft} (operation : Operation)
    (shaped : draft.Shaped schema.root)
    (ran : schema.edit operation.path operation.edit draft = .ok () next) :
    next.Shaped schema.root := by
  have kept := shaped_perform operation shaped
  rwa [perform, Edit.after, ran] at kept

/-- **Every draft that a run of operations builds is shaped.** -/
theorem Schema.shaped_build (schema : Schema) (operations : List Operation) :
    (schema.build operations).Shaped schema.root := by
  have run : ∀ draft : Draft, draft.Shaped schema.root →
      (operations.foldl schema.perform draft).Shaped schema.root := by
    induction operations with
    | nil => exact fun _ shaped => shaped
    | cons operation rest ih => exact fun draft shaped => ih _ (shaped_perform operation shaped)
  exact run schema.blank (Layout.shaped_blank schema.root)

/-- A run that fills in the packet; the size is not to be stored, and its operation is refused. -/
def sampleRun : List Operation :=
  [⟨[.member "kind"], some (.setEnum "ack")⟩, ⟨[.member "flags"], some (.setFlag "last" true)⟩,
    ⟨[.member "items"], some (.pushValue 513)⟩, ⟨[.member "size"], some (.set 3)⟩,
    ⟨[.member "body", .key 1], some (.setSigned (-2))⟩]

end RecordLayout
