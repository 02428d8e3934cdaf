/-
**What was stored last.**

A run of operations is kept alongside with a journal: for each place of the record, the value that
was stored there last by an operation that was not refused. A place is a path as a reader takes it;
appending to an array leads to its last element, selecting a variant to the active payload.

Elements are never removed and a selection is never changed, so a place stays what it is. An
operation stores in one leaf at most and leaves every other leaf alone, whether it is refused or
not:

* `Edit.along_cases`: an edit along a path is refused on the way and brings no new leaf, or it
  edits the part at the place that the path leads to (`Reaches`).
* `Edit.Action.store_cases`: what an action stores in a part is the value that the journal notes
  for it.
* `Schema.recorded_run`: every leaf of the draft that a run builds holds what the journal says.
* `Schema.parse_toBuffer`: a written record is read back, and its leaves are the values stored last.
-/

import RecordLayout.Proofs.RoundTrip

namespace RecordLayout

deriving instance DecidableEq for Reader.Step

/-! ### Places -/

/-- A path from the root of a record to one of its parts. -/
abbrev Reader.Path := List Reader.Step

/-- The value that is noted for each place, if one is. -/
abbrev Journal := Reader.Path → Option Value

namespace Draft

/-- The part of a draft that a step leads to, with its layout. -/
def part? : Layout → Draft → Reader.Step → Option (Layout × Draft)
  | .struct fields, .struct members, .member name => do
      let index ← Field.indexOf? fields name
      return ((← fields[index]?).layout, ← members[index]?)
  | .array element _, .array elements, .element index => do return (element, ← elements[index]?)
  | .view _ variants, .view (some (index, payload)), .active => do
      return ((← variants[index]?).layout, payload)
  | _, _, _ => none

/-- The part of a draft at a place, with its layout. -/
def at? : Layout → Draft → Reader.Path → Option (Layout × Draft)
  | layout, draft, [] => some (layout, draft)
  | layout, draft, step :: rest => do
      let (inner, part) ← draft.part? layout step
      part.at? inner rest

/-- The direct parts of a draft, each with its layout. -/
inductive HasPart : Layout → Draft → Layout → Draft → Prop where
  | member {fields : List Field} {members : List Draft} {index : Nat} {field : Field} {part : Draft}
      (declared : fields[index]? = some field) (there : members[index]? = some part) :
      HasPart (.struct fields) (.struct members) field.layout part
  | element {element : Layout} {length : ArrayLength IntFormat} {elements : List Draft} {index : Nat}
      {part : Draft} (there : elements[index]? = some part) :
      HasPart (.array element length) (.array elements) element part
  | payload {key : IntFormat} {variants : List Variant} {index : Nat} {variant : Variant}
      {part : Draft} (declared : variants[index]? = some variant) :
      HasPart (.view key variants) (.view (some (index, part))) variant.layout part

theorem hasPart_of_part? {layout inner : Layout} {draft part : Draft} {step : Reader.Step}
    (found : draft.part? layout step = some (inner, part)) : HasPart layout draft inner part := by
  unfold part? at found
  split at found
  · simp only [Option.bind_eq_bind, Option.bind_eq_some_iff] at found
    obtain ⟨index, -, field, declared, _, there, same⟩ := found
    cases same
    exact .member declared there
  · simp only [Option.bind_eq_bind, Option.bind_eq_some_iff] at found
    obtain ⟨_, there, same⟩ := found
    cases same
    exact .element there
  · simp only [Option.bind_eq_bind, Option.bind_eq_some_iff] at found
    obtain ⟨variant, declared, same⟩ := found
    cases same
    exact .payload declared
  · cases found

/-- The leaves of `next` are leaves of `draft` already, but for those at places that are `fresh`. -/
def NewLeaves (layout : Layout) (draft next : Draft) (fresh : Reader.Path → Prop) : Prop :=
  ∀ place inner word, next.at? layout place = some (inner, .scalar (some word)) →
    fresh place ∨ draft.at? layout place = some (inner, .scalar (some word))

/-- A leaf has no parts. -/
theorem part?_scalar (layout : Layout) (slot : Option UInt64) (step : Reader.Step) :
    (Draft.scalar slot).part? layout step = none := by
  cases layout <;> rfl

/-- The bytes of a mask have no parts. -/
theorem part?_mask (layout : Layout) (bytes : Bytes) (step : Reader.Step) :
    (Draft.mask bytes).part? layout step = none := by
  cases layout <;> rfl

theorem NewLeaves.refl (layout : Layout) (draft : Draft) (fresh : Reader.Path → Prop) :
    NewLeaves layout draft draft fresh :=
  fun _ _ _ there => .inr there

end Draft

/-- How a reader calls the part that a step leads to, in the draft that the step has left. -/
def Edit.Step.place (after : Draft) : Edit.Step → Reader.Step
  | .member name => .member name
  | .element index => .element index
  | .append => .element (after.count - 1)
  | .key _ | .variant _ => .active

/-- The place that a path has led to, with the layout of the part there. -/
def Edit.place? : Layout → (after : Draft) → List Edit.Step → Option (Reader.Path × Layout)
  | layout, _, [] => some ([], layout)
  | layout, after, step :: rest => do
      let (inner, part) ← after.part? layout (step.place after)
      let (place, target) ← place? inner part rest
      return (step.place after :: place, target)

/-- The value that an action stores in a part with a layout, if it stores one. -/
def Edit.Action.value? (layout : Layout) : Edit.Action → Option Value
  | .set number | .pushValue number =>
      match layout with
      | .int format => some (format.number number.toNat)
      | .enum enumeration => (enumeration.nameOf? number).map .enum
      | _ => none
  | .setSigned number =>
      match layout with
      | .int format => some (format.number number)
      | _ => none
  | .setEnum variant =>
      match layout with
      | .enum _ => some (.enum variant)
      | _ => none
  | _ => none

namespace Schema

/-- What an operation stores and where, unless it is refused. -/
def entry? (schema : Schema) (draft : Draft) (operation : Operation) :
    Option (Reader.Path × Value) :=
  match operation.action, schema.edit operation.path operation.edit draft with
  | some action, .ok _ next => do
      let (place, layout) ← Edit.place? schema.root next (operation.path ++ action.steps)
      return (place, ← action.value? layout)
  | _, _ => none

/-- Carries out an operation and notes what it stores. -/
def record (schema : Schema) (state : Draft × Journal) (operation : Operation) :
    Draft × Journal :=
  (schema.perform state.1 operation,
    match schema.entry? state.1 operation with
    | some (target, value) => fun place => if place = target then some value else state.2 place
    | none => state.2)

/-- The value that a run of operations has stored last at a place. -/
def lastStored (schema : Schema) (operations : List Operation) : Journal :=
  (operations.foldl schema.record (schema.blank, fun _ => none)).2

end Schema

/-! ### One step -/

namespace Edit

variable {site sub : Site} {draft part : Draft} {step : Step} {rebuild : Draft → Draft}

/-- A payload is the active one, whichever step has led to it. -/
theorem Step.place_of_payload {variants : List Variant} {index : Nat}
    (named : (∃ value, step = .key value ∧ Variant.indexOfKey? variants value = some index) ∨
      ∃ name, step = .variant name ∧ Variant.indexOfName? variants name = some index)
    (after : Draft) : step.place after = .active := by
  rcases named with ⟨value, rfl, -⟩ | ⟨name, rfl, -⟩ <;> rfl

/-- The part that a step leads to is where the reader finds it. -/
theorem Enters.part?_rebuild (enters : Enters site draft step sub part rebuild) (next : Draft) :
    (rebuild next).part? site.layout (step.place (rebuild next)) = some (sub.layout, next) := by
  cases enters with
  | @member fields members name index field part struct found declared there =>
      have inside := (List.getElem?_eq_some_iff.mp there).1
      simp [struct, Step.place, Draft.part?, found, declared, List.getElem?_set_self inside]
  | @element element length elements index part array there =>
      have inside := (List.getElem?_eq_some_iff.mp there).1
      simp [array, Step.place, Draft.part?, List.getElem?_set_self inside]
  | @append element length elements array room =>
      simp [array, Step.place, Draft.part?, Draft.count]
  | @payload key variants selection step index variant part view named declared selected =>
      simp [view, Step.place_of_payload named, Draft.part?, declared]

/-- Every other part is the one that was there before. -/
theorem Enters.part?_of_ne (enters : Enters site draft step sub part rebuild) {next : Draft}
    {other : Reader.Step} (apart : other ≠ step.place (rebuild next)) :
    (rebuild next).part? site.layout other = draft.part? site.layout other := by
  cases enters with
  | @member fields members name index field part struct located declared present =>
      rw [struct]
      cases other with
      | member label =>
          simp only [Draft.part?]
          cases found : Field.indexOf? fields label with
          | none => rfl
          | some position =>
              have differs : index ≠ position := by
                rintro rfl
                apply apart
                rw [← Field.name_of_indexOf? found declared,
                  Field.name_of_indexOf? located declared]
                rfl
              simp only [Option.bind_eq_bind, Option.bind_some, List.getElem?_set_ne differs]
      | _ => rfl
  | @element element length elements index part array present =>
      rw [array]
      cases other with
      | element position =>
          have differs : index ≠ position := fun same => apart (by rw [same]; rfl)
          simp only [Draft.part?, List.getElem?_set_ne differs]
      | _ => rfl
  | @append element length elements array room =>
      rw [array]
      cases other with
      | element position =>
          have differs : position ≠ elements.length := by
            intro same
            apply apart
            simp [Step.place, Draft.count, same]
          have same : (elements ++ [next])[position]? = elements[position]? := by
            by_cases inside : position < elements.length
            · exact List.getElem?_append_left inside
            · have whole : (elements ++ [next]).length = elements.length + 1 := by simp
              rw [List.getElem?_eq_none (by omega), List.getElem?_eq_none (by omega)]
          simp only [Draft.part?, same]
      | _ => rfl
  | @payload key variants selection step index variant part view named declared selected =>
      rw [view]
      cases other with
      | active => exact absurd (Step.place_of_payload named _).symm apart
      | _ =>
          cases selection with
          | none => rfl
          | some current => rfl

/-- The part that a step leads to was there before, or it is a blank one at a place that had none. -/
theorem Enters.part?_or_blank (enters : Enters site draft step sub part rebuild) (next : Draft) :
    draft.part? site.layout (step.place (rebuild next)) = some (sub.layout, part) ∨
      draft.part? site.layout (step.place (rebuild next)) = none ∧ part = sub.layout.blank := by
  cases enters with
  | @member fields members name index field part struct found declared present =>
      exact .inl (by simp [struct, Step.place, Draft.part?, found, declared, present])
  | @element element length elements index part array present =>
      exact .inl (by simp [array, Step.place, Draft.part?, present])
  | @append element length elements array room =>
      exact .inr ⟨by simp [array, Step.place, Draft.part?, Draft.count], rfl⟩
  | @payload key variants selection step index variant part view named declared selected =>
      rw [view, Step.place_of_payload named]
      cases selection with
      | none =>
          cases selected
          exact .inr ⟨rfl, rfl⟩
      | some current =>
          obtain ⟨position, payload⟩ := current
          rw [Draft.select] at selected
          split_ifs at selected with same
          cases selected
          exact .inl (by simp [Draft.part?, same, declared])

end Edit

/-! ### Blank drafts have no leaves -/

theorem Layout.blank_part? {layout inner : Layout} {step : Reader.Step} {part : Draft}
    (there : layout.blank.part? layout step = some (inner, part)) : part = inner.blank := by
  cases layout with
  | struct fields =>
      cases step with
      | member name =>
          simp only [Layout.blank, Draft.part?, blankMembers_eq_map, Option.bind_eq_bind,
            Option.bind_eq_some_iff, List.getElem?_map, Option.map_eq_some_iff] at there
          obtain ⟨index, -, field, declared, _, ⟨again, present, rfl⟩, same⟩ := there
          rw [declared] at present
          cases present
          cases same
          rfl
      | _ => cases there
  | array element length =>
      cases length with
      | fixed count =>
          cases step with
          | element index =>
              simp only [Layout.blank, Draft.part?, Option.bind_eq_bind,
                Option.bind_eq_some_iff] at there
              obtain ⟨value, present, same⟩ := there
              cases same
              exact List.eq_of_mem_replicate (List.mem_of_getElem? present)
          | _ => cases there
      | bounded capacity counter => cases step <;> cases there
  | _ => cases step <;> cases there

/-- The parts of a blank draft are blank. -/
theorem Layout.blank_at? {layout inner : Layout} {place : Reader.Path} {part : Draft}
    (there : layout.blank.at? layout place = some (inner, part)) : part = inner.blank := by
  induction place generalizing layout with
  | nil =>
      cases there
      rfl
  | cons step rest ih =>
      rw [Draft.at?] at there
      obtain ⟨⟨middle, whole⟩, found, later⟩ := Option.bind_eq_some_iff.mp there
      have blank := Layout.blank_part? found
      subst blank
      exact ih later

/-- **Nothing is stored in a blank draft.** -/
theorem Layout.blank_at?_ne_scalar {layout inner : Layout} {place : Reader.Path} {word : UInt64} :
    layout.blank.at? layout place ≠ some (inner, .scalar (some word)) := by
  intro there
  have blank := Layout.blank_at? there
  cases inner with
  | array element length => cases length <;> cases blank
  | _ => cases blank

namespace Edit

variable {site sub : Site} {draft part : Draft} {step : Step} {rebuild : Draft → Draft}

/-- A leaf of the part that a step leads to was a leaf of the whole: a part that the step has made
is blank. -/
theorem Enters.at?_of_part (enters : Enters site draft step sub part rebuild) (next : Draft)
    {place : Reader.Path} {inner : Layout} {word : UInt64}
    (there : part.at? sub.layout place = some (inner, .scalar (some word))) :
    draft.at? site.layout (step.place (rebuild next) :: place) =
      some (inner, .scalar (some word)) := by
  rcases enters.part?_or_blank next with old | ⟨-, rfl⟩
  · rw [Draft.at?, old]
    exact there
  · exact absurd there Layout.blank_at?_ne_scalar

/-- **A step brings new leaves only where its part has them.** -/
theorem Enters.newLeaves (enters : Enters site draft step sub part rebuild) {next : Draft}
    {fresh : Reader.Path → Prop} (inner : Draft.NewLeaves sub.layout part next fresh) :
    Draft.NewLeaves site.layout draft (rebuild next) fun place =>
      ∃ rest, place = step.place (rebuild next) :: rest ∧ fresh rest := by
  intro place leaf word there
  cases place with
  | nil => cases enters <;> cases there
  | cons first rest =>
      obtain ⟨⟨middle, found⟩, reached, later⟩ := Option.bind_eq_some_iff.mp there
      by_cases same : first = step.place (rebuild next)
      · subst same
        rw [enters.part?_rebuild next] at reached
        cases reached
        rcases inner rest leaf word later with new | old
        · exact .inl ⟨rest, rfl, new⟩
        · exact .inr (enters.at?_of_part next old)
      · refine .inr ?_
        rw [enters.part?_of_ne same] at reached
        rw [Draft.at?, reached]
        exact later

theorem Enters.valid (enters : Enters site draft step sub part rebuild)
    (valid : site.layout.Valid) : sub.layout.Valid := by
  cases enters with
  | member struct _ declared _ =>
      rw [struct] at valid
      exact valid.member (List.mem_of_getElem? declared)
  | element array _ | append array _ =>
      rw [array] at valid
      exact valid.element
  | payload view _ declared _ =>
      rw [view] at valid
      exact valid.payload (List.mem_of_getElem? declared)

/-! ### Whole paths -/

/-- **A path leads** from a draft at `site` to `part`, which stands at `target`. In the draft that
is rebuilt around the part, the path has the given place. -/
structure Reaches (site : Site) (draft : Draft) (path : List Step) (place : Reader.Path)
    (target : Site) (part : Draft) (rebuild : Draft → Draft) : Prop where
  valid : site.layout.Valid → target.layout.Valid
  placed : ∀ next, place? site.layout (rebuild next) path = some (place, target.layout)
  found : ∀ next, (rebuild next).at? site.layout place = some (target.layout, next)
  others : ∀ next fresh, Draft.NewLeaves target.layout part next fresh →
    Draft.NewLeaves site.layout draft (rebuild next) fun other =>
      ∃ rest, other = place ++ rest ∧ fresh rest

theorem Reaches.here (site : Site) (draft : Draft) : Reaches site draft [] [] site draft id where
  valid := id
  placed _ := rfl
  found _ := rfl
  others _ _ new place leaf word there := (new place leaf word there).imp_left fun fresh =>
    ⟨place, rfl, fresh⟩

/-- The reader's name for the part does not depend on what is stored in it. -/
theorem Enters.place_eq (enters : Enters site draft step sub part rebuild) (next other : Draft) :
    step.place (rebuild next) = step.place (rebuild other) := by
  cases enters with
  | member | element => rfl
  | append => simp [Step.place, Draft.count]
  | payload _ named _ _ => rw [Step.place_of_payload named, Step.place_of_payload named]

theorem Reaches.cons {path : List Step} {place : Reader.Path} {target : Site} {middle : Draft}
    {inner : Draft → Draft} (enters : Enters site draft step sub middle rebuild)
    (rest : Reaches sub middle path place target part inner) :
    Reaches site draft (step :: path) (step.place (rebuild middle) :: place) target part
      fun next => rebuild (inner next) where
  valid outer := rest.valid (enters.valid outer)
  placed next := by
    rw [place?, enters.part?_rebuild (inner next), enters.place_eq (inner next) middle]
    show (place? sub.layout (inner next) path).bind _ = _
    rw [rest.placed next]
    rfl
  found next := by
    rw [enters.place_eq middle (inner next)]
    show ((rebuild (inner next)).part? site.layout _).bind _ = _
    rw [enters.part?_rebuild (inner next)]
    exact rest.found next
  others next fresh new := by
    intro other leaf word there
    rcases enters.newLeaves (rest.others next fresh new) other leaf word there with
      ⟨tail, rfl, ⟨deep, rfl, fresh⟩⟩ | old
    · exact .inl ⟨deep, by rw [enters.place_eq (inner next) middle]; rfl, fresh⟩
    · exact .inr old

/-- Where the part has no new leaf, the whole has none. -/
theorem Reaches.same_leaves {path : List Step} {place : Reader.Path} {target : Site} {next : Draft}
    (reaches : Reaches site draft path place target part rebuild)
    (none : Draft.NewLeaves target.layout part next fun _ => False) :
    Draft.NewLeaves site.layout draft (rebuild next) fun _ => False := by
  intro other leaf word there
  rcases reaches.others next _ none other leaf word there with ⟨_, _, impossible⟩ | old
  · exact impossible.elim
  · exact .inr old

/-- Where the part is a new leaf, it is the only one. -/
theorem Reaches.one_leaf {path : List Step} {place : Reader.Path} {target : Site}
    (reaches : Reaches site draft path place target part rebuild) (word : Option UInt64) :
    Draft.NewLeaves site.layout draft (rebuild (.scalar word)) fun other => other = place := by
  have only : Draft.NewLeaves target.layout part (.scalar word) fun rest => rest = [] := by
    intro rest leaf other there
    cases rest with
    | nil => exact .inl rfl
    | cons step rest =>
        rw [Draft.at?, Draft.part?_scalar] at there
        cases there
  intro other leaf found there
  rcases reaches.others _ _ only other leaf found there with ⟨rest, rfl, rfl⟩ | old
  · exact .inl (List.append_nil place)
  · exact .inr old

theorem within_congr {α : Type} {part : Draft} {first second : Edit α} (rebuild : Draft → Draft)
    (same : first part = second part) (draft : Draft) :
    within part rebuild first draft = within part rebuild second draft := by
  rw [within, within, same]

/-- A refused edit of a part leaves the whole around what it has left of the part. -/
theorem within_eq_error {α : Type} {part draft next : Draft} {rebuild : Draft → Draft} {edit : Edit α}
    {cause : WriteError} (refused : within part rebuild edit draft = .error cause next) :
    ∃ left, edit part = .error cause left ∧ next = rebuild left := by
  unfold within at refused
  cases ran : edit part with
  | ok answer left =>
      rw [ran] at refused
      cases refused
  | error other left =>
      rw [ran] at refused
      cases refused
      exact ⟨left, rfl, rfl⟩

/-- An edit of a part that is not refused leaves the whole around what it has made of the part. -/
theorem within_eq_ok {α : Type} {part draft next : Draft} {rebuild : Draft → Draft} {edit : Edit α}
    {answer : α} (ran : within part rebuild edit draft = .ok answer next) :
    ∃ after, edit part = .ok answer after ∧ next = rebuild after := by
  unfold within at ran
  cases stored : edit part with
  | ok other after =>
      rw [stored] at ran
      cases ran
      exact ⟨after, rfl, rfl⟩
  | error cause after =>
      rw [stored] at ran
      cases ran

theorem within_within {α : Type} (part middle : Draft) (outer inner : Draft → Draft) (edit : Edit α)
    (draft : Draft) :
    within middle outer (within part inner edit) draft =
      within part (fun next => outer (inner next)) edit draft := by
  unfold within
  cases edit part <;> rfl

/-- **An edit along a path** is refused on the way and brings no new leaf, or it edits the part that
the path leads to; which of the two does not depend on the edit. -/
theorem along_cases {α : Type} (path : List Step) (site : Site) (draft : Draft) :
    (∃ cause next, (∀ edit : Site → Edit α, along path edit site draft = .error cause next) ∧
      Draft.NewLeaves site.layout draft next fun _ => False) ∨
    ∃ place target part rebuild, Reaches site draft path place target part rebuild ∧
      ∀ edit : Site → Edit α,
        along path edit site draft = within part rebuild (edit target) draft := by
  induction path generalizing site draft with
  | nil =>
      refine .inr ⟨[], site, draft, id, Reaches.here site draft, fun edit => ?_⟩
      rw [along, within]
      cases edit site draft <;> rfl
  | cons step rest ih =>
      rcases enter_cases (α := α) site step draft with
        ⟨cause, refused⟩ | ⟨sub, middle, rebuild, enters, entered⟩
      · exact .inl ⟨cause, draft, fun edit => refused _, Draft.NewLeaves.refl _ _ _⟩
      · rcases ih sub middle with ⟨cause, next, refused, none⟩ |
          ⟨place, target, part, inner, reaches, led⟩
        · refine .inl ⟨cause, rebuild next, fun edit => ?_, ?_⟩
          · rw [along, entered, within, refused]
          · intro place leaf word there
            rcases enters.newLeaves none place leaf word there with ⟨_, _, impossible⟩ | old
            · exact impossible.elim
            · exact .inr old
        · refine .inr ⟨_, target, part, _, Reaches.cons enters reaches, fun edit => ?_⟩
          rw [along, entered, ← within_within part middle rebuild inner (edit target) draft]
          exact within_congr rebuild (led edit) draft

/-- A refused edit brings no new leaf, if the refusal leaves the part as it is. -/
theorem newLeaves_of_along_error {α : Type} {path : List Step} {edit : Site → Edit α} {next : Draft}
    {cause : WriteError}
    (keeps : ∀ target part cause next, edit target part = .error cause next → next = part)
    (refused : along path edit site draft = .error cause next) :
    Draft.NewLeaves site.layout draft next fun _ => False := by
  rcases along_cases path site draft with
    ⟨other, left, early, none⟩ | ⟨place, target, part, rebuild, reaches, led⟩
  · rw [early] at refused
    cases refused
    exact none
  · rw [led] at refused
    obtain ⟨left, ran, rfl⟩ := within_eq_error refused
    rw [keeps target part cause left ran]
    exact reaches.same_leaves (Draft.NewLeaves.refl _ _ _)

/-- An edit that is not refused has edited the part that the path leads to. -/
theorem reaches_of_along_ok {α : Type} {path : List Step} {edit : Site → Edit α} {next : Draft}
    {answer : α} (ran : along path edit site draft = .ok answer next) :
    ∃ place target part rebuild after, Reaches site draft path place target part rebuild ∧
      edit target part = .ok answer after ∧ next = rebuild after := by
  rcases along_cases path site draft with
    ⟨cause, left, refused, -⟩ | ⟨place, target, part, rebuild, reaches, led⟩
  · rw [refused] at ran
    cases ran
  · rw [led] at ran
    obtain ⟨after, stored, rfl⟩ := within_eq_ok ran
    exact ⟨place, target, part, rebuild, after, reaches, stored, rfl⟩

theorem along_append {α : Type} (first second : List Step) (edit : Site → Edit α) (site : Site) :
    along (first ++ second) edit site = along first (along second edit) site := by
  induction first generalizing site with
  | nil => rfl
  | cons step rest ih =>
      rw [List.cons_append, along, along]
      exact congrArg (enter site step) (funext ih)

end Edit

/-! ### Storing -/

namespace Edit

theorem update_eq_ok (change : Draft → Except WriteError Draft) {draft next : Draft}
    (ran : update change draft = .ok () next) : change draft = .ok next := by
  unfold update at ran
  split at ran
  · rename_i changed
    cases ran
    exact changed
  · cases ran

theorem update_eq_error (change : Draft → Except WriteError Draft) {draft next : Draft}
    {cause : WriteError} (ran : update change draft = .error cause next) : next = draft := by
  unfold update at ran
  split at ran
  · cases ran
  · cases ran
    rfl

namespace Action

variable {action : Action} {site : Site} {part next : Draft}

theorem store_eq_error {cause : WriteError} (ran : action.store site part = .error cause next) :
    next = part := by
  cases action with
  | set number | pushValue number =>
      exact update_eq_error (fun _ => Draft.ofUnsigned site number) ran
  | setSigned number => exact update_eq_error (fun _ => Draft.ofSigned site number) ran
  | setEnum variant => exact update_eq_error (fun _ => Draft.ofVariant site variant) ran
  | setFlag flag on => exact update_eq_error (Draft.setFlag site flag on) ran
  | push | select _ | selectNamed _ => cases ran

theorem value?_ofNumber {name : String} {format : IntFormat} {number : Int}
    (stored : Draft.ofNumber name format number = .ok next) :
    ∃ word, next = .scalar (some word) ∧
      next.value? (.int format) = some (format.number number) := by
  unfold Draft.ofNumber at stored
  split at stored
  · rename_i fits
    cases stored
    exact ⟨_, rfl, congrArg some (IntFormat.value_toWord fits)⟩
  · cases stored

/-- What an unsigned number leaves in a part is the value that the journal notes. -/
theorem value?_ofUnsigned {number : UInt64} (stored : Draft.ofUnsigned site number = .ok next) :
    ∃ value word, (Action.set number).value? site.layout = some value ∧
      next = .scalar (some word) ∧ next.value? site.layout = some value := by
  unfold Draft.ofUnsigned at stored
  split at stored
  · rename_i format int
    obtain ⟨word, rfl, value⟩ := value?_ofNumber stored
    exact ⟨_, word, by rw [int]; rfl, rfl, by rw [int]; exact value⟩
  · rename_i enumeration enum
    split at stored
    · rename_i name known
      cases stored
      refine ⟨.enum name, number, ?_, rfl, ?_⟩
      · rw [enum]
        simp [Action.value?, known]
      · rw [enum, Draft.value?, known]
        rfl
    · cases stored
  all_goals cases stored

/-- **An action stores the value that the journal notes**, or it stores nothing. -/
theorem store_cases (valid : site.layout.Valid) (ran : action.store site part = .ok () next) :
    (∃ value word, action.value? site.layout = some value ∧ next = .scalar (some word) ∧
      next.value? site.layout = some value) ∨
    action.value? site.layout = none ∧
      Draft.NewLeaves site.layout part next fun _ => False := by
  cases action with
  | set number | pushValue number =>
      exact .inl (value?_ofUnsigned (update_eq_ok (fun _ => Draft.ofUnsigned site number) ran))
  | setSigned number =>
      have stored := update_eq_ok (fun _ => Draft.ofSigned site number) ran
      unfold Draft.ofSigned at stored
      split at stored
      · rename_i format int
        obtain ⟨word, rfl, value⟩ := value?_ofNumber stored
        exact .inl ⟨_, word, by rw [int]; rfl, rfl, by rw [int]; exact value⟩
      all_goals cases stored
  | setEnum variant =>
      have stored := update_eq_ok (fun _ => Draft.ofVariant site variant) ran
      unfold Draft.ofVariant at stored
      split at stored
      · rename_i enumeration enum
        split at stored
        · rename_i value found
          cases stored
          rw [enum] at valid ⊢
          cases valid with
          | enum variants =>
              refine .inl ⟨.enum variant, value, rfl, rfl, ?_⟩
              rw [Draft.value?, variants.nameOf?_eq_some_iff.mpr (Enumeration.mem_of_valueOf? found)]
              rfl
        · cases stored
      · cases stored
  | setFlag flag on =>
      refine .inr ⟨rfl, ?_⟩
      have stored := update_eq_ok (Draft.setFlag site flag on) ran
      obtain ⟨⟨mask, bytes⟩, looked, stored⟩ := bind_eq_ok_iff.mp stored
      obtain ⟨switched, -, same⟩ := bind_eq_ok_iff.mp stored
      cases same
      intro place inner word there
      cases place with
      | nil => cases there
      | cons step rest =>
          rw [Draft.at?, Draft.part?_mask] at there
          cases there
  | push | select _ | selectNamed _ =>
      cases ran
      exact .inr ⟨rfl, Draft.NewLeaves.refl _ _ _⟩

end Action

end Edit

/-! ### Runs -/

namespace Draft

variable {layout : Layout} {draft next : Draft} {stored : Journal}

/-- Every leaf of the draft holds the value that is noted for its place. -/
def Recorded (layout : Layout) (draft : Draft) (stored : Journal) : Prop :=
  ∀ place inner word, draft.at? layout place = some (inner, .scalar (some word)) →
    ∃ value, (Draft.scalar (some word)).value? inner = some value ∧ stored place = some value

theorem Recorded.of_newLeaves (recorded : draft.Recorded layout stored)
    (none : NewLeaves layout draft next fun _ => False) : next.Recorded layout stored := by
  intro place inner word there
  rcases none place inner word there with impossible | old
  · exact impossible.elim
  · exact recorded place inner word old

/-- A new leaf that is noted keeps the journal right. -/
theorem Recorded.note {target : Reader.Path} {inner : Layout} {word : UInt64} {value : Value}
    (recorded : draft.Recorded layout stored)
    (only : NewLeaves layout draft next fun place => place = target)
    (new : next.at? layout target = some (inner, .scalar (some word)))
    (denotes : (Draft.scalar (some word)).value? inner = some value) :
    next.Recorded layout fun place => if place = target then some value else stored place := by
  intro place leaf other there
  by_cases same : place = target
  · subst same
    rw [new] at there
    cases there
    exact ⟨value, denotes, if_pos rfl⟩
  · rcases only place leaf other there with impossible | old
    · exact absurd impossible same
    · obtain ⟨known, denotes, noted⟩ := recorded place leaf other old
      exact ⟨known, denotes, (if_neg same).trans noted⟩

end Draft

namespace Schema

variable {schema : Schema}

/-- An operation follows the steps of its action, too, and stores at the end. -/
theorem edit_eq_along (schema : Schema) (path : List Edit.Step) (action : Edit.Action) :
    schema.edit path (Operation.edit ⟨path, some action⟩) =
      Edit.along (path ++ action.steps) action.store schema.site := by
  rw [Edit.along_append, Schema.edit]
  exact congrArg (fun edit => Edit.along path edit schema.site) (funext action.run_eq_along)

/-- **One operation keeps the journal right.** -/
theorem recorded_record (valid : schema.root.Valid) {state : Draft × Journal}
    (recorded : state.1.Recorded schema.root state.2) (operation : Operation) :
    (schema.record state operation).1.Recorded schema.root (schema.record state operation).2 := by
  obtain ⟨draft, stored⟩ := state
  obtain ⟨path, action⟩ := operation
  rw [record, perform, entry?, Edit.after]
  cases action with
  | none =>
      refine recorded.of_newLeaves ?_
      cases ran : schema.edit path (Operation.edit ⟨path, none⟩) draft with
      | error cause next =>
          exact Edit.newLeaves_of_along_error (fun _ _ _ _ impossible => by cases impossible) ran
      | ok answer next =>
          obtain ⟨place, target, part, rebuild, after, reaches, same, rfl⟩ :=
            Edit.reaches_of_along_ok ran
          cases same
          exact reaches.same_leaves (Draft.NewLeaves.refl _ _ _)
  | some action =>
      simp only [schema.edit_eq_along path action]
      cases ran : Edit.along (path ++ action.steps) action.store schema.site draft with
      | error cause next =>
          refine recorded.of_newLeaves ?_
          exact Edit.newLeaves_of_along_error (fun _ _ _ _ => Edit.Action.store_eq_error) ran
      | ok answer next =>
          obtain ⟨place, target, part, rebuild, after, reaches, wrote, rfl⟩ :=
            Edit.reaches_of_along_ok ran
          have placed : Edit.place? schema.root (rebuild after) (path ++ action.steps) =
              some (place, target.layout) := reaches.placed after
          rcases Edit.Action.store_cases (reaches.valid valid) wrote with
            ⟨value, word, noted, rfl, denotes⟩ | ⟨silent, none⟩
          · simp only [placed, noted, Option.bind_eq_bind, Option.bind_some]
            exact recorded.note (reaches.one_leaf (some word)) (reaches.found _) denotes
          · simp only [placed, silent, Option.bind_eq_bind, Option.bind_some]
            exact recorded.of_newLeaves (reaches.same_leaves none)

theorem foldl_record_fst (schema : Schema) (operations : List Operation)
    (state : Draft × Journal) :
    (operations.foldl schema.record state).1 = operations.foldl schema.perform state.1 := by
  induction operations generalizing state with
  | nil => rfl
  | cons operation rest ih =>
      rw [List.foldl_cons, List.foldl_cons, ih]
      rfl

/-- **Every leaf holds what was stored there last.** -/
theorem recorded_run (valid : schema.root.Valid) (operations : List Operation) :
    (schema.build operations).Recorded schema.root (schema.lastStored operations) := by
  have run (state : Draft × Journal)
      (recorded : state.1.Recorded schema.root state.2) :
      (operations.foldl schema.record state).1.Recorded schema.root
        (operations.foldl schema.record state).2 := by
    induction operations generalizing state with
    | nil => exact recorded
    | cons operation rest ih => exact ih _ (recorded_record valid recorded operation)
  have start : schema.blank.Recorded schema.root fun _ => none :=
    fun place inner word there => absurd there Layout.blank_at?_ne_scalar
  have final := run (schema.blank, fun _ => none) start
  rw [foldl_record_fst] at final
  exact final

end Schema

/-! ### Leaves of the value -/

theorem memberValues_eq_some {scope : Scope} {sizes : List Nat} {fields : List Field}
    {members : List Draft} {values : List (String × Value)}
    (whole : members.length = fields.length)
    (known : memberValues scope sizes fields members = some values) :
    values.map Prod.fst = fields.map (·.name) ∧
    ∀ (index : Nat) field member, fields[index]? = some field → members[index]? = some member →
      ∃ value, scope.memberValue? sizes field member = some value ∧
        values[index]? = some (field.name, value) := by
  induction fields generalizing members values with
  | nil =>
      have empty : values = [] := by cases members <;> cases known <;> rfl
      subst empty
      exact ⟨rfl, fun index field member declared => by simp at declared⟩
  | cons first fields ih =>
      cases members with
      | nil => cases whole
      | cons head members =>
          simp only [memberValues_cons, Option.bind_eq_bind, Option.bind_eq_some_iff] at known
          obtain ⟨value, here, values, later, same⟩ := known
          cases same
          obtain ⟨names, each⟩ := ih (Nat.succ.inj whole) later
          refine ⟨by simp [names], fun index field member declared present => ?_⟩
          cases index with
          | zero =>
              cases declared
              cases present
              exact ⟨value, here, rfl⟩
          | succ index => exact each index field member declared present

theorem elementValues_eq_some {element : Layout} {elements : List Draft} {values : List Value}
    (known : elementValues element elements = some values) {index : Nat} {draft : Draft}
    (present : elements[index]? = some draft) :
    ∃ value, draft.value? element = some value ∧ values[index]? = some value := by
  induction elements generalizing values index with
  | nil => cases present
  | cons head rest ih =>
      simp only [elementValues, Option.bind_eq_bind, Option.bind_eq_some_iff] at known
      obtain ⟨value, here, values, later, same⟩ := known
      cases same
      cases index with
      | zero =>
          cases present
          exact ⟨value, here, rfl⟩
      | succ index => exact ih later present

namespace Draft

variable {layout inner : Layout} {draft part : Draft} {step : Reader.Step} {value : Value}

theorem Shaped.of_part? (shaped : draft.Shaped layout)
    (found : draft.part? layout step = some (inner, part)) : part.Shaped inner := by
  cases hasPart_of_part? found with
  | member declared there =>
      cases shaped with
      | struct whole each => exact Shaped.member each declared there
  | element there =>
      cases shaped with
      | array counted each => exact each _ (List.mem_of_getElem? there)
  | payload declared =>
      cases shaped with
      | view selected inside =>
          rw [selected] at declared
          cases declared
          exact inside

/-- The value of a part is a part of the value. -/
theorem value?_part (shaped : draft.Shaped layout) (known : draft.value? layout = some value)
    (found : draft.part? layout step = some (inner, part))
    (plain : ∀ format expr, inner ≠ .derived format expr) :
    ∃ sub, part.value? inner = some sub ∧ value.step? step = some sub := by
  cases shaped with
  | @struct fields members whole each =>
      cases step with
      | member name =>
          simp only [part?, Option.bind_eq_bind, Option.bind_eq_some_iff] at found
          obtain ⟨index, located, field, declared, member, present, same⟩ := found
          cases same
          simp only [value?, Option.bind_eq_bind, Option.bind_eq_some_iff] at known
          obtain ⟨values, known, same⟩ := known
          cases same
          obtain ⟨names, each⟩ := memberValues_eq_some whole known
          obtain ⟨sub, value, there⟩ := each index field part declared present
          refine ⟨sub, ?_, ?_⟩
          · unfold Scope.memberValue? at value
            split at value
            · rename_i format expr derived
              exact absurd derived (plain format expr)
            · exact value
          · show values.lookup name = some sub
            rw [lookup_eq_indexOf? names, located, Option.bind_some, there, Option.map_some]
      | _ => cases found
  | @array element length elements counted each =>
      cases step with
      | element index =>
          simp only [part?, Option.bind_eq_bind, Option.bind_eq_some_iff] at found
          obtain ⟨member, present, same⟩ := found
          cases same
          simp only [value?, Option.bind_eq_bind, Option.bind_eq_some_iff] at known
          obtain ⟨values, known, same⟩ := known
          cases same
          exact elementValues_eq_some known present
      | _ => cases found
  | @view key variants index variant payload selected inside =>
      cases step with
      | active =>
          simp only [part?, selected] at found
          cases found
          simp only [value?, selected, Option.bind_eq_bind, Option.bind_eq_some_iff] at known
          obtain ⟨sub, known, same⟩ := known
          cases same
          exact ⟨sub, known, rfl⟩
      | _ => cases found
  | _ => cases step <;> cases found

/-- **The value of a part is found at its place in the value**, unless the part is computed from the
parts beside it. -/
theorem value?_at_part {place : Reader.Path} (shaped : draft.Shaped layout)
    (known : draft.value? layout = some value)
    (there : draft.at? layout place = some (inner, part)) (stored : part ≠ .computed) :
    ∃ sub, part.value? inner = some sub ∧ value.at? place = some sub := by
  induction place generalizing layout draft value with
  | nil =>
      cases there
      exact ⟨value, known, rfl⟩
  | cons step rest ih =>
      obtain ⟨⟨middle, outer⟩, found, later⟩ := Option.bind_eq_some_iff.mp there
      have partShaped := shaped.of_part? found
      by_cases derived : ∃ format expr, middle = .derived format expr
      · -- a size has no parts and is not stored
        obtain ⟨format, expr, rfl⟩ := derived
        cases partShaped
        cases rest with
        | nil =>
            cases later
            exact absurd rfl stored
        | cons step rest => cases later
      · obtain ⟨sub, value, stepped⟩ := value?_part shaped known found
          fun format expr same => derived ⟨format, expr, same⟩
        obtain ⟨leaf, denotes, reached⟩ := ih partShaped value later
        refine ⟨leaf, denotes, ?_⟩
        rw [Value.at?, List.foldlM_cons, stepped]
        exact reached

/-- **The value of a leaf is a leaf of the value.** -/
theorem value?_at {place : Reader.Path} {slot : Option UInt64} (shaped : draft.Shaped layout)
    (known : draft.value? layout = some value)
    (there : draft.at? layout place = some (inner, .scalar slot)) :
    ∃ sub, (Draft.scalar slot).value? inner = some sub ∧ value.at? place = some sub :=
  value?_at_part shaped known there nofun

end Draft

/-! ### Whole records -/

namespace Schema

variable {specs : List FieldSpec} {order : ByteOrder} {schema : Schema}

/-- **What is written is read back**: a written record parses to the value of its draft, in which
every integer and enumeration is the value stored last. -/
theorem parse_toBuffer (compiled : Schema.compile specs order = .ok schema)
    (operations : List Operation) (bytes : Buffer) :
    let draft := schema.build operations
    draft.toBuffer schema.root = .ok bytes → bytes.size < Address.limit →
    ∃ value, schema.parse bytes = .ok value ∧ draft.value? schema.root = some value ∧
      ∀ place layout slot, draft.at? schema.root place = some (layout, .scalar slot) →
        ∃ stored, schema.lastStored operations place = some stored ∧
          value.at? place = some stored := by
  intro draft written small
  have valid := valid_of_compile compiled
  have shaped : draft.Shaped schema.root := schema.shaped_build operations
  have encoded := (Draft.toBuffer_eq_ok_iff valid shaped).mp written
  obtain ⟨value, known, reads⟩ :=
    Draft.decode_encode small valid shaped encoded (Holds.whole bytes)
  refine ⟨value, reads.decoded, known, fun place layout slot there => ?_⟩
  obtain ⟨leaf, denotes, reached⟩ := Draft.value?_at shaped known there
  cases slot with
  | none => cases layout <;> cases denotes
  | some word =>
      obtain ⟨stored, same, noted⟩ := schema.recorded_run valid operations place layout word there
      rw [denotes] at same
      cases same
      exact ⟨leaf, noted, reached⟩

theorem parse_toBuffer_sampleRun :
    Schema.compile samplePacket .big = .ok sampleSchema ∧
      ∃ value, sampleSchema.parse #[0, 8, 2, 1, 1, 2, 1, 1, 255, 254] = .ok value ∧
        value.at? [.member "items", .element 0] = some (.unsigned 513) := by
  refine ⟨compile_samplePacket, ?_⟩
  obtain ⟨value, parsed, -, leaves⟩ := parse_toBuffer compile_samplePacket sampleRun
    #[0, 8, 2, 1, 1, 2, 1, 1, 255, 254] (by decide +kernel) (by decide)
  obtain ⟨stored, noted, reached⟩ := leaves [.member "items", .element 0]
    (.int ⟨.two, false, .big⟩) (some 513) (by rfl)
  have last : sampleSchema.lastStored sampleRun [.member "items", .element 0] =
      some (.unsigned 513) := by rfl
  rw [last] at noted
  cases noted
  exact ⟨value, parsed, reached⟩

end Schema

end RecordLayout
