/-
**A refused call changes nothing.**

A call is one change that a part of a draft is asked for: to store a value in itself or in one of its
members, to switch a flag, to hand out an element, to take a new element, to select a variant. It looks
things up, checks them and changes the part at last, so a refusal finds the part untouched, and with it
the whole record around the part.

What is refused is refused by the part, or by the one step that the call takes. A step that is refused
leaves the draft alone (`Edit.enter_cases`), and a step to a member puts back what it has found.

* `Edit.Enters.rebuild_self`: a step to a member changes nothing by itself.
* `Edit.Call.run_cases`: what a call can do.
* `Edit.Call.eq_of_run_eq_error`: a refused call leaves the part as it was.
* `Schema.eq_of_call_refused`: and the whole record.

The appending of an element together with a first value is not among the calls: it is two, and the
second may be refused when the first is done.
-/

import RecordLayout.Proofs.Journal

namespace RecordLayout

namespace Edit

/-- A call on a part of a draft. -/
inductive Call where
  | set (value : UInt64)
  | setSigned (value : Int)
  | setEnum (variant : String)
  /-- Stores an unsigned number in a member. -/
  | withValue (name : String) (value : UInt64)
  | withSigned (name : String) (value : Int)
  | withEnum (name variant : String)
  /-- Switches a flag of a member. -/
  | withFlag (name flag : String) (on : Bool)
  | setFlag (flag : String) (on : Bool)
  /-- Goes to an element. -/
  | get (index : Nat)
  | push
  | select (key : UInt64)
  | selectNamed (name : String)

/-- The operation that a call is, as seen from the part: it may go to a member or an element first. -/
def Call.operation : Call → Operation
  | .set value => ⟨[], some (.set value)⟩
  | .setSigned value => ⟨[], some (.setSigned value)⟩
  | .setEnum variant => ⟨[], some (.setEnum variant)⟩
  | .withValue name value => ⟨[.member name], some (.set value)⟩
  | .withSigned name value => ⟨[.member name], some (.setSigned value)⟩
  | .withEnum name variant => ⟨[.member name], some (.setEnum variant)⟩
  | .withFlag name flag on => ⟨[.member name], some (.setFlag flag on)⟩
  | .setFlag flag on => ⟨[], some (.setFlag flag on)⟩
  | .get index => ⟨[.element index], none⟩
  | .push => ⟨[], some .push⟩
  | .select key => ⟨[], some (.select key)⟩
  | .selectNamed name => ⟨[], some (.selectNamed name)⟩

/-- Carries out a call. -/
def Call.run (call : Call) (site : Site) : Edit Unit :=
  along call.operation.path call.operation.edit site

/-! ### One step -/

section Step

variable {site sub : Site} {draft part next : Draft} {step : Step} {rebuild : Draft → Draft}
  {cause : WriteError}

/-- **A step to a member changes nothing**: the whole is rebuilt from the part as it was. -/
theorem Enters.rebuild_self {name : String}
    (enters : Enters site draft (.member name) sub part rebuild) : rebuild part = draft := by
  cases enters with
  | member struct found declared there =>
      obtain ⟨bound, rfl⟩ := List.getElem?_eq_some_iff.mp there
      exact congrArg Draft.struct (List.set_getElem_self bound)
  | payload view named declared selected =>
      rcases named with ⟨_, same, -⟩ | ⟨_, same, -⟩ <;> cases same

/-- A step with nothing to do at its end is refused and leaves the draft alone, or is not refused. -/
theorem eq_of_enter_pure_eq_error
    (refused : enter site step (fun _ => pure ()) draft = .error cause next) : next = draft := by
  obtain ⟨other, early⟩ | ⟨sub, part, rebuild, -, entered⟩ := enter_cases site step draft
  · rw [early] at refused
    cases refused
    rfl
  · rw [entered] at refused
    cases refused

/-- An edit of a member leaves the whole as it was, if its refusal leaves the member. -/
theorem eq_of_enter_member_eq_error {name : String} {edit : Site → Edit Unit}
    (keeps : ∀ site part cause next, edit site part = .error cause next → next = part)
    (refused : enter site (.member name) edit draft = .error cause next) : next = draft := by
  obtain ⟨other, early⟩ | ⟨sub, part, rebuild, enters, entered⟩ :=
    enter_cases site (.member name) draft
  · rw [early] at refused
    cases refused
    rfl
  · rw [entered] at refused
    obtain ⟨left, ran, rfl⟩ := within_eq_error refused
    rw [keeps sub part cause left ran]
    exact enters.rebuild_self

end Step

/-! ### One call -/

/-- **What a call can do**: it stores something in the part or in one of its members, or it takes a
single step and leaves it at that. -/
theorem Call.run_cases (call : Call) (site : Site) :
    (∃ action : Action, call.run site = action.store site) ∨
      (∃ (name : String) (action : Action), call.run site = enter site (.member name) action.store) ∨
      ∃ step, call.run site = enter site step fun _ => pure () := by
  cases call with
  | set value => exact .inl ⟨.set value, rfl⟩
  | setSigned value => exact .inl ⟨.setSigned value, rfl⟩
  | setEnum variant => exact .inl ⟨.setEnum variant, rfl⟩
  | setFlag flag on => exact .inl ⟨.setFlag flag on, rfl⟩
  | withValue name value => exact .inr (.inl ⟨name, .set value, rfl⟩)
  | withSigned name value => exact .inr (.inl ⟨name, .setSigned value, rfl⟩)
  | withEnum name variant => exact .inr (.inl ⟨name, .setEnum variant, rfl⟩)
  | withFlag name flag on => exact .inr (.inl ⟨name, .setFlag flag on, rfl⟩)
  | get index => exact .inr (.inr ⟨.element index, rfl⟩)
  | push => exact .inr (.inr ⟨.append, rfl⟩)
  | select key => exact .inr (.inr ⟨.key key, rfl⟩)
  | selectNamed name => exact .inr (.inr ⟨.variant name, rfl⟩)

/-- **A refused call leaves the part as it was.** -/
theorem Call.eq_of_run_eq_error (call : Call) {site : Site} {part next : Draft} {cause : WriteError}
    (refused : call.run site part = .error cause next) : next = part := by
  obtain ⟨action, stores⟩ | ⟨name, action, goes⟩ | ⟨step, goes⟩ := call.run_cases site
  · rw [stores] at refused
    exact action.store_eq_error refused
  · rw [goes] at refused
    exact eq_of_enter_member_eq_error (fun _ _ _ _ ran => action.store_eq_error ran) refused
  · rw [goes] at refused
    exact eq_of_enter_pure_eq_error refused

end Edit

/-! ### The whole record -/

/-- **A refused call changes nothing.** Operations have built a draft, a path has led to a part of it,
and `reached` is the draft with the path gone: what the path has appended or selected is there. If a
call on the part is refused, this draft is left exactly as it was, and so are its size, its selected
keys, the lengths of its arrays and the bytes that it is written to. -/
theorem Schema.eq_of_call_refused (schema : Schema) (operations : List Operation)
    (path : List Edit.Step) (call : Edit.Call) {reached next : Draft} {cause : WriteError}
    (led : schema.edit path (fun _ => pure ()) (schema.build operations) = .ok () reached)
    (refused : schema.edit path call.run (schema.build operations) = .error cause next) :
    next = reached := by
  unfold Schema.edit at led refused
  obtain ⟨_, _, early, -⟩ | ⟨_, target, part, rebuild, -, edited⟩ :=
    Edit.along_cases path schema.site (schema.build operations)
  · -- the path itself was refused, so nothing was reached
    rw [early] at led
    cases led
  · rw [edited] at led refused
    cases led
    obtain ⟨left, ran, rfl⟩ := Edit.within_eq_error refused
    rw [call.eq_of_run_eq_error ran]

/-- The path appends an item, and the item stays without a value. -/
theorem Schema.eq_of_call_refused_sampleRun :
    ∃ reached next : Draft,
      sampleSchema.edit [.member "items", .append] (fun _ => pure ())
        (sampleSchema.build sampleRun) = .ok () reached ∧
      sampleSchema.edit [.member "items", .append] (Edit.Call.set 65536).run
        (sampleSchema.build sampleRun) = .error (.overflow "items" 65536 0 65535) next ∧
      next = reached := by
  obtain ⟨reached, led⟩ : ∃ reached, sampleSchema.edit [.member "items", .append] (fun _ => pure ())
      (sampleSchema.build sampleRun) = .ok () reached := ⟨_, rfl⟩
  obtain ⟨next, refused⟩ : ∃ next, sampleSchema.edit [.member "items", .append]
      (Edit.Call.set 65536).run (sampleSchema.build sampleRun) =
        .error (.overflow "items" 65536 0 65535) next := ⟨_, rfl⟩
  exact ⟨reached, next, led, refused,
    sampleSchema.eq_of_call_refused sampleRun _ (.set 65536) led refused⟩

-- As one operation it is refused as well, and yet the record has grown by the item.
example :
    (sampleSchema.build sampleRun).size sampleSchema.root = 10 ∧
      (sampleSchema.build (sampleRun ++ [⟨[.member "items"], some (.pushValue 65536)⟩])).size
        sampleSchema.root = 12 := ⟨rfl, rfl⟩

end RecordLayout
