/-
**What a refused append leaves behind.**

To append a value is to append a blank element and then to store the value in it. If the array is full,
the first half is refused, and nothing has changed. If it has room, the first half is done by the time
the second is refused, and the blank element stays: the array is longer, and the record is another one.

A longer array shows in the bytes. Whatever is written is read back, so one string of bytes tells how
many elements every array of its record has.

* `Edit.atNewElement_eq`: an array takes a blank element, unless it is full.
* `Edit.pushValue_eq_error`: the two ways in which a value is refused, and what each leaves.
* `Draft.length_eq_of_toBuffer_eq`: the bytes of a record tell the lengths of its arrays.
* `Schema.pushValue_refused`: the whole record, before and after.
-/

import RecordLayout.Proofs.Refusal

namespace RecordLayout

variable {element : Layout} {length : ArrayLength IntFormat} {elements : List Draft}

namespace Edit

/-! ### One array -/

section Array

variable {site : Site} {cause : WriteError} {left : Draft}

/-- **An array takes a blank element**, which is then edited, unless it is full. -/
theorem atNewElement_eq {α : Type} (array : site.layout = .array element length)
    (elements : List Draft) (edit : Site → Edit α) :
    atNewElement site edit (.array elements) =
      if Draft.isFull length elements.length then
        .error (.capacityExceeded site.name length.capacity) (.array elements)
      else
        within element.blank (fun part => .array (elements ++ [part])) (edit ⟨site.name, element⟩)
          (.array elements) := by
  have looked : Draft.asArray site (.array elements) = .ok (element, length, elements) := by
    unfold Draft.asArray
    rw [array]
  rw [atNewElement, inspect_bind, looked]
  by_cases full : Draft.isFull length elements.length
  · simp only [full, if_true]
    rfl
  · simp only [full]
    rfl

/-- A refused update is refused for the reason that its change gives. -/
theorem change_eq_error_of_update {change : Draft → Except WriteError Draft} {draft : Draft}
    (refused : update change draft = .error cause left) : change draft = .error cause := by
  unfold update at refused
  split at refused
  · cases refused
  · rename_i failed
    cases refused
    exact failed

/-- **A refused append** leaves a full array as it was; an array with room keeps a blank element, and
is what an append without a value makes of it. -/
theorem pushValue_eq_error {value : UInt64} (array : site.layout = .array element length)
    (refused : (Action.pushValue value).run site (.array elements) = .error cause left) :
    if Draft.isFull length elements.length then
      cause = .capacityExceeded site.name length.capacity ∧ left = .array elements
    else
      Draft.ofUnsigned ⟨site.name, element⟩ value = .error cause ∧
        Action.push.run site (.array elements) = .ok () left ∧
        left = .array (elements ++ [element.blank]) := by
  rw [Action.run, atNewElement_eq array] at refused
  rw [Action.run, atNewElement_eq array]
  split
  · rename_i full
    rw [if_pos full] at refused
    cases refused
    exact ⟨rfl, rfl⟩
  · rename_i room
    rw [if_neg room] at refused
    obtain ⟨part, stored, rfl⟩ := within_eq_error refused
    have failed := change_eq_error_of_update stored
    obtain rfl := update_eq_error _ stored
    exact ⟨failed, rfl, rfl⟩

/-- The same at the end of a path. -/
theorem along_pushValue_eq_error {value : UInt64} {path : List Step} {place : Reader.Path}
    {draft reached next : Draft} (led : along path (fun _ => pure ()) site draft = .ok () reached)
    (placed : place? site.layout reached path = some (place, .array element length))
    (there : reached.at? site.layout place = some (.array element length, .array elements))
    (refused : along path (fun target => (Action.pushValue value).run target) site draft =
      .error cause next) :
    if Draft.isFull length elements.length then
      (∃ name, cause = .capacityExceeded name length.capacity) ∧ next = reached
    else
      (∃ name, Draft.ofUnsigned ⟨name, element⟩ value = .error cause) ∧
        along path (fun target => Action.push.run target) site draft = .ok () next ∧
        next.at? site.layout place =
          some (.array element length, .array (elements ++ [element.blank])) := by
  obtain ⟨_, _, early, -⟩ | ⟨spot, target, part, rebuild, reaches, edited⟩ :=
    along_cases path site draft
  · -- the path itself was refused, so nothing was reached
    rw [early] at led
    cases led
  · rw [edited] at led refused ⊢
    cases led
    rw [reaches.placed] at placed
    obtain ⟨rfl, array⟩ := Prod.mk.inj (Option.some.inj placed)
    rw [reaches.found] at there
    obtain ⟨-, rfl⟩ := Prod.mk.inj (Option.some.inj there)
    obtain ⟨left, ran, rfl⟩ := within_eq_error refused
    have outcome := pushValue_eq_error array ran
    split at outcome
    · obtain ⟨exceeded, rfl⟩ := outcome
      rw [if_pos ‹_›]
      exact ⟨⟨target.name, exceeded⟩, rfl⟩
    · obtain ⟨failed, pushed, rfl⟩ := outcome
      rw [if_neg ‹_›]
      refine ⟨⟨target.name, failed⟩, ?_, ?_⟩
      · rw [within, pushed]
      · rw [reaches.found, array]

end Array

end Edit

namespace Draft

/-- A number is not refused for lack of room. -/
theorem ofUnsigned_ne_capacityExceeded (site : Site) (value : UInt64) (name : String)
    (capacity : UInt64) : ofUnsigned site value ≠ .error (.capacityExceeded name capacity) := by
  unfold ofUnsigned
  split
  · unfold ofNumber
    split <;> exact nofun
  · split <;> exact nofun
  all_goals exact nofun

theorem size_array_append (length : ArrayLength IntFormat) (elements : List Draft) (part : Draft) :
    (Draft.array (elements ++ [part])).size (.array element length) =
      (Draft.array elements).size (.array element length) + part.size element := by
  rw [size, size, elementsSize_eq_sum, elementsSize_eq_sum, List.map_append, List.sum_append,
    ← Nat.add_assoc, List.map_singleton, List.sum_singleton]

/-! ### The bytes tell the lengths -/

theorem length_elementValues {values : List Value}
    (known : elementValues element elements = some values) : values.length = elements.length := by
  induction elements generalizing values with
  | nil =>
      cases known
      rfl
  | cons head rest ih =>
      simp only [elementValues, Option.bind_eq_bind, Option.bind_eq_some_iff] at known
      obtain ⟨value, -, later, known, same⟩ := known
      cases same
      exact congrArg (· + 1) (ih known)

variable {layout : Layout} {place : Reader.Path} {bytes : Buffer}

/-- The bytes of a draft decode to a value, in which every array has as many elements as in the
draft. -/
theorem exists_array_of_toBuffer {draft : Draft} (small : bytes.size < Address.limit)
    (valid : layout.Valid) (shaped : draft.Shaped layout) (written : draft.toBuffer layout = .ok bytes)
    (there : draft.at? layout place = some (.array element length, .array elements)) :
    ∃ value values, layout.decode bytes "" 0 = .ok value ∧ value.at? place = some (.array values) ∧
      values.length = elements.length := by
  have encoded := (toBuffer_eq_ok_iff valid shaped).mp written
  obtain ⟨value, known, reads⟩ := decode_encode small valid shaped encoded (Holds.whole bytes)
  obtain ⟨part, denotes, found⟩ := value?_at_part shaped known there nofun
  simp only [value?, Option.bind_eq_bind, Option.bind_eq_some_iff] at denotes
  obtain ⟨values, known, same⟩ := denotes
  cases same
  exact ⟨value, values, reads.decoded, found, length_elementValues known⟩

/-- **The bytes of a record tell the lengths of its arrays.** -/
theorem length_eq_of_toBuffer_eq {draft other : Draft} {others : List Draft}
    (small : bytes.size < Address.limit) (valid : layout.Valid) (shaped : draft.Shaped layout)
    (shapedToo : other.Shaped layout) (written : draft.toBuffer layout = .ok bytes)
    (writtenToo : other.toBuffer layout = .ok bytes)
    (there : draft.at? layout place = some (.array element length, .array elements))
    (thereToo : other.at? layout place = some (.array element length, .array others)) :
    elements.length = others.length := by
  obtain ⟨value, values, decoded, found, same⟩ :=
    exists_array_of_toBuffer small valid shaped written there
  obtain ⟨valueToo, valuesToo, decodedToo, foundToo, sameToo⟩ :=
    exists_array_of_toBuffer small valid shapedToo writtenToo thereToo
  rw [decoded] at decodedToo
  cases decodedToo
  rw [found] at foundToo
  cases foundToo
  exact same.symm.trans sameToo

end Draft

/-! ### The whole record -/

namespace Schema

variable {specs : List FieldSpec} {order : ByteOrder} {schema : Schema}

/-- **What a refused append leaves behind.** Operations have built a draft, a path has led to an array
in it, and `reached` is the draft with the path gone. A value is appended and refused. The draft is as
it was exactly when the array is full, which is when the refusal says so. If the array has room, the
value itself is refused, and the draft is the one that an append without a value leaves: the array has
one element more, a blank one, and is larger by it. So a record that could be written before is
written to the same bytes exactly when the array is full. -/
theorem pushValue_refused (compiled : Schema.compile specs order = .ok schema)
    (operations : List Operation) (path : List Edit.Step) (value : UInt64) {place : Reader.Path}
    {reached next : Draft} {cause : WriteError}
    (led : schema.edit path (fun _ => pure ()) (schema.build operations) = .ok () reached)
    (placed : Edit.place? schema.root reached path = some (place, .array element length))
    (there : reached.at? schema.root place = some (.array element length, .array elements))
    (refused : schema.edit path (fun site => (Edit.Action.pushValue value).run site)
      (schema.build operations) = .error cause next) :
    let full := Draft.isFull length elements.length = true
    (full ↔ ∃ name capacity, cause = .capacityExceeded name capacity) ∧
    (full ↔ next = reached) ∧
    (¬full →
      (∃ name, Draft.ofUnsigned ⟨name, element⟩ value = .error cause) ∧
      schema.edit path (fun site => Edit.Action.push.run site) (schema.build operations) =
        .ok () next ∧
      next.at? schema.root place =
        some (.array element length, .array (elements ++ [element.blank])) ∧
      (Draft.array (elements ++ [element.blank])).size (.array element length) =
        (Draft.array elements).size (.array element length) + element.blank.size element) ∧
    ∀ bytes, bytes.size < Address.limit → reached.toBuffer schema.root = .ok bytes →
      (full ↔ next.toBuffer schema.root = .ok bytes) := by
  intro full
  have valid := valid_of_compile compiled
  have shaped := schema.shaped_build operations
  have before : reached.Shaped schema.root := shaped_of_edit ⟨path, none⟩ shaped led
  have outcome := Edit.along_pushValue_eq_error led placed there refused
  by_cases room : full
  · rw [if_pos room] at outcome
    obtain ⟨⟨name, exceeded⟩, rfl⟩ := outcome
    exact ⟨iff_of_true room ⟨name, _, exceeded⟩, iff_of_true room rfl,
      fun short => absurd room short, fun _ _ written => iff_of_true room written⟩
  · rw [if_neg room] at outcome
    obtain ⟨⟨name, failed⟩, pushed, longer⟩ := outcome
    have after : next.Shaped schema.root := shaped_of_edit ⟨path, some .push⟩ shaped pushed
    have taken : ¬∃ name capacity, cause = .capacityExceeded name capacity := by
      rintro ⟨label, capacity, rfl⟩
      exact Draft.ofUnsigned_ne_capacityExceeded _ _ _ _ failed
    have grown : next ≠ reached := by
      rintro rfl
      have same := there.symm.trans longer
      simp at same
    refine ⟨iff_of_false room taken, iff_of_false room grown,
      fun _ => ⟨⟨name, failed⟩, pushed, longer, Draft.size_array_append _ _ _⟩,
      fun bytes small written => iff_of_false room fun rewritten => ?_⟩
    have same :=
      Draft.length_eq_of_toBuffer_eq small valid before after written rewritten there longer
    rw [List.length_append, List.length_singleton] at same
    omega

/-- The packet has room for three more items, and none for a number that does not fit. -/
theorem pushValue_refused_sampleRun :
    ∃ next, sampleSchema.edit [.member "items"] (fun site => (Edit.Action.pushValue 65536).run site)
        (sampleSchema.build sampleRun) = .error (.overflow "items" 65536 0 65535) next ∧
      next ≠ sampleSchema.build sampleRun ∧
      next.toBuffer sampleSchema.root ≠ .ok #[0, 8, 2, 1, 1, 2, 1, 1, 255, 254] := by
  obtain ⟨next, refused⟩ : ∃ next, sampleSchema.edit [.member "items"]
      (fun site => (Edit.Action.pushValue 65536).run site) (sampleSchema.build sampleRun) =
        .error (.overflow "items" 65536 0 65535) next := ⟨_, rfl⟩
  have room : ¬Draft.isFull (.bounded 4 ⟨.one, false, .big⟩) 1 = true := by decide
  obtain ⟨-, kept, -, bytes⟩ := pushValue_refused compile_samplePacket sampleRun [.member "items"]
    65536 rfl rfl rfl refused
  refine ⟨next, refused, fun same => room (kept.mpr same), fun written => room ?_⟩
  exact (bytes _ (by decide) (by decide +kernel)).mpr written

/-- **A refused append changes the record**: it could be written before, and it cannot be any more. -/
theorem toBuffer_pushValue_sampleRun :
    Schema.compile samplePacket .big = .ok sampleSchema ∧
      (sampleSchema.build sampleRun).toBuffer sampleSchema.root =
        .ok #[0, 8, 2, 1, 1, 2, 1, 1, 255, 254] ∧
      ∃ next, sampleSchema.edit [.member "items"] (fun site => (Edit.Action.pushValue 65536).run site)
          (sampleSchema.build sampleRun) = .error (.overflow "items" 65536 0 65535) next ∧
        next.toBuffer sampleSchema.root = .error (.notSet "items") :=
  ⟨compile_samplePacket, by decide +kernel, _, rfl, rfl⟩

end Schema

end RecordLayout
