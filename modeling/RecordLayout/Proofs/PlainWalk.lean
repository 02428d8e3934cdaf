/-
**Shortcuts agree with the plain walk.**

Two shortcuts spare a reader a walk. A value whose width is fixed has that length, without a look at
the data; and a member of a struct is looked for from the last known offset on. Next to each stands
the walk that it spares:

* `Layout.plainExtent` goes through every part of a value and reads every count and every key. What it
  finds is the extent, and where a width is fixed it finds that width (`Layout.shortcut_sound`).
* a run of `Layout.behind` over the members in front of one finds that member
  (`walkFields_eq_foldlM`), with the same error if it fails. So the members of a struct lie side by
  side, from its first byte to its last (`Schema.fields_tile`).
-/

import RecordLayout.Proofs.LazyReading

namespace RecordLayout

/-! ### Walks over every part -/

mutual

/-- The length of the value at `offset`, found by a walk over all its parts. -/
def Layout.plainExtent (data : Buffer) : Layout → (offset : Nat) → Except ReadError Nat
  | .int format, _ => .ok format.bytes
  | .enum enumeration, _ => .ok enumeration.format.bytes
  | .mask mask, _ => .ok mask.width
  | .struct fields, offset => do
      let stop ← plainWalk data fields offset
      return stop - offset
  | .array element length, offset => do
      let count ← length.count data offset
      let start ← length.start data offset
      let stop ← walkTimes (fun position => do
        Address.advance data position (← element.plainExtent data position)) count start
      return stop - offset
  | .view key variants, offset => do
      let stored ← key.read data offset
      let payload ← plainPayload data key stored offset variants
      Address.advance data key.bytes payload
  | .constant format _, _ => .ok format.bytes
  | .derived format _, _ => .ok format.bytes

/-- The position behind a run of fields, the first of which starts at `position`. -/
def plainWalk (data : Buffer) : List Field → (position : Nat) → Except ReadError Nat
  | [], position => .ok position
  | ⟨_, layout⟩ :: rest, position => do
      let length ← layout.plainExtent data position
      plainWalk data rest (← Address.advance data position length)

/-- The length of the payload that `stored` selects, for a view at `offset`. -/
def plainPayload (data : Buffer) (key : IntFormat) (stored : UInt64) (offset : Nat) :
    List Variant → Except ReadError Nat
  | [] => .error (.unknownVariant stored)
  | ⟨_, value, layout⟩ :: rest =>
      if value = stored then do
        layout.plainExtent data (← Address.advance data offset key.bytes)
      else plainPayload data key stored offset rest

end

/-- The plain walk over a value finds nothing but its extent, wherever it stands. -/
def Layout.PlainlySound (data : Buffer) (layout : Layout) : Prop :=
  ∀ offset < Address.limit, ∀ length, layout.plainExtent data offset = .ok length →
    layout.extent data offset = .ok length

section Parts

variable {data : Buffer}

/-- A step of a plain walk leads behind the value. -/
theorem Layout.PlainlySound.behind {layout : Layout} (sound : layout.PlainlySound data)
    {position next : Nat} (address : position < Address.limit)
    (walked : (do Address.advance data position (← layout.plainExtent data position)) = .ok next) :
    layout.behind data position = .ok next := by
  obtain ⟨length, found, advanced⟩ := bind_eq_ok_iff.mp walked
  exact bind_eq_ok_iff.mpr ⟨length, sound position address length found, advanced⟩

theorem walkFields_of_plainWalk {fields : List Field}
    (members : ∀ field ∈ fields, field.layout.PlainlySound data) {position stop : Nat}
    (address : position < Address.limit) (walked : plainWalk data fields position = .ok stop) :
    walkFields data fields position = .ok stop := by
  induction fields generalizing position with
  | nil => exact walked
  | cons field rest ih =>
      obtain ⟨name, layout⟩ := field
      rw [List.forall_mem_cons] at members
      rw [plainWalk, ← bind_assoc] at walked
      obtain ⟨next, first, others⟩ := bind_eq_ok_iff.mp walked
      have behind : layout.behind data position = .ok next := members.1.behind address first
      rw [walkFields_cons, behind, ok_bind]
      exact ih members.2 (Layout.behind_bounds behind).2 others

theorem walkTimes_of_plainExtent {element : Layout} (sound : element.PlainlySound data)
    {times position stop : Nat} (address : position < Address.limit)
    (walked : walkTimes (fun position => do
      Address.advance data position (← element.plainExtent data position)) times position = .ok stop) :
    walkTimes (element.behind data) times position = .ok stop := by
  induction times generalizing position with
  | zero => exact walked
  | succ times ih =>
      obtain ⟨next, first, others⟩ := bind_eq_ok_iff.mp walked
      have behind : element.behind data position = .ok next := sound.behind address first
      rw [walkTimes, behind, ok_bind]
      exact ih (Layout.behind_bounds behind).2 others

theorem payloadExtent_of_plainPayload {variants : List Variant}
    (payloads : ∀ variant ∈ variants, variant.layout.PlainlySound data) {key : IntFormat}
    {stored : UInt64} {offset length : Nat}
    (walked : plainPayload data key stored offset variants = .ok length) :
    payloadExtent data key stored offset variants = .ok length := by
  induction variants with
  | nil => cases walked
  | cons variant rest ih =>
      obtain ⟨name, value, layout⟩ := variant
      rw [List.forall_mem_cons] at payloads
      rw [plainPayload] at walked
      rw [payloadExtent]
      split_ifs at walked ⊢ with same
      · obtain ⟨start, advanced, found⟩ := bind_eq_ok_iff.mp walked
        rw [advanced, ok_bind]
        exact payloads.1 start (Address.advance_lt advanced) length found
      · exact ih payloads.2 walked

/-- Where a value ends tells how long it is. -/
theorem Layout.extent_of_behind {layout : Layout} {offset stop : Nat}
    (found : layout.behind data offset = .ok stop) :
    layout.extent data offset = .ok (stop - offset) := by
  obtain ⟨length, extent, advanced⟩ := bind_eq_ok_iff.mp found
  obtain ⟨rfl, -⟩ := Address.advance_eq_ok_iff.mp advanced
  rw [extent, Nat.add_sub_cancel_left]

/-- A payload of a view of fixed width has the width that is left of it. -/
theorem payloadExtent_of_commonWidth? {variants : List Variant} {key : IntFormat} {stored : UInt64}
    {offset width length : Nat} (common : commonWidth? (variantWidths variants) = some width)
    (found : payloadExtent data key stored offset variants = .ok length) : length = width := by
  rw [variantWidths_eq_map] at common
  rw [Layout.payloadExtent_eq] at found
  cases selected : variants.find? (·.key == stored) with
  | none =>
      rw [selected] at found
      cases found
  | some variant =>
      rw [selected] at found
      obtain ⟨start, -, extent⟩ := bind_eq_ok_iff.mp found
      have fixed : variant.layout.width? = some width := commonWidth?_eq_some common _
        (List.mem_map_of_mem (List.mem_of_find?_eq_some selected))
      rw [Layout.extent_of_width? fixed] at extent
      exact (Except.ok.inj extent).symm

/-- **What a walk over every part finds is the extent.** A struct and an array end where the walk
does; a view is as long as its key and the payload. -/
theorem Layout.plainlySound (layout : Layout) : layout.PlainlySound data := by
  induction layout with
  | int _ | enum _ | mask _ | constant _ _ | derived _ _ => exact fun _ _ _ walked => walked
  | struct fields ih =>
      intro offset address length walked
      rw [Layout.plainExtent] at walked
      obtain ⟨stop, members, same⟩ := bind_eq_ok_iff.mp walked
      cases same
      apply Layout.extent_of_behind
      rw [Layout.behind_struct fields address]
      exact walkFields_of_plainWalk ih address members
  | array element count ih =>
      intro offset address length walked
      rw [Layout.plainExtent] at walked
      obtain ⟨times, counted, later⟩ := bind_eq_ok_iff.mp walked
      obtain ⟨start, begins, later⟩ := bind_eq_ok_iff.mp later
      obtain ⟨stop, elements, same⟩ := bind_eq_ok_iff.mp later
      cases same
      apply Layout.extent_of_behind
      rw [Layout.behind_array element count address, counted, ok_bind, begins, ok_bind]
      exact walkTimes_of_plainExtent ih (ArrayLength.start_bounds address begins).2 elements
  | view key variants ih =>
      intro offset address length walked
      rw [Layout.plainExtent] at walked
      obtain ⟨stored, read, later⟩ := bind_eq_ok_iff.mp walked
      obtain ⟨payload, found, sum⟩ := bind_eq_ok_iff.mp later
      have extent := payloadExtent_of_plainPayload ih found
      -- a view has an extent even where its payload would end beyond the last address, so it is
      -- not compared by its end
      rw [Layout.extent]
      cases fixed : (Layout.view key variants).width? with
      | some width =>
          obtain ⟨common, known, rfl⟩ := Option.map_eq_some_iff.mp fixed
          obtain ⟨rfl, -⟩ := Address.advance_eq_ok_iff.mp sum
          rw [payloadExtent_of_commonWidth? known extent]
      | none => rw [read, ok_bind, extent, ok_bind, sum]

end Parts

/-- **The shortcut by fixed widths is sound**, for every layout, all data and every offset: a length
that the plain walk finds is the extent, and where the width is fixed the plain walk finds that width
or fails. -/
theorem Layout.shortcut_sound (layout : Layout) (data : Buffer) {offset : Nat}
    (address : offset < Address.limit) :
    (∀ length, layout.plainExtent data offset = .ok length →
        layout.extent data offset = .ok length) ∧
      ∀ width, layout.width? = some width →
        layout.plainExtent data offset = .ok width ∨
          ∃ cause, layout.plainExtent data offset = .error cause := by
  refine ⟨layout.plainlySound offset address, fun width fixed => ?_⟩
  cases walked : layout.plainExtent data offset with
  | error cause => exact .inr ⟨cause, rfl⟩
  | ok length =>
      have extent := layout.plainlySound offset address length walked
      rw [Layout.extent_of_width? fixed] at extent
      exact .inl extent.symm

/-- A pair of views of one fixed width, and a list of bytes behind them. -/
def samplePair : Layout :=
  let byte : IntFormat := ⟨.one, false, .big⟩
  .struct [⟨"pair", .array (.view byte [⟨"low", 1, .int byte⟩, ⟨"flag", 2, .constant byte 9⟩])
      (.fixed 2)⟩,
    ⟨"list", .array (.int byte) (.bounded 3 byte)⟩]

theorem Layout.shortcut_sound_samplePair :
    5 < Address.limit ∧ samplePair.plainExtent #[0, 0, 0, 0, 0, 1, 7, 2, 9, 1, 8] 5 = .ok 6 ∧
      samplePair.extent #[0, 0, 0, 0, 0, 1, 7, 2, 9, 1, 8] 5 = .ok 6 := by
  have address : 5 < Address.limit := by decide
  have walked : samplePair.plainExtent #[0, 0, 0, 0, 0, 1, 7, 2, 9, 1, 8] 5 = .ok 6 := rfl
  exact ⟨address, walked, (samplePair.shortcut_sound _ address).1 6 walked⟩

-- the pair has a fixed width, so a key that selects nothing is not noticed in it
example : samplePair.plainExtent #[1, 7, 3, 9, 0] 0 = .error (.unknownVariant 3) ∧
    samplePair.extent #[1, 7, 3, 9, 0] 0 = .ok 5 :=
  ⟨rfl, rfl⟩

/-! ### Members side by side -/

theorem walkFields_eq_foldlM (data : Buffer) (fields : List Field) (position : Nat) :
    walkFields data fields position =
      fields.foldlM (fun position field => do
        Address.advance data position (← field.layout.extent data position)) position := by
  induction fields generalizing position with
  | nil => rfl
  | cons field rest ih =>
      rw [walkFields_cons, List.foldlM_cons]
      simp only [ih]
      rfl

/-- A walk that ends has been at every member. -/
theorem exists_walkFields_take {data : Buffer} {fields : List Field} {base stop : Nat}
    (walked : walkFields data fields base = .ok stop) (index : Nat) :
    ∃ mark, walkFields data (fields.take index) base = .ok mark := by
  rw [← List.take_append_drop index fields, walkFields_append] at walked
  obtain ⟨mark, front, -⟩ := bind_eq_ok_iff.mp walked
  exact ⟨mark, front⟩

/-- The end of a member is the start of the next. -/
theorem behind_of_walkFields_take {data : Buffer} {fields : List Field} {field : Field}
    {index base mark next : Nat} (declared : fields[index]? = some field)
    (here : walkFields data (fields.take index) base = .ok mark)
    (later : walkFields data (fields.take (index + 1)) base = .ok next) :
    field.layout.behind data mark = .ok next := by
  rw [List.take_add_one, declared, walkFields_append, here, ok_bind] at later
  simp only [Option.toList_some] at later
  rw [walkFields_cons] at later
  obtain ⟨stop, behind, same⟩ := bind_eq_ok_iff.mp later
  cases same
  exact behind

/-- A member has the span between two marks of the walk. -/
theorem Reader.span_of_walkFields {reader : Reader} {fields : List Field} {field : Field}
    {index mark next : Nat} (struct : reader.layout = .struct fields)
    (names : (fields.map (·.name)).Nodup) (address : reader.offset < Address.limit)
    (declared : fields[index]? = some field)
    (here : walkFields reader.data (fields.take index) reader.offset = .ok mark)
    (later : walkFields reader.data (fields.take (index + 1)) reader.offset = .ok next) :
    reader.span field.name = .ok (mark, next) := by
  have found : Field.indexOf? fields field.name = some index := findIdx?_of_nodup names declared
  have member : reader.field field.name = .ok ⟨reader.data, field.name, field.layout, mark⟩ := by
    rw [Reader.field_eq struct address, found]
    simp only [declared, here, ok_bind]
    rfl
  obtain ⟨length, extent, advanced⟩ :=
    bind_eq_ok_iff.mp (behind_of_walkFields_take declared here later)
  rw [Reader.span, member, ok_bind]
  simp only [Reader.extent, extent, ok_bind, advanced]
  rfl

/-- **A member is found where the plain walk finds it, and members tile the struct.** In every struct
of a compiled record, the position of a member is the outcome of the walk that starts at the struct
and advances by the extent of each member before, errors included. If the struct has a size and ends
at an address, there are marks from its start to its end, and each member spans the distance from its
mark to the next. -/
theorem Schema.fields_tile {specs : List FieldSpec} {order : ByteOrder} {schema : Schema}
    (compiled : Schema.compile specs order = .ok schema) {reader : Reader} {fields : List Field}
    (struct : reader.layout = .struct fields) (inside : schema.root.Contains reader.layout)
    (address : reader.offset < Address.limit) :
    (∀ index < fields.length, locateField reader.data fields index reader.offset =
        (fields.take index).foldlM (fun position field => do
          Address.advance reader.data position (← field.layout.extent reader.data position))
          reader.offset) ∧
      ∀ size, reader.size = .ok size → reader.offset + size < Address.limit →
        ∃ marks : Nat → Nat, marks 0 = reader.offset ∧
          marks fields.length = reader.offset + size ∧
          ∀ index field, fields[index]? = some field →
            reader.span field.name = .ok (marks index, marks (index + 1)) := by
  refine ⟨fun index within => ?_, fun size sized room => ?_⟩
  · rw [locateField_eq_walkFields within address, walkFields_eq_foldlM]
  · have names : (fields.map (·.name)).Nodup := by
      have valid := (Schema.valid_of_compile compiled).part inside
      rw [struct] at valid
      cases valid with
      | struct names _ _ => exact names
    have walked : walkFields reader.data fields reader.offset = .ok (reader.offset + size) := by
      obtain ⟨_, -, extent⟩ := bind_eq_ok_iff.mp sized
      rw [Reader.extent, struct] at extent
      rw [← Layout.behind_struct fields address, Layout.behind, extent, ok_bind]
      exact Address.advance_eq_ok_iff.mpr ⟨rfl, room⟩
    choose marks marked using exists_walkFields_take walked
    refine ⟨marks, ?_, ?_, fun index field declared => ?_⟩
    · exact (Except.ok.inj (marked 0)).symm
    · have last := marked fields.length
      rw [List.take_length, walked] at last
      exact (Except.ok.inj last).symm
    · exact Reader.span_of_walkFields struct names address declared (marked index)
        (marked (index + 1))

theorem Schema.fields_tile_samplePacket :
    let data : Buffer := #[0, 0, 0, 6, 1, 129, 1, 0, 5, 2, 9]
    let reader := sampleSchema.readerAt data 2
    Schema.compile samplePacket .big = .ok sampleSchema ∧
      sampleSchema.root.Contains reader.layout ∧ reader.size = .ok 9 ∧
      locateField data sampleSchema.fields 4 2 = .ok 9 ∧
      ∃ marks : Nat → Nat, marks 0 = 2 ∧ marks 5 = 11 ∧
        reader.span "items" = .ok (marks 3, marks 4) ∧
        reader.span "body" = .ok (marks 4, marks 5) := by
  intro data reader
  have inside : sampleSchema.root.Contains reader.layout := .refl _
  have struct : reader.layout = .struct sampleSchema.fields := rfl
  have sized : reader.size = .ok 9 := by decide +kernel
  obtain ⟨located, tiled⟩ := Schema.fields_tile compile_samplePacket struct inside (by decide)
  obtain ⟨marks, first, last, spans⟩ := tiled 9 sized (by decide)
  have body : locateField data sampleSchema.fields 4 2 = .ok 9 := by
    rw [show locateField data sampleSchema.fields 4 2 = _ from located 4 (by decide)]
    decide +kernel
  exact ⟨compile_samplePacket, inside, sized, body, marks, first, last, spans 3 _ rfl,
    spans 4 _ rfl⟩

end RecordLayout
