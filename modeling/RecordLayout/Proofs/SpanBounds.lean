/-
**Spans and the end of the data.**

Where a member of a struct ends follows from fixed widths, counts and keys. The counts and keys are read,
so they are there; what they promise is not looked at. A span may therefore end beyond the data. The
value tells: a member for which the data does not suffice ends beyond, and one that can be decoded ends
within the data or is empty. An empty one may stand beyond the data, since nothing of it is read.

The two halves pass through sequences of steps (`ReadsUpTo`), so they hold of everything that is put
together from slices.

* `Layout.readsUpTo_decode`: decoding a value takes the bytes up to where the value ends.
* `le_of_walkFields_take`: a member ends before its struct does.
* `Schema.span_bounds`: what the span of a member says about the data.
-/

import RecordLayout.Proofs.PlainWalk
import RecordLayout.Proofs.Truncation

namespace RecordLayout

/-! ### Reading up to a position -/

/-- Reading goes from `start` up to `stop`: a result means that the data reaches there, or that there
was nothing to read, and running out of data means that it does not. -/
structure ReadsUpTo {α : Type} (data : Buffer) (start stop : Nat) (outcome : Except ReadError α) :
    Prop where
  enough : ∀ value, outcome = .ok value → stop ≤ max start data.size
  short : ∀ cause, outcome = .error cause → cause.Lacks → data.size < stop

section ReadsUpTo

variable {α β : Type} {data : Buffer} {start middle stop offset position : Nat}
  {outcome : Except ReadError α}

namespace ReadsUpTo

theorem ok (value : α) : ReadsUpTo data start start (.ok value) where
  enough _ _ := Nat.le_max_left _ _
  short := nofun

theorem error {cause : ReadError} (other : ¬cause.Lacks) :
    ReadsUpTo data start stop (.error cause : Except ReadError α) where
  enough := nofun
  short _ same lacks := by
    cases same
    exact absurd lacks other

/-- **Step after step**: what is read next starts where the step before has stopped. -/
theorem bind {next : α → Except ReadError β} (first : ReadsUpTo data start middle outcome)
    (ordered : middle ≤ stop)
    (rest : ∀ value, outcome = .ok value → ReadsUpTo data middle stop (next value)) :
    ReadsUpTo data start stop (outcome >>= next) := by
  cases outcome with
  | error cause =>
      refine ⟨nofun, fun other same lacks => ?_⟩
      cases same
      exact Nat.lt_of_lt_of_le (first.short cause rfl lacks) ordered
  | ok value =>
      have here := first.enough value rfl
      have later := rest value rfl
      refine ⟨fun result found => ?_, fun cause failed lacks => later.short cause failed lacks⟩
      have there := later.enough result found
      omega

/-- What is made of a result takes nothing more. -/
theorem map {change : α → β} (read : ReadsUpTo data start stop outcome) :
    ReadsUpTo data start stop (outcome >>= fun value => pure (change value)) :=
  read.bind (Nat.le_refl stop) fun value _ => .ok (change value)

end ReadsUpTo

/-! ### Words and counts -/

theorem readsUpTo_slice (data : Buffer) (offset width : Nat) :
    ReadsUpTo data offset (offset + width) (Address.slice data offset width) := by
  by_cases inside : offset + width ≤ data.size
  · refine ⟨fun _ _ => Nat.le_trans inside (Nat.le_max_right _ _), fun cause failed _ => ?_⟩
    rw [Address.slice, if_pos inside] at failed
    cases failed
  · refine ⟨fun bytes found => ?_, fun _ _ _ => Nat.lt_of_not_le inside⟩
    exact absurd (Address.slice_eq_ok_iff.mp found).2 inside

theorem IntFormat.readsUpTo_read (format : IntFormat) (data : Buffer) (offset : Nat) :
    ReadsUpTo data offset (offset + format.bytes) (format.read data offset) :=
  (readsUpTo_slice data offset format.bytes).map

theorem readsUpTo_readKey (data : Buffer) (name : String) (key : IntFormat) (offset : Nat) :
    ReadsUpTo data offset (offset + key.bytes) (readKey data name key offset) := by
  unfold readKey
  by_cases missing : data.size ≤ offset
  · rw [if_pos missing]
    refine ⟨nofun, fun _ _ _ => ?_⟩
    have positive := key.width.bytes_pos
    unfold IntFormat.bytes
    omega
  · rw [if_neg missing]
    exact key.readsUpTo_read data offset

/-- The elements of an array start where its count ends. -/
theorem ArrayLength.readsUpTo_count {length : ArrayLength IntFormat} {count : Nat}
    (counted : length.count data offset = .ok count) (begins : length.start data offset = .ok start) :
    ReadsUpTo data offset start (length.count data offset) := by
  rw [counted]
  cases length with
  | fixed number =>
      cases begins
      exact .ok count
  | bounded capacity counter =>
      obtain ⟨rfl, -⟩ := Address.advance_eq_ok_iff.mp begins
      obtain ⟨stored, read, -⟩ := bind_eq_ok_iff.mp counted
      refine ⟨fun _ _ => ?_, nofun⟩
      exact Nat.le_trans (IntFormat.read_bounds read) (Nat.le_max_right _ _)

/-! ### Values -/

theorem readsUpTo_decodeFields {fields : List Field}
    (each : ∀ field ∈ fields, ∀ name offset stop, offset < Address.limit →
      field.layout.behind data offset = .ok stop →
      ReadsUpTo data offset stop (field.layout.decode data name offset))
    (address : position < Address.limit) (walked : walkFields data fields position = .ok stop) :
    ReadsUpTo data position stop (decodeFields data fields position) := by
  induction fields generalizing position with
  | nil =>
      cases walked
      exact .ok []
  | cons field fields ih =>
      rw [List.forall_mem_cons] at each
      rw [walkFields_cons] at walked
      obtain ⟨next, behind, rest⟩ := bind_eq_ok_iff.mp walked
      have inside := (Layout.behind_bounds behind).2
      rw [decodeFields_cons, behind]
      refine (each.1 field.name position next address behind).bind
        (walkFields_bounds inside rest).1 fun value _ => ?_
      exact (ih each.2 inside rest).map

theorem readsUpTo_collect {element : Layout} {name : String}
    (each : ∀ offset stop, offset < Address.limit → element.behind data offset = .ok stop →
      ReadsUpTo data offset stop (element.decode data name offset))
    (times : Nat) (address : position < Address.limit)
    (walked : walkTimes (element.behind data) times position = .ok stop) :
    ReadsUpTo data position stop (collect (fun position => do
      let next ← element.behind data position
      return (← element.decode data name position, next)) times position) := by
  induction times generalizing position with
  | zero =>
      cases walked
      exact .ok []
  | succ times ih =>
      obtain ⟨next, behind, rest⟩ := bind_eq_ok_iff.mp walked
      have inside := (Layout.behind_bounds behind).2
      have here : ReadsUpTo data position next (do
          let next ← element.behind data position
          return (← element.decode data name position, next)) := by
        rw [behind]
        exact (each position next address behind).map
      refine here.bind (walkTimes_bounds inside rest).1 fun found reached => ?_
      rw [behind, ok_bind] at reached
      obtain ⟨value, -, same⟩ := bind_eq_ok_iff.mp reached
      cases same
      exact (ih inside rest).map

/-- The key of a view stands before its end. -/
theorem Layout.key_le_of_behind {key : IntFormat} {variants : List Variant}
    (ends : (Layout.view key variants).behind data offset = .ok stop) :
    offset + key.bytes ≤ stop ∧ stop < Address.limit := by
  obtain ⟨length, extent, advanced⟩ := bind_eq_ok_iff.mp ends
  obtain ⟨rfl, inside⟩ := Address.advance_eq_ok_iff.mp advanced
  refine ⟨Nat.add_le_add_left ?_ offset, inside⟩
  rw [Layout.extent] at extent
  split at extent
  · rename_i width fixed
    cases extent
    obtain ⟨common, -, rfl⟩ := Option.map_eq_some_iff.mp fixed
    exact Nat.le_add_right _ _
  · obtain ⟨stored, -, rest⟩ := bind_eq_ok_iff.mp extent
    obtain ⟨payload, -, last⟩ := bind_eq_ok_iff.mp rest
    obtain ⟨rfl, -⟩ := Address.advance_eq_ok_iff.mp last
    exact Nat.le_add_right _ _

/-- **Decoding a value takes the bytes up to where the value ends.** -/
theorem Layout.readsUpTo_decode {layout : Layout} (name : String) (address : offset < Address.limit)
    (ends : layout.behind data offset = .ok stop) :
    ReadsUpTo data offset stop (layout.decode data name offset) := by
  induction layout generalizing name offset stop with
  | int format | constant format _ | derived format _ =>
      obtain ⟨rfl, -⟩ := Address.advance_eq_ok_iff.mp ends
      exact (format.readsUpTo_read data offset).map
  | enum enumeration =>
      obtain ⟨rfl, -⟩ := Address.advance_eq_ok_iff.mp ends
      refine ReadsUpTo.map ((enumeration.format.readsUpTo_read data offset).bind (Nat.le_refl _)
        fun word _ => ?_)
      split
      · exact .ok _
      · exact .error (by simp [ReadError.Lacks])
  | mask mask =>
      obtain ⟨rfl, -⟩ := Address.advance_eq_ok_iff.mp ends
      exact (readsUpTo_slice data offset mask.width).map.map
  | struct fields ih =>
      rw [behind_struct fields address] at ends
      exact (readsUpTo_decodeFields (fun field member name _ _ => ih field member name)
        address ends).map
  | array element length ih =>
      rw [behind_array element length address] at ends
      obtain ⟨count, counted, rest⟩ := bind_eq_ok_iff.mp ends
      obtain ⟨start, begins, walked⟩ := bind_eq_ok_iff.mp rest
      have inside := (ArrayLength.start_bounds address begins).2
      rw [Layout.decode]
      refine (ArrayLength.readsUpTo_count counted begins).bind (walkTimes_bounds inside walked).1
        fun number same => ?_
      rw [counted] at same
      cases same
      rw [begins]
      exact (readsUpTo_collect (fun _ _ => ih name) count inside walked).map
  | view key variants ih =>
      obtain ⟨before, inside⟩ := key_le_of_behind ends
      rw [Layout.decode]
      refine (readsUpTo_readKey data name key offset).bind before fun stored read => ?_
      have begins : Address.advance data offset key.bytes = .ok (offset + key.bytes) :=
        Address.advance_eq_ok_iff.mpr ⟨rfl, Nat.lt_of_le_of_lt before inside⟩
      rw [decodePayload_eq]
      split
      · exact .error (by simp [ReadError.Lacks])
      · rename_i variant selected
        rw [behind_view (readKey_eq_ok read) selected begins] at ends
        rw [begins]
        exact (ih variant (List.mem_of_find?_eq_some selected) variant.name
          (Address.advance_lt begins) ends).map.map

end ReadsUpTo

/-! ### Members of a struct -/

/-- A walk over some of the members ends before the walk over all. -/
theorem le_of_walkFields_take {data : Buffer} {fields : List Field} {index base mark stop : Nat}
    (address : base < Address.limit) (walked : walkFields data fields base = .ok stop)
    (front : walkFields data (fields.take index) base = .ok mark) : mark ≤ stop := by
  rw [← List.take_append_drop index fields, walkFields_append, front] at walked
  exact (walkFields_bounds (walkFields_bounds address front).2 walked).1

namespace Reader

variable {reader member : Reader} {fields : List Field} {name : String} {start stop : Nat}

/-- A member starts within its struct. -/
theorem offset_le_of_field (struct : reader.layout = .struct fields)
    (address : reader.offset < Address.limit) (reached : reader.field name = .ok member) :
    reader.offset ≤ member.offset := by
  rw [field_eq struct address] at reached
  split at reached
  · cases reached
  · split at reached
    · cases reached
    · obtain ⟨place, walked, same⟩ := bind_eq_ok_iff.mp reached
      cases same
      exact (walkFields_bounds address walked).1

/-- The span of a member goes from its offset to its end. -/
theorem exists_field_of_span (spanned : reader.span name = .ok (start, stop)) :
    ∃ member, reader.field name = .ok member ∧ member.offset = start ∧
      member.layout.behind member.data start = .ok stop := by
  obtain ⟨member, reached, rest⟩ := bind_eq_ok_iff.mp spanned
  obtain ⟨length, extent, rest⟩ := bind_eq_ok_iff.mp rest
  obtain ⟨next, advanced, same⟩ := bind_eq_ok_iff.mp rest
  cases same
  refine ⟨member, reached, rfl, ?_⟩
  rw [Layout.behind, show member.layout.extent member.data member.offset = .ok length from extent]
  exact advanced

/-- The size of a struct is the way to its end. -/
theorem size_eq_ok_iff {length : Nat} (struct : reader.layout = .struct fields)
    (address : reader.offset < Address.limit) (room : reader.offset + length < Address.limit) :
    reader.size = .ok length ↔
      walkFields reader.data fields reader.offset = .ok (reader.offset + length) := by
  have opened : reader.size = reader.layout.extent reader.data reader.offset := by
    unfold size asStruct extent
    rw [struct]
    rfl
  rw [opened, struct, ← Layout.behind_struct fields address, Layout.behind]
  constructor
  · intro found
    rw [found]
    exact Address.advance_eq_ok_iff.mpr ⟨rfl, room⟩
  · intro ends
    obtain ⟨extent, found, advanced⟩ := bind_eq_ok_iff.mp ends
    have same := (Address.advance_eq_ok_iff.mp advanced).1
    rw [found, Nat.add_left_cancel same]

end Reader

/-- **Spans and the end of the data.** In every struct of a compiled record, the span of a member
starts in the struct and ends at an address, not before its start. That it ends within the data is not
checked: if the member can be decoded, it ends there or is empty, and if the data does not suffice for
that, it ends beyond. If the struct as a whole ends within the data, then all its members have a span
and end there, too; and this is so whenever the struct starts within the data and can be decoded. -/
theorem Schema.span_bounds {specs : List FieldSpec} {order : ByteOrder} {schema : Schema}
    (compiled : Schema.compile specs order = .ok schema) {reader : Reader} {fields : List Field}
    (struct : reader.layout = .struct fields) (inside : schema.root.Contains reader.layout)
    (small : reader.data.size < Address.limit) (address : reader.offset < Address.limit) :
    (∀ name start stop, reader.span name = .ok (start, stop) →
      reader.offset ≤ start ∧ start ≤ stop ∧ stop < Address.limit ∧
      ∃ member, reader.field name = .ok member ∧ member.offset = start ∧
        ReadsUpTo reader.data start stop member.value) ∧
    (∀ size, reader.size = .ok size → reader.offset + size ≤ reader.data.size →
      ∀ field ∈ fields, ∃ start stop, reader.span field.name = .ok (start, stop) ∧
        stop ≤ reader.data.size) ∧
    ∀ value, reader.value = .ok value → reader.offset ≤ reader.data.size →
      ∃ size, reader.size = .ok size ∧ reader.offset + size ≤ reader.data.size := by
  refine ⟨fun name start stop spanned => ?_, fun size sized room field declared => ?_,
    fun value decoded within => ?_⟩
  · obtain ⟨member, reached, rfl, ends⟩ := Reader.exists_field_of_span spanned
    have leads := Reader.leads_of_field address reached
    obtain ⟨ordered, last⟩ := Layout.behind_bounds ends
    refine ⟨Reader.offset_le_of_field struct address reached, ordered, last, member, reached, rfl, ?_⟩
    rw [leads.data] at ends
    rw [Reader.value, leads.data]
    exact Layout.readsUpTo_decode member.name leads.address ends
  · have names := ((Schema.valid_of_compile compiled).part inside).names struct
    have walked := (Reader.size_eq_ok_iff struct address (Nat.lt_of_le_of_lt room small)).mp sized
    obtain ⟨index, there⟩ := List.getElem?_of_mem declared
    obtain ⟨mark, here⟩ := exists_walkFields_take walked index
    obtain ⟨next, later⟩ := exists_walkFields_take walked (index + 1)
    refine ⟨mark, next, Reader.span_of_walkFields struct names address there here later, ?_⟩
    exact Nat.le_trans (le_of_walkFields_take address walked later) room
  · rw [Reader.value, struct] at decoded
    obtain ⟨members, found, -⟩ := bind_eq_ok_iff.mp decoded
    obtain ⟨-, ⟨stop, walked⟩, -⟩ := decodeFields_eq_ok found
    obtain ⟨before, last⟩ := walkFields_bounds address walked
    have ends := (Layout.behind_struct fields address).trans walked
    have reaches : stop ≤ max reader.offset reader.data.size :=
      (Layout.readsUpTo_decode reader.name address ends).enough value decoded
    have whole : reader.offset + (stop - reader.offset) = stop := Nat.add_sub_cancel' before
    refine ⟨stop - reader.offset, ?_, by omega⟩
    rw [Reader.size_eq_ok_iff struct address (by rwa [whole]), whole]
    exact walked

theorem Schema.span_bounds_samplePacket :
    let reader := sampleSchema.reader #[0, 8, 2, 1, 1, 2, 1, 1, 255, 254]
    Schema.compile samplePacket .big = .ok sampleSchema ∧ reader.size = .ok 10 ∧
      (∃ start stop, reader.span "body" = .ok (start, stop) ∧ stop ≤ 10) ∧
      ∃ member, reader.field "items" = .ok member ∧ member.offset = 4 ∧
        ReadsUpTo reader.data 4 7 member.value := by
  intro reader
  have sized : reader.size = .ok 10 := by decide +kernel
  obtain ⟨spans, tiled, -⟩ := Schema.span_bounds compile_samplePacket
    (show reader.layout = .struct sampleSchema.fields from rfl) (.refl _) (by decide) (by decide)
  obtain ⟨-, -, -, items⟩ := spans "items" 4 7 (by decide +kernel)
  have body := tiled 10 sized (by decide) _
    (List.mem_of_getElem? (show sampleSchema.fields[4]? = some _ from rfl))
  exact ⟨compile_samplePacket, sized, body, items⟩

/-- **A span may end beyond the data**: a count of four items is believed when none of them is there,
and where the members before have fixed widths, nothing has to be there at all. -/
theorem Schema.span_beyond_data :
    let data : Buffer := #[0, 8, 2, 1, 4]
    Schema.compile samplePacket .big = .ok sampleSchema ∧
      (sampleSchema.reader data).span "items" = .ok (4, 13) ∧ data.size < 13 ∧
      (sampleSchema.reader #[]).span "kind" = .ok (2, 3) :=
  ⟨compile_samplePacket, by decide +kernel, by decide, by decide +kernel⟩

end RecordLayout
