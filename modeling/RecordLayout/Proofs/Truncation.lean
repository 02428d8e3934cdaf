/-
**Truncation is always detected.**

A buffer that is cut short has nothing new to say. Whatever reading does with the whole buffer, with
the front of it it does the same, or it runs out of data (`Shortens`). The relation passes through
sequences of steps, so it holds of everything that is put together from slices and jumps:

* `Layout.shortens_extent`, `Layout.shortens_decode`: the length and the value at an offset.
* `Schema.truncation_detected`: the front of a record that is shorter than the record lacks data. It
  cannot be decoded, because what is decoded is a chunk that reads the same in the whole buffer, and
  ends at the same place.
-/

import RecordLayout.Proofs.Locality

namespace RecordLayout

/-! ### Running out of data -/

/-- The buffer ends before the value does. -/
def ReadError.Lacks (cause : ReadError) : Prop :=
  (∃ needed available, cause = .notEnoughData needed available) ∨ ∃ name, cause = .missingView name

/-- Where the whole buffer gives a result, the short one gives the same or runs out of data. -/
def Shortens {α : Type} (short whole : Except ReadError α) : Prop :=
  ∀ value, whole = .ok value → short = .ok value ∨ ∃ cause, short = .error cause ∧ cause.Lacks

namespace Shortens

variable {α β : Type} {short whole : Except ReadError α}

theorem refl (outcome : Except ReadError α) : Shortens outcome outcome :=
  fun _ found => .inl found

/-- A short buffer that runs out of data may do so wherever it does. -/
theorem of_lacks {cause : ReadError} (lacks : cause.Lacks) : Shortens (.error cause) whole :=
  fun _ _ => .inr ⟨cause, rfl, lacks⟩

theorem of_error (cause : ReadError) : Shortens short (.error cause) :=
  fun _ impossible => by cases impossible

/-- **Step after step**: the short buffer keeps up or has run out of data before. -/
theorem bind {next next' : α → Except ReadError β} (first : Shortens short whole)
    (rest : ∀ value, Shortens (next value) (next' value)) :
    Shortens (short >>= next) (whole >>= next') := by
  intro result found
  obtain ⟨value, reached, found⟩ := bind_eq_ok_iff.mp found
  rcases first value reached with same | ⟨cause, failed, lacks⟩
  · rw [same]
    exact rest value result found
  · rw [failed]
    exact .inr ⟨cause, rfl, lacks⟩

end Shortens

/-! ### Slices and jumps -/

section Short

variable {data : Buffer} {offset kept : Nat}

theorem Holds.take {chunk : Bytes} (held : Holds data offset chunk)
    (inside : offset + chunk.length ≤ kept) : Holds (data.take kept) offset chunk := by
  obtain ⟨before, after, split, rfl⟩ := held
  refine ⟨before, after.take (kept - (before ++ chunk).length), ?_, rfl⟩
  rw [toList_take, split, List.take_append, List.take_of_length_le]
  rw [List.length_append]
  exact inside

theorem Holds.of_take {chunk : Bytes} (held : Holds (data.take kept) 0 chunk) :
    Holds data 0 chunk ∧ chunk.length ≤ kept := by
  have bound := held.bound
  obtain ⟨-, front⟩ := iff_drop.mp held
  rw [List.drop_zero, toList_take] at front
  refine ⟨iff_drop.mpr ⟨Nat.zero_le _, List.IsPrefix.trans front (List.take_prefix _ _)⟩, ?_⟩
  have length := front.length_le
  rw [List.length_take] at length
  omega

theorem shortens_slice (data : Buffer) (kept offset width : Nat) :
    Shortens (Address.slice (data.take kept) offset width) (Address.slice data offset width) := by
  intro chunk found
  obtain ⟨rfl, held⟩ := Holds.of_slice found
  by_cases inside : offset + chunk.length ≤ kept
  · exact .inl (held.take inside).slice
  · refine .inr ⟨_, if_neg ?_, .inl ⟨_, _, rfl⟩⟩
    rw [← Array.length_toList, toList_take, List.length_take]
    omega

theorem shortens_advance (data : Buffer) (kept position length : Nat) :
    Shortens (Address.advance (data.take kept) position length)
      (Address.advance data position length) := by
  intro next found
  exact .inl (Address.advance_eq_ok_iff.mpr (Address.advance_eq_ok_iff.mp found))

theorem shortens_read (data : Buffer) (kept : Nat) (format : IntFormat) (offset : Nat) :
    Shortens (format.read (data.take kept) offset) (format.read data offset) :=
  (shortens_slice data kept offset format.bytes).bind fun _ => .refl _

theorem shortens_readKey (data : Buffer) (kept : Nat) (name : String) (key : IntFormat)
    (offset : Nat) :
    Shortens (readKey (data.take kept) name key offset) (readKey data name key offset) := by
  unfold readKey
  by_cases missing : (data.take kept).size ≤ offset
  · rw [if_pos missing]
    exact .of_lacks (.inr ⟨name, rfl⟩)
  · rw [if_neg missing]
    split
    · exact .of_error _
    · exact shortens_read data kept key offset

theorem ArrayLength.shortens_count (data : Buffer) (kept : Nat) (length : ArrayLength IntFormat)
    (offset : Nat) : Shortens (length.count (data.take kept) offset) (length.count data offset) := by
  cases length with
  | fixed count => exact .refl _
  | bounded capacity counter =>
      exact (shortens_read data kept counter offset).bind fun _ => .refl _

theorem ArrayLength.shortens_start (data : Buffer) (kept : Nat) (length : ArrayLength IntFormat)
    (offset : Nat) : Shortens (length.start (data.take kept) offset) (length.start data offset) := by
  cases length with
  | fixed count => exact .refl _
  | bounded capacity counter => exact shortens_advance data kept offset counter.bytes

/-! ### Walks -/

theorem shortens_walkTimes {step step' : Nat → Except ReadError Nat}
    (each : ∀ position, Shortens (step position) (step' position)) (times position : Nat) :
    Shortens (walkTimes step times position) (walkTimes step' times position) := by
  induction times generalizing position with
  | zero => exact .refl _
  | succ times ih => exact (each position).bind ih

theorem shortens_collect {α : Type} {step step' : Nat → Except ReadError (α × Nat)}
    (each : ∀ position, Shortens (step position) (step' position)) (times position : Nat) :
    Shortens (collect step times position) (collect step' times position) := by
  induction times generalizing position with
  | zero => exact .refl _
  | succ times ih => exact (each position).bind fun found => (ih found.2).bind fun _ => .refl _

theorem shortens_behind_of_extent {layout : Layout}
    (extent : ∀ offset, Shortens (layout.extent (data.take kept) offset) (layout.extent data offset))
    (position : Nat) :
    Shortens (layout.behind (data.take kept) position) (layout.behind data position) :=
  (extent position).bind fun length => shortens_advance data kept position length

theorem shortens_walkFields {fields : List Field}
    (each : ∀ field ∈ fields, ∀ offset,
      Shortens (field.layout.extent (data.take kept) offset) (field.layout.extent data offset))
    (position : Nat) :
    Shortens (walkFields (data.take kept) fields position) (walkFields data fields position) := by
  induction fields generalizing position with
  | nil => exact .refl _
  | cons field fields ih =>
      rw [List.forall_mem_cons] at each
      rw [walkFields_cons, walkFields_cons]
      exact (shortens_behind_of_extent each.1 position).bind (ih each.2)

/-- **The length of a value** in a short buffer. -/
theorem Layout.shortens_extent (data : Buffer) (kept : Nat) (layout : Layout) (offset : Nat) :
    Shortens (layout.extent (data.take kept) offset) (layout.extent data offset) := by
  induction layout generalizing offset with
  | int _ | enum _ | mask _ | constant _ _ | derived _ _ => exact .refl _
  | struct fields ih =>
      rw [Layout.extent, Layout.extent]
      split
      · exact .refl _
      · exact (shortens_walkFields ih offset).bind fun _ => .refl _
  | array element length ih =>
      rw [Layout.extent, Layout.extent]
      split
      · exact .refl _
      · refine (ArrayLength.shortens_count data kept length offset).bind fun count => ?_
        refine (ArrayLength.shortens_start data kept length offset).bind fun start => ?_
        exact (shortens_walkTimes (shortens_behind_of_extent ih) count start).bind fun _ => .refl _
  | view key variants ih =>
      rw [Layout.extent, Layout.extent]
      split
      · exact .refl _
      · refine (shortens_read data kept key offset).bind fun stored => ?_
        rw [payloadExtent_eq, payloadExtent_eq]
        refine Shortens.bind ?_ fun payload => shortens_advance data kept key.bytes payload
        split
        · exact .of_error _
        · rename_i variant selected
          exact (shortens_advance data kept offset key.bytes).bind
            (ih variant (List.mem_of_find?_eq_some selected))

theorem Layout.shortens_behind (data : Buffer) (kept : Nat) (layout : Layout) (position : Nat) :
    Shortens (layout.behind (data.take kept) position) (layout.behind data position) :=
  shortens_behind_of_extent (layout.shortens_extent data kept) position

/-! ### Values -/

theorem Layout.shortens_decode_of_leaf {layout : Layout} (leaf : layout.isLeaf) (data : Buffer)
    (kept : Nat) (name : String) (offset : Nat) :
    Shortens (layout.decode (data.take kept) name offset) (layout.decode data name offset) := by
  obtain ⟨width, interpret, -, sliced⟩ := decode_leaf leaf name
  rw [sliced, sliced]
  exact (shortens_slice data kept offset width).bind fun _ => .refl _

theorem shortens_decodeFields {fields : List Field}
    (each : ∀ field ∈ fields, ∀ name offset, Shortens
      (field.layout.decode (data.take kept) name offset) (field.layout.decode data name offset))
    (position : Nat) :
    Shortens (decodeFields (data.take kept) fields position) (decodeFields data fields position) := by
  induction fields generalizing position with
  | nil => exact .refl _
  | cons field fields ih =>
      rw [List.forall_mem_cons] at each
      rw [decodeFields_cons, decodeFields_cons]
      refine (each.1 field.name position).bind fun value => ?_
      refine (field.layout.shortens_behind data kept position).bind fun next => ?_
      exact (ih each.2 next).bind fun _ => .refl _

/-- **The value** in a short buffer. -/
theorem Layout.shortens_decode (data : Buffer) (kept : Nat) (layout : Layout) (name : String)
    (offset : Nat) :
    Shortens (layout.decode (data.take kept) name offset) (layout.decode data name offset) := by
  induction layout generalizing name offset with
  | int _ | enum _ | mask _ | constant _ _ | derived _ _ =>
      exact shortens_decode_of_leaf rfl data kept name offset
  | struct fields ih =>
      rw [Layout.decode, Layout.decode]
      exact (shortens_decodeFields ih offset).bind fun _ => .refl _
  | array element length ih =>
      rw [Layout.decode, Layout.decode]
      refine (ArrayLength.shortens_count data kept length offset).bind fun count => ?_
      refine (ArrayLength.shortens_start data kept length offset).bind fun start => ?_
      refine (shortens_collect (fun position => ?_) count start).bind fun _ => .refl _
      refine (element.shortens_behind data kept position).bind fun next => ?_
      exact (ih name position).bind fun _ => .refl _
  | view key variants ih =>
      rw [Layout.decode, Layout.decode]
      refine (shortens_readKey data kept name key offset).bind fun stored => ?_
      rw [decodePayload_eq, decodePayload_eq]
      refine Shortens.bind ?_ fun _ => .refl _
      split
      · exact .of_error _
      · rename_i variant selected
        refine (shortens_advance data kept offset key.bytes).bind fun position => ?_
        exact (ih variant (List.mem_of_find?_eq_some selected) variant.name position).bind
          fun _ => .refl _

end Short

/-! ### Records cut short -/

namespace Schema

/-- **Truncation is always detected.** A record that can be parsed has a size, and every front of the
buffer that is shorter than that size is refused for lack of data. -/
theorem truncation_detected (schema : Schema) {data : Buffer} {value : Value}
    (small : data.size < Address.limit) (parsed : schema.parse data = .ok value) :
    ∃ length, (schema.reader data).size = .ok length ∧ ∀ kept < length, ∃ cause,
      schema.parse (data.take kept) = .error cause ∧ cause.Lacks := by
  obtain ⟨chunk, held, reads⟩ := Layout.exists_readsAs small (Nat.zero_le _) parsed
  have whole := reads data 0 small held
  refine ⟨chunk.length, whole.extent, fun kept short => ?_⟩
  rcases schema.root.shortens_decode data kept "" 0 value parsed with again | lacks
  · -- what the front decodes to would end within it, and the record does not
    have room : (data.take kept).size < Address.limit := by
      rw [← Array.length_toList, toList_take, List.length_take, Array.length_toList]
      omega
    obtain ⟨other, front, same⟩ := Layout.exists_readsAs room (Nat.zero_le _) again
    obtain ⟨there, bounded⟩ := front.of_take
    have ends := (same data 0 small there).ends
    rw [whole.ends] at ends
    have lengths : 0 + chunk.length = 0 + other.length := Except.ok.inj ends
    omega
  · exact lacks

theorem truncation_detected_samplePacket :
    let data : Buffer := #[0, 8, 2, 1, 1, 2, 1, 1, 255, 254]
    (∃ value, sampleSchema.parse data = .ok value) ∧
      (sampleSchema.reader data).size = .ok 10 ∧
      ∃ cause, sampleSchema.parse (data.take 7) = .error cause ∧ cause.Lacks := by
  intro data
  obtain ⟨value, parsed⟩ : ∃ value, sampleSchema.parse data = .ok value :=
    exists_of_isOk (by decide +kernel)
  have sized : (sampleSchema.reader data).size = .ok 10 := by decide +kernel
  obtain ⟨length, found, detected⟩ := truncation_detected sampleSchema (by decide) parsed
  rw [sized] at found
  cases found
  exact ⟨⟨value, parsed⟩, sized, detected 7 (by decide)⟩

end Schema

end RecordLayout
