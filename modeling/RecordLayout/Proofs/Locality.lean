/-
**Decoding is local.**

What a value is decoded from is a string of bytes, and nothing else: wherever that string stands in a
buffer, it decodes to the same value, and the value ends where the string ends. Neither the bytes
around it nor the place matters.

* `Layout.decode_leaf`: a leaf slices its width from the buffer and looks at nothing else. Everything
  longer is put together from leaves, one behind the other.
* `Layout.exists_readsAs`: **what was decoded is a chunk that reads as its value.**
* `Schema.decoding_is_local`: the record and its members, at every place.
-/

import RecordLayout.Proofs.Chunk

namespace RecordLayout

/-! ### Chunks in a buffer -/

theorem toList_take (data : Buffer) (kept : Nat) :
    (data.take kept).toList = data.toList.take kept := by
  rw [Array.take_eq_extract, Array.toList_extract]
  simp

/-- A chunk at the front of a buffer stands behind whatever is put in front of it, and does not
depend on what comes after. -/
theorem Holds.moved {data inner : Buffer} {chunk : Bytes} (held : Holds data 0 chunk)
    (same : inner.take chunk.length = data.take chunk.length) (front back : Buffer) :
    Holds (front ++ inner ++ back) front.size chunk := by
  have starts : chunk = inner.toList.take chunk.length := by
    rw [← toList_take, same, toList_take]
    exact List.prefix_iff_eq_take.mp (iff_drop.mp held).2
  obtain ⟨rest, split⟩ : chunk <+: inner.toList := List.prefix_iff_eq_take.mpr starts
  refine ⟨front.toList, rest ++ back.toList, ?_, Array.length_toList⟩
  rw [Array.toList_append, Array.toList_append, ← split]
  simp only [List.append_assoc]

/-! ### What was read is a chunk -/

/-- Whether a value of the layout has no parts. -/
def Layout.isLeaf : Layout → Bool
  | .int _ | .enum _ | .mask _ | .constant _ _ | .derived _ _ => true
  | _ => false

/-- **A leaf is what its bytes say**: its width is fixed, and decoding looks at those bytes only. -/
theorem Layout.decode_leaf {layout : Layout} (leaf : layout.isLeaf) (name : String) :
    ∃ (width : Nat) (interpret : Bytes → Except ReadError Value), layout.width? = some width ∧
      ∀ data offset, layout.decode data name offset =
        (Address.slice data offset width >>= interpret) := by
  cases layout with
  | int format =>
      refine ⟨format.bytes, fun bytes => pure (format.value (format.order.decode bytes)), rfl, ?_⟩
      intro data offset
      rw [Layout.decode, IntFormat.read, bind_assoc]
      simp only [pure_bind]
  | enum enumeration =>
      refine ⟨enumeration.format.bytes, fun bytes =>
        (enumeration.nameOf? (enumeration.format.order.decode bytes)).elim
          (.error (.unknownEnumValue (enumeration.format.order.decode bytes)))
          fun name => .ok (.enum name), rfl, ?_⟩
      intro data offset
      rw [Layout.decode, Enumeration.read, IntFormat.read, bind_assoc, bind_assoc]
      refine congrArg _ (funext fun bytes => ?_)
      rw [pure_bind]
      cases enumeration.nameOf? (enumeration.format.order.decode bytes) <;> rfl
  | mask mask =>
      refine ⟨mask.width, fun bytes =>
        pure (.mask (mask.flags.map fun flag => (flag.name, Mask.stored bytes flag))), rfl, ?_⟩
      intro data offset
      rw [Layout.decode, Mask.readAll, Mask.readBytes, bind_assoc]
      simp only [pure_bind]
  | constant format value =>
      refine ⟨format.bytes, fun bytes => pure (.unsigned (format.order.decode bytes)), rfl, ?_⟩
      intro data offset
      rw [Layout.decode, IntFormat.read, bind_assoc]
      simp only [pure_bind]
  | derived format expr =>
      refine ⟨format.bytes, fun bytes => pure (format.value (format.order.decode bytes)), rfl, ?_⟩
      intro data offset
      rw [Layout.decode, IntFormat.read, bind_assoc]
      simp only [pure_bind]
  | struct _ | array _ _ | view _ _ => cases leaf

section Chunks

variable {data : Buffer} {offset position : Nat} {name : String} {value : Value}

/-- A leaf that was decoded is a chunk that reads as its value. -/
theorem Layout.exists_readsAs_of_leaf {layout : Layout} (leaf : layout.isLeaf)
    (decoded : layout.decode data name offset = .ok value) :
    ∃ chunk, Holds data offset chunk ∧ layout.ReadsAs name chunk value := by
  obtain ⟨width, interpret, fixed, sliced⟩ := decode_leaf leaf name
  rw [sliced] at decoded
  obtain ⟨chunk, found, read⟩ := bind_eq_ok_iff.mp decoded
  obtain ⟨length, held⟩ := Holds.of_slice found
  refine ⟨chunk, held, fun other place small there => ⟨?_, ?_⟩⟩
  · rw [sliced, ← length, there.slice]
    exact read
  · exact there.behind small (by rw [extent_of_width? fixed, length])

/-- A word that was read is a chunk that reads as the word. -/
theorem IntFormat.exists_readsAs {format : IntFormat} {word : UInt64}
    (found : format.read data offset = .ok word) :
    ∃ chunk, Holds data offset chunk ∧ format.ReadsAs chunk word := by
  obtain ⟨chunk, sliced, same⟩ := bind_eq_ok_iff.mp found
  obtain ⟨length, held⟩ := Holds.of_slice sliced
  refine ⟨chunk, held, length, fun other place there => ?_⟩
  rw [IntFormat.read, ← length, there.slice]
  exact same

theorem ArrayLength.exists_countsAs {length : ArrayLength IntFormat} {count : Nat}
    (inside : offset ≤ data.size) (counted : length.count data offset = .ok count) :
    ∃ chunk, Holds data offset chunk ∧ length.CountsAs chunk count := by
  cases length with
  | fixed number =>
      cases counted
      exact ⟨[], .nothing inside, countsAs_fixed number⟩
  | bounded capacity counter =>
      obtain ⟨stored, read, checked⟩ := bind_eq_ok_iff.mp counted
      obtain ⟨chunk, held, reads⟩ := IntFormat.exists_readsAs read
      split at checked
      · cases checked
      · rename_i within
        cases checked
        exact ⟨chunk, held, countsAs_bounded reads within⟩

theorem exists_fieldsReadAs {fields : List Field} {members : List (String × Value)}
    (small : data.size < Address.limit)
    (inner : ∀ field ∈ fields, ∀ offset value, offset ≤ data.size →
      field.layout.decode data field.name offset = .ok value →
      ∃ chunk, Holds data offset chunk ∧ field.layout.ReadsAs field.name chunk value)
    (inside : position ≤ data.size) (decoded : decodeFields data fields position = .ok members) :
    ∃ parts, FieldsReadAs fields parts ∧ Holds data position (bytesOf parts) ∧
      membersOf fields parts = members := by
  induction fields generalizing position members with
  | nil =>
      cases decoded
      exact ⟨[], .nil, .nothing inside, rfl⟩
  | cons field fields ih =>
      rw [List.forall_mem_cons] at inner
      rw [decodeFields_cons] at decoded
      simp only [bind_eq_ok_iff, pure_eq_ok_iff] at decoded
      obtain ⟨value, here, next, ends, others, later, rfl⟩ := decoded
      obtain ⟨chunk, held, reads⟩ := inner.1 position value inside here
      -- the next member starts where the chunk ends
      rw [(reads data position small held).ends] at ends
      cases ends
      obtain ⟨parts, each, behind, rfl⟩ := ih inner.2 held.bound later
      exact ⟨(chunk, value) :: parts, .cons reads each, held.append behind, rfl⟩

theorem exists_elementsReadAs {element : Layout} {count : Nat} {values : List Value}
    (small : data.size < Address.limit)
    (inner : ∀ offset value, offset ≤ data.size → element.decode data name offset = .ok value →
      ∃ chunk, Holds data offset chunk ∧ element.ReadsAs name chunk value)
    (inside : position ≤ data.size)
    (collected : collect (fun position => do
      let next ← element.behind data position
      return (← element.decode data name position, next)) count position = .ok values) :
    ∃ parts : List (Bytes × Value), parts.length = count ∧
      (∀ part ∈ parts, element.ReadsAs name part.1 part.2) ∧ Holds data position (bytesOf parts) ∧
      parts.map Prod.snd = values := by
  induction count generalizing position values with
  | zero =>
      cases collected
      exact ⟨[], rfl, by simp, .nothing inside, rfl⟩
  | succ count ih =>
      simp only [collect, bind_eq_ok_iff, pure_eq_ok_iff] at collected
      obtain ⟨⟨first, _⟩, ⟨next, ends, _, here, same⟩, others, later, rfl⟩ := collected
      cases same
      obtain ⟨chunk, held, reads⟩ := inner position first inside here
      rw [(reads data position small held).ends] at ends
      cases ends
      obtain ⟨parts, rfl, each, behind, rfl⟩ := ih held.bound later
      exact ⟨(chunk, first) :: parts, rfl, List.forall_mem_cons.mpr ⟨reads, each⟩,
        held.append behind, rfl⟩

/-! ### Whole values -/

/-- **What was decoded is a chunk that reads as its value.** -/
theorem Layout.exists_readsAs {layout : Layout} (small : data.size < Address.limit)
    (inside : offset ≤ data.size) (decoded : layout.decode data name offset = .ok value) :
    ∃ chunk, Holds data offset chunk ∧ layout.ReadsAs name chunk value := by
  induction layout generalizing name offset value with
  | int _ | enum _ | mask _ | constant _ _ | derived _ _ => exact exists_readsAs_of_leaf rfl decoded
  | struct fields ih =>
      obtain ⟨members, found, same⟩ := bind_eq_ok_iff.mp decoded
      cases same
      obtain ⟨parts, each, held, rfl⟩ := exists_fieldsReadAs small
        (fun field member offset value inside decoded => ih field member inside decoded) inside found
      exact ⟨bytesOf parts, held, each.struct name⟩
  | array element length ih =>
      simp only [Layout.decode, bind_eq_ok_iff] at decoded
      obtain ⟨count, counted, start, begins, values, collected, same⟩ := decoded
      cases same
      obtain ⟨head, front, counts⟩ := ArrayLength.exists_countsAs inside counted
      rw [(counts data offset small front).2] at begins
      cases begins
      obtain ⟨parts, rfl, each, behind, rfl⟩ := exists_elementsReadAs small
        (fun offset value inside decoded => ih inside decoded) front.bound collected
      exact ⟨head ++ bytesOf parts, front.append behind, .array counts each⟩
  | view key variants ih =>
      obtain ⟨stored, variant, payload, read, selected, -, own, rfl⟩ := decode_view_eq_ok decoded
      obtain ⟨head, front, reads⟩ := IntFormat.exists_readsAs (readKey_eq_ok read)
      rw [← reads.length] at own
      obtain ⟨rest, behind, inner⟩ := ih variant (List.mem_of_find?_eq_some selected) front.bound own
      exact ⟨head ++ rest, front.append behind, .view reads selected inner⟩

end Chunks

/-! ### Records at every place -/

namespace Schema

variable {specs : List FieldSpec} {order : ByteOrder} {schema : Schema}

/-- **Decoding is local and independent of the place.** A record that can be parsed has a size, and
whatever stands before, between and behind the bytes of that size, it is the same record: it has the
same value and the same size, and its members have the same spans from where it starts. -/
theorem decoding_is_local (compiled : Schema.compile specs order = .ok schema) {data : Buffer}
    {value : Value} (small : data.size < Address.limit) (parsed : schema.parse data = .ok value) :
    ∃ length, (schema.reader data).size = .ok length ∧ length ≤ data.size ∧
      ∀ front inner back : Buffer, inner.take length = data.take length →
        (front ++ inner ++ back).size < Address.limit →
        let moved := schema.readerAt (front ++ inner ++ back) front.size
        moved.value = .ok value ∧ moved.size = .ok length ∧
          ∀ field ∈ schema.fields, ∃ start stop,
            (schema.reader data).span field.name = .ok (start, stop) ∧
            moved.span field.name = .ok (front.size + start, front.size + stop) := by
  obtain ⟨members, decoded, same⟩ := bind_eq_ok_iff.mp parsed
  cases same
  obtain ⟨parts, each, held, rfl⟩ := exists_fieldsReadAs small
    (fun _ _ _ _ inside decoded => Layout.exists_readsAs small inside decoded) (Nat.zero_le _) decoded
  have names : (schema.fields.map (·.name)).Nodup := by
    cases valid_of_compile compiled with
    | struct names _ _ => exact names
  have here := each.struct "" data 0 small held
  refine ⟨(bytesOf parts).length, here.extent, by simpa using held.bound, ?_⟩
  intro front inner back agree room moved
  have there := held.moved agree front back
  have reads := each.struct "" (front ++ inner ++ back) front.size room there
  refine ⟨reads.decoded, reads.extent, fun field inside => ?_⟩
  obtain ⟨index, declared⟩ := List.mem_iff_getElem?.mp inside
  have own : (schema.reader data).span field.name = .ok (0 + _, 0 + _) :=
    each.span rfl names small held declared
  rw [Nat.zero_add, Nat.zero_add] at own
  exact ⟨_, _, own, each.span rfl names room there declared⟩

theorem decoding_is_local_samplePacket :
    let data : Buffer := #[0, 8, 2, 1, 1, 2, 1, 1, 255, 254]
    let moved := sampleSchema.readerAt (#[7, 7, 7] ++ (data ++ #[9]) ++ #[5]) 3
    Schema.compile samplePacket .big = .ok sampleSchema ∧
      (∃ value, sampleSchema.parse data = .ok value ∧ moved.value = .ok value) ∧
      (sampleSchema.reader data).span "body" = .ok (7, 10) ∧ moved.span "body" = .ok (10, 13) := by
  intro data moved
  obtain ⟨value, parsed⟩ : ∃ value, sampleSchema.parse data = .ok value :=
    exists_of_isOk (by decide +kernel)
  have sized : (sampleSchema.reader data).size = .ok 10 := by decide +kernel
  have body : (sampleSchema.reader data).span "body" = .ok (7, 10) := by decide +kernel
  obtain ⟨length, found, -, anywhere⟩ := decoding_is_local compile_samplePacket (by decide) parsed
  rw [sized] at found
  cases found
  obtain ⟨same, -, spans⟩ := anywhere #[7, 7, 7] (data ++ #[9]) #[5] rfl (by decide)
  obtain ⟨start, stop, own, shifted⟩ := spans _ (List.mem_of_getElem? (i := 4) rfl)
  rw [show (sampleSchema.reader data).span _ = _ from body] at own
  cases own
  exact ⟨compile_samplePacket, ⟨value, parsed, same⟩, body, shifted⟩

end Schema

end RecordLayout
