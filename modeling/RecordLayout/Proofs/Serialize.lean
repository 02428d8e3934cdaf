/-
**Writing a record, as a contract.**

What a caller of `Draft.writeTo` and `Draft.toBuffer` can rely on, for every draft that a run of
operations builds on a compiled schema, complete or not.

* `Draft.Complete`: every leaf is stored, every view has a selection, every size fits its format.
* `Draft.exists_encode_iff`: the complete drafts are those that have an encoding.
* `Draft.writeTo_of_le`: the outcome of writing to a buffer with enough room.
* `Schema.toBuffer_eq_encode`: the writer that leaves gaps and fills them in later yields the
  bytes of the encoder that does neither.
* `Schema.writeTo_exact`: the writer needs the room that the size of the draft says, no more and
  no less.
-/

import RecordLayout.Proofs.WriteRun

namespace RecordLayout

/-! ### Structs by the sizes of their members -/

/-- The encoded lengths of the members of a struct as it stands. -/
def memberSizes (fields : List Field) (members : List Draft) : List Nat :=
  (fields.zip members).map fun pair => pair.2.size pair.1.layout

namespace Scope

variable {scope : Scope} {field : Field} {member : Draft} {lengths : List Nat}

theorem evaluateBy_eq_ok_iff {name : String} {format : IntFormat} {expr : SizeExpr Nat}
    {value : Int} :
    scope.evaluateBy lengths name format expr = .ok value ↔
      expr.evaluate (scope.quantityBy lengths) = .ok value ∧ format.fits value = true := by
  unfold evaluateBy
  simp only [bind_eq_ok_iff]
  constructor
  · rintro ⟨found, evaluated, passed⟩
    split at passed
    · cases passed
    · rename_i fits
      cases passed
      exact ⟨evaluated, by simpa using fits⟩
  · rintro ⟨evaluated, fits⟩
    refine ⟨value, evaluated, ?_⟩
    rw [if_neg (by simp [fits])]
    rfl

/-- The part that stands for a member has the size of the member. -/
theorem length_part {part : Bytes} (shaped : member.Shaped field.layout)
    (found : scope.part field member = .ok part) : part.length = member.size field.layout := by
  unfold Scope.part at found
  split at found
  · rename_i format expr derived
    rw [derived] at shaped ⊢
    cases shaped
    split at found
    · cases found
      exact List.length_replicate
    · exact length_encodeSize found
  · exact Draft.length_encode shaped found

/-- A member that can be encoded has a part that stands for it. -/
theorem exists_part {chunk : Bytes}
    (encoded : scope.encodeMember lengths field member = .ok chunk) :
    ∃ part, scope.part field member = .ok part := by
  unfold encodeMember at encoded
  unfold Scope.part
  split at encoded
  · split
    · exact ⟨_, rfl⟩
    · rename_i unmeasured
      exact ⟨chunk, by
        rw [encodeSize_of_not_isMeasured (by simpa using unmeasured) [] lengths, encoded]⟩
  · exact ⟨chunk, encoded⟩

end Scope

/-- **The encoding of a struct**, member by member: each size is evaluated with the sizes of the
members. -/
theorem Draft.encode_struct_eq_ok_iff {fields : List Field} {members : List Draft} {name : String}
    {chunk : Bytes} (each : ∀ pair ∈ fields.zip members, pair.2.Shaped pair.1.layout) :
    Draft.encode (.struct fields) name (.struct members) = .ok chunk ↔
      ∃ chunks, List.Forall₂ (fun pair chunk => Scope.encodeMember ⟨fields, members⟩
          (memberSizes fields members) pair.1 pair.2 = .ok chunk) (fields.zip members) chunks ∧
        chunks.flatten = chunk := by
  have lengths {parts : List Bytes}
      (found : List.Forall₂ (fun pair part => Scope.part ⟨fields, members⟩ pair.1 pair.2 = .ok part)
        (fields.zip members) parts) : parts.map List.length = memberSizes fields members :=
    map_eq_of_forall₂ found fun pair inside part => Scope.length_part (each pair inside)
  simp only [Draft.encode_struct, bind_eq_ok_iff, pure_eq_ok_iff, mapM_eq_ok_iff]
  constructor
  · rintro ⟨parts, found, chunks, encoded, rfl⟩
    rw [lengths found] at encoded
    exact ⟨chunks, encoded, rfl⟩
  · rintro ⟨chunks, encoded, rfl⟩
    have exists_each : ∀ pair ∈ fields.zip members,
        ∃ part, Scope.part ⟨fields, members⟩ pair.1 pair.2 = .ok part := by
      intro pair inside
      obtain ⟨_, _, encoded⟩ := exists_entry_of_mem encoded.flip inside
      exact Scope.exists_part encoded
    obtain ⟨parts, found⟩ := exists_forall₂ exists_each
    exact ⟨parts, found, chunks, by rwa [lengths found], rfl⟩

/-! ### Complete drafts -/

/-- **Nothing is missing**: every leaf is stored, every view has a selection, and every size has a
value that fits its format. -/
inductive Draft.Complete : Layout → Draft → Prop where
  | int {format : IntFormat} {word : UInt64} : Complete (.int format) (.scalar (some word))
  | enum {enumeration : Enumeration} {word : UInt64} :
      Complete (.enum enumeration) (.scalar (some word))
  | mask {mask : Mask} {bytes : Bytes} : Complete (.mask mask) (.mask bytes)
  | struct {fields : List Field} {members : List Draft}
      (each : ∀ pair ∈ fields.zip members,
        (∀ format expr, pair.1.layout ≠ .derived format expr) → Complete pair.1.layout pair.2)
      (sizes : ∀ pair ∈ fields.zip members, ∀ format expr, pair.1.layout = .derived format expr →
        ∃ value, expr.evaluate (Scope.quantityBy ⟨fields, members⟩ (memberSizes fields members)) =
          .ok value ∧ format.fits value = true) :
      Complete (.struct fields) (.struct members)
  | array {element : Layout} {length : ArrayLength IntFormat} {elements : List Draft}
      (each : ∀ draft ∈ elements, Complete element draft) :
      Complete (.array element length) (.array elements)
  | view {key : IntFormat} {variants : List Variant} {index : Nat} {variant : Variant}
      {payload : Draft} (selected : variants[index]? = some variant)
      (inside : Complete variant.layout payload) :
      Complete (.view key variants) (.view (some (index, payload)))
  | constant {format : IntFormat} {value : UInt64} : Complete (.constant format value) .computed

namespace Draft

variable {layout : Layout} {draft : Draft} {name : String}

theorem complete_of_encode {chunk : Bytes} (shaped : draft.Shaped layout)
    (encoded : draft.encode layout name = .ok chunk) : draft.Complete layout := by
  induction shaped generalizing name chunk with
  | @int format stored _ =>
      cases stored with
      | none => cases encoded
      | some word => exact .int
  | @enum enumeration stored _ =>
      cases stored with
      | none => cases encoded
      | some word => exact .enum
  | mask whole => exact .mask
  | @struct fields members whole each ih =>
      obtain ⟨chunks, pieces, rfl⟩ := (encode_struct_eq_ok_iff each).mp encoded
      refine .struct (fun pair inside plain => ?_) fun pair inside format expr derived => ?_
      · obtain ⟨chunk, _, piece⟩ := exists_entry_of_mem pieces.flip inside
        obtain ⟨format, expr, derived, _⟩ | value := Scope.encodeMember_eq_ok piece
        · exact absurd derived (plain format expr)
        · exact ih pair inside value
      · obtain ⟨chunk, _, piece⟩ := exists_entry_of_mem pieces.flip inside
        simp only [Scope.encodeMember, derived, Scope.encodeSize, bind_eq_ok_iff,
          Scope.evaluateBy_eq_ok_iff] at piece
        obtain ⟨value, found, _⟩ := piece
        exact ⟨value, found⟩
  | @array element length elements counted each ih =>
      simp only [Draft.encode, encodeElements_eq_mapM, bind_eq_ok_iff, pure_eq_ok_iff,
        mapM_eq_ok_iff] at encoded
      obtain ⟨chunks, pieces, rfl⟩ := encoded
      refine .array fun draft inside => ?_
      obtain ⟨chunk, _, piece⟩ := exists_entry_of_mem pieces.flip inside
      exact ih draft inside piece
  | unselected => cases encoded
  | @view key variants index variant payload selected inside ih =>
      simp only [Draft.encode, selected, bind_eq_ok_iff, pure_eq_ok_iff] at encoded
      obtain ⟨rest, piece, rfl⟩ := encoded
      exact .view selected (ih piece)
  | constant => exact .constant
  | derived => cases encoded

theorem exists_encode (shaped : draft.Shaped layout) (complete : draft.Complete layout)
    (name : String) : ∃ chunk, draft.encode layout name = .ok chunk := by
  induction complete generalizing name with
  | @int format word => exact ⟨_, rfl⟩
  | @enum enumeration word => exact ⟨_, rfl⟩
  | mask => exact ⟨_, rfl⟩
  | @struct fields members _ sizes ih =>
      cases shaped with
      | struct whole each =>
          have pieces (pair : Field × Draft) (inside : pair ∈ fields.zip members) :
              ∃ chunk, Scope.encodeMember ⟨fields, members⟩ (memberSizes fields members) pair.1
                pair.2 = .ok chunk := by
            unfold Scope.encodeMember
            split
            · rename_i format expr derived
              obtain ⟨value, found⟩ := sizes pair inside format expr derived
              refine ⟨format.encode (format.toWord value), ?_⟩
              rw [Scope.encodeSize, Scope.evaluateBy_eq_ok_iff.mpr found]
              rfl
            · rename_i plain
              exact ih pair inside plain (each pair inside) _
          obtain ⟨chunks, pieces⟩ := exists_forall₂ pieces
          exact ⟨chunks.flatten, (encode_struct_eq_ok_iff each).mpr ⟨chunks, pieces, rfl⟩⟩
  | @array element length elements _ ih =>
      cases shaped with
      | array counted each =>
          obtain ⟨chunks, pieces⟩ := exists_forall₂ fun draft inside =>
            ih draft inside (each draft inside) name
          refine ⟨length.encodeCount elements.length ++ chunks.flatten, ?_⟩
          rw [Draft.encode, encodeElements_eq_mapM, mapM_eq_ok_iff.mpr pieces]
          rfl
  | @view key variants index variant payload selected _ ih =>
      cases shaped with
      | view declared inside =>
          rw [selected] at declared
          cases declared
          obtain ⟨chunk, piece⟩ := ih inside variant.name
          refine ⟨key.encode variant.key ++ chunk, ?_⟩
          simp only [Draft.encode, selected, piece]
          rfl
  | constant => exact ⟨_, rfl⟩

/-- **The complete drafts are those that have an encoding.** -/
theorem exists_encode_iff (shaped : draft.Shaped layout) (name : String) :
    (∃ chunk, draft.encode layout name = .ok chunk) ↔ draft.Complete layout :=
  ⟨fun ⟨_, encoded⟩ => complete_of_encode shaped encoded,
    fun complete => exists_encode shaped complete name⟩

/-! ### Writing with and without room -/

theorem writeTo_of_lt {buffer : Buffer} (short : buffer.size < draft.size layout) :
    draft.writeTo layout buffer =
      (.error (.writeFailed (draft.size layout) buffer.size), buffer) :=
  if_pos short

/-- **Writing to a buffer with enough room** puts the encoding in front, or fails for the reason
that the encoding fails. -/
theorem writeTo_of_le {buffer : Buffer} (valid : layout.Valid) (shaped : draft.Shaped layout)
    (room : draft.size layout ≤ buffer.size) :
    ∃ chunk : Bytes, chunk.length ≤ draft.size layout ∧
      draft.writeTo layout buffer =
        ((draft.encode layout "").map fun _ => draft.size layout, overwrite buffer 0 chunk) ∧
      ∀ whole, draft.encode layout "" = .ok whole → whole = chunk := by
  have law := Draft.writes_encode valid shaped "" (WriteBuffer.ofBuffer buffer)
    (show 0 + draft.size layout ≤ buffer.size by omega)
  unfold writeTo
  simp only [if_neg (Nat.not_lt.mpr room)]
  cases encoded : draft.encode layout "" with
  | error cause =>
      rw [encoded] at law
      obtain ⟨chunk, short, ran⟩ := law
      rw [ran]
      exact ⟨chunk, short, rfl, fun _ impossible => by cases impossible⟩
  | ok whole =>
      rw [encoded] at law
      obtain ⟨length, ran⟩ := law
      rw [ran]
      refine ⟨whole, Nat.le_of_eq length, ?_, fun _ same => (Except.ok.inj same).symm⟩
      rw [← length]
      show (Except.ok (0 + whole.length), _) = (Except.ok whole.length, _)
      rw [Nat.zero_add]
      rfl

/-- **What writing to a buffer answers** is known from the room and the encoding. -/
theorem writeTo_outcome (valid : layout.Valid) (shaped : draft.Shaped layout) (buffer : Buffer) :
    (draft.writeTo layout buffer).1 =
      if buffer.size < draft.size layout then
        .error (.writeFailed (draft.size layout) buffer.size)
      else (draft.encode layout "").map fun _ => draft.size layout := by
  split
  · rename_i short
    rw [writeTo_of_lt short]
  · rename_i room
    obtain ⟨_, -, wrote, -⟩ := writeTo_of_le valid shaped (Nat.not_lt.mp room)
    rw [wrote]

/-- The front of a buffer that a chunk was written to is the chunk. -/
theorem take_overwrite {buffer : Buffer} {chunk : Bytes} (room : chunk.length ≤ buffer.size) :
    (overwrite buffer 0 chunk).take chunk.length = chunk.toArray := by
  apply Array.toList_inj.mp
  rw [Array.take_eq_extract, Array.toList_extract, toList_overwrite (by omega)]
  simp

/-- **The bytes of a draft** are its encoding. -/
theorem toBuffer_eq (valid : layout.Valid) (shaped : draft.Shaped layout) :
    draft.toBuffer layout = (draft.encode layout "").map List.toArray := by
  have room : draft.size layout ≤ (Array.replicate (draft.size layout) 0 : Buffer).size := by
    rw [Array.size_replicate]
  obtain ⟨chunk, -, wrote, whole⟩ := writeTo_of_le valid shaped room
  unfold toBuffer
  rw [wrote]
  cases encoded : draft.encode layout "" with
  | error cause => rfl
  | ok bytes =>
      rw [← whole bytes encoded, ← length_encode shaped encoded]
      rw [← length_encode shaped encoded] at room
      exact congrArg Except.ok (take_overwrite room)

/-- **With enough room** the outcome of writing is that of `toBuffer`, and its bytes are in
front. -/
theorem writeTo_eq_toBuffer {buffer : Buffer} (valid : layout.Valid) (shaped : draft.Shaped layout)
    (room : draft.size layout ≤ buffer.size) :
    match draft.toBuffer layout with
    | .ok bytes => (draft.writeTo layout buffer).1 = .ok (draft.size layout) ∧
        (draft.writeTo layout buffer).2.take (draft.size layout) = bytes
    | .error cause => (draft.writeTo layout buffer).1 = .error cause := by
  obtain ⟨chunk, -, wrote, whole⟩ := writeTo_of_le valid shaped room
  rw [wrote, toBuffer_eq valid shaped]
  cases encoded : draft.encode layout "" with
  | error cause => rfl
  | ok bytes =>
      refine ⟨rfl, ?_⟩
      rw [← length_encode shaped encoded] at room ⊢
      rw [← whole bytes encoded]
      exact take_overwrite room

/-- **Behind the size of the draft** nothing changes, whatever the outcome. -/
theorem writeTo_frame (valid : layout.Valid) (shaped : draft.Shaped layout) (buffer : Buffer) :
    (draft.writeTo layout buffer).2.size = buffer.size ∧
      ∀ index, draft.size layout ≤ index →
        (draft.writeTo layout buffer).2[index]? = buffer[index]? := by
  rcases Nat.lt_or_ge buffer.size (draft.size layout) with short | room
  · rw [writeTo_of_lt short]
    exact ⟨rfl, fun _ _ => rfl⟩
  · obtain ⟨chunk, short, wrote, -⟩ := writeTo_of_le valid shaped room
    rw [wrote]
    refine ⟨size_overwrite .., fun index beyond => ?_⟩
    rw [getElem?_overwrite, if_neg (by omega)]

theorem toBuffer_ne_writeFailed (valid : layout.Valid) (shaped : draft.Shaped layout)
    (needed available : Nat) :
    draft.toBuffer layout ≠ .error (.writeFailed needed available) := by
  rw [toBuffer_eq valid shaped]
  cases encoded : draft.encode layout "" with
  | error cause =>
      intro failed
      cases failed
      exact encode_ne_writeFailed shaped "" _ _ encoded
  | ok bytes =>
      intro failed
      cases failed

theorem toBuffer_eq_ok_iff (valid : layout.Valid) (shaped : draft.Shaped layout) {bytes : Buffer} :
    draft.toBuffer layout = .ok bytes ↔ draft.encode layout "" = .ok bytes.toList := by
  rw [toBuffer_eq valid shaped]
  constructor
  · intro written
    cases encoded : draft.encode layout "" with
    | error cause =>
        rw [encoded] at written
        cases written
    | ok chunk =>
        rw [encoded] at written
        cases written
        rfl
  · intro encoded
    rw [encoded]
    exact congrArg Except.ok bytes.toArray_toList

end Draft

namespace Schema

variable {specs : List FieldSpec} {order : ByteOrder} {schema : Schema}

/-- **Gaps and patches leave no trace**: the writer yields bytes exactly when the draft has an
encoding, which is when it is complete, and the bytes are the encoding. -/
theorem toBuffer_eq_encode (compiled : Schema.compile specs order = .ok schema)
    (operations : List Operation) :
    let draft := schema.build operations
    (∀ bytes, draft.toBuffer schema.root = .ok bytes ↔
      draft.encode schema.root "" = .ok bytes.toList) ∧
    ((∃ bytes, draft.toBuffer schema.root = .ok bytes) ↔ draft.Complete schema.root) := by
  intro draft
  have valid := valid_of_compile compiled
  have shaped : draft.Shaped schema.root := schema.shaped_build operations
  refine ⟨fun bytes => Draft.toBuffer_eq_ok_iff valid shaped, ?_⟩
  rw [← Draft.exists_encode_iff shaped ""]
  constructor
  · rintro ⟨bytes, written⟩
    exact ⟨bytes.toList, (Draft.toBuffer_eq_ok_iff valid shaped).mp written⟩
  · rintro ⟨chunk, encoded⟩
    exact ⟨chunk.toArray, (Draft.toBuffer_eq_ok_iff valid shaped).mpr encoded⟩

theorem toBuffer_eq_encode_sampleRun :
    Schema.compile samplePacket .big = .ok sampleSchema ∧
      (sampleSchema.build sampleRun).toBuffer sampleSchema.root =
        .ok #[0, 8, 2, 1, 1, 2, 1, 1, 255, 254] := by
  refine ⟨compile_samplePacket, ?_⟩
  exact ((toBuffer_eq_encode compile_samplePacket sampleRun).1 _).mpr (by decide +kernel)

/-- **Writing needs the room that the size says, and touches nothing behind it.** -/
theorem writeTo_exact (compiled : Schema.compile specs order = .ok schema)
    (operations : List Operation) (buffer : Buffer) :
    let draft := schema.build operations
    let needed := draft.size schema.root
    let outcome := (draft.writeTo schema.root buffer).1
    let after := (draft.writeTo schema.root buffer).2
    (buffer.size < needed →
      outcome = .error (.writeFailed needed buffer.size) ∧ after = buffer) ∧
    (needed ≤ buffer.size →
      (∀ missing available, outcome ≠ .error (.writeFailed missing available)) ∧
      (∀ cause, outcome = .error cause ↔ draft.toBuffer schema.root = .error cause) ∧
      (∀ count, outcome = .ok count → count = needed) ∧
      ∀ bytes, draft.toBuffer schema.root = .ok bytes ↔
        outcome = .ok needed ∧ after.take needed = bytes) ∧
    (after.size = buffer.size ∧ ∀ index, needed ≤ index → after[index]? = buffer[index]?) ∧
    ∀ width bytes, schema.width? = some width → draft.toBuffer schema.root = .ok bytes →
      bytes.size = width := by
  intro draft needed outcome after
  have valid := valid_of_compile compiled
  have shaped : draft.Shaped schema.root := schema.shaped_build operations
  refine ⟨fun short => ?_, fun room => ?_, Draft.writeTo_frame valid shaped buffer,
    fun width bytes fixed written => ?_⟩
  · have refused := Draft.writeTo_of_lt short
    exact ⟨congrArg Prod.fst refused, congrArg Prod.snd refused⟩
  · have same := Draft.writeTo_eq_toBuffer valid shaped room
    have enough := Draft.toBuffer_ne_writeFailed valid shaped
    cases written : draft.toBuffer schema.root with
    | error cause =>
        rw [written] at same enough
        have failed : outcome = .error cause := same
        rw [failed]
        refine ⟨fun _ _ lacking => ?_, fun other => ?_, fun _ impossible => ?_, fun bytes => ?_⟩
        · cases lacking
          exact enough _ _ rfl
        · simp
        · cases impossible
        · simp
    | ok bytes =>
        rw [written] at same
        have done : outcome = .ok needed := same.1
        rw [done]
        refine ⟨fun _ _ impossible => ?_, fun cause => ?_, fun count found => ?_, fun other => ?_⟩
        · cases impossible
        · simp
        · exact (Except.ok.inj found).symm
        · rw [show after.take needed = bytes from same.2]
          simp
  · have encoded := (Draft.toBuffer_eq_ok_iff valid shaped).mp written
    rw [← Array.length_toList]
    exact Draft.length_encode_of_width? shaped encoded fixed

theorem writeTo_exact_sampleRun :
    let draft := sampleSchema.build sampleRun
    let wrote := draft.writeTo sampleSchema.root (Array.replicate 12 170)
    Schema.compile samplePacket .big = .ok sampleSchema ∧
      wrote.1 = .ok (draft.size sampleSchema.root) ∧
      wrote.2.take (draft.size sampleSchema.root) = #[0, 8, 2, 1, 1, 2, 1, 1, 255, 254] ∧
      wrote.2[11]? = some 170 := by
  intro draft wrote
  obtain ⟨-, enough, behind, -⟩ :=
    writeTo_exact compile_samplePacket sampleRun (Array.replicate 12 170)
  obtain ⟨-, -, -, written⟩ := enough (by decide +kernel)
  obtain ⟨outcome, front⟩ := (written #[0, 8, 2, 1, 1, 2, 1, 1, 255, 254]).mp (by decide +kernel)
  exact ⟨compile_samplePacket, outcome, front, behind.2 11 (by decide +kernel)⟩

end Schema

end RecordLayout
