/-
**What is written is read back.**

`Draft.value?` is the value that a draft stands for: a word as a number, a word of an enumeration as
its name, the bytes of a mask as its flags, a size as the value of its expression. It is the value
that decoding yields at any place of any buffer that holds the encoding of the draft there.

* `Draft.readsAs_encode`: **the encoding of a draft is a chunk that reads as its value.** The parts of
  the draft are such chunks, and they stand one behind the other.
* `Draft.decode_encode`: decoding an encoding yields the value of the draft, and the value ends
  where the encoding ends.
-/

import RecordLayout.Proofs.Chunk
import RecordLayout.Proofs.Serialize

namespace RecordLayout

/-! ### The value of a draft -/

/-- A number as a value of the format. -/
def IntFormat.number (format : IntFormat) (value : Int) : Value :=
  if format.signed then .signed value else .unsigned (UInt64.ofNat value.toNat)

mutual

/-- The value that a draft stands for, if nothing is missing. -/
def Draft.value? : Layout → Draft → Option Value
  | .int format, .scalar (some word) => some (format.value word)
  | .enum enumeration, .scalar (some word) => do return .enum (← enumeration.nameOf? word)
  | .mask mask, .mask bytes =>
      some (.mask (mask.flags.map fun flag => (flag.name, Mask.stored bytes flag)))
  | .struct fields, .struct members => do
      return .struct (← memberValues ⟨fields, members⟩ (memberSizes fields members) fields members)
  | .array element _, .array elements => do return .array (← elementValues element elements)
  | .view _ variants, .view (some (index, payload)) => do
      match variants[index]? with
      | some variant => return .view variant.key variant.name (← payload.value? variant.layout)
      | none => none
  | .constant _ value, .computed => some (.unsigned value)
  | _, _ => none

/-- The values of the members of a struct, given the sizes of all. A size field has the value of its
expression. -/
def memberValues (scope : Scope) (sizes : List Nat) :
    List Field → List Draft → Option (List (String × Value))
  | ⟨name, layout⟩ :: fields, member :: members => do
      let value ← match layout with
        | .derived format expr =>
            (expr.evaluate (scope.quantityBy sizes)).toOption.map format.number
        | layout => member.value? layout
      return (name, value) :: (← memberValues scope sizes fields members)
  | _, _ => some []

/-- The values of the elements of an array. -/
def elementValues (element : Layout) : List Draft → Option (List Value)
  | [] => some []
  | draft :: rest => do return (← draft.value? element) :: (← elementValues element rest)

end

/-! ### Words and numbers -/

/-- The word of a number that fits has the value of the number. -/
theorem IntFormat.value_toWord {format : IntFormat} {value : Int}
    (fits : format.fits value = true) :
    format.value (format.toWord value) = format.number value := by
  unfold IntFormat.value IntFormat.number
  split
  · rw [ofWord_toWord fits]
  · rename_i unsigned
    have same := ofWord_toWord fits
    rw [IntFormat.ofWord, if_neg unsigned] at same
    rw [show value.toNat = (format.toWord value).toNat by omega, UInt64.ofNat_toNat]

/-- A word with a name is within the width of its enumeration. -/
theorem Enumeration.Valid.lt_of_nameOf? {enumeration : Enumeration} {word : UInt64} {name : String}
    (valid : enumeration.Valid) (known : enumeration.nameOf? word = some name) :
    word.toNat < 2 ^ enumeration.format.width.bits :=
  IntFormat.lt_of_fits (valid.fits _ (mem_of_nameOf? known))

/-! ### Parts are read back -/

namespace Scope

variable {scope : Scope} {sizes : List Nat} {field : Field} {member : Draft}

/-- The value of a member, given the sizes of all. -/
def memberValue? (scope : Scope) (sizes : List Nat) (field : Field) (member : Draft) :
    Option Value :=
  match field.layout with
  | .derived format expr => (expr.evaluate (scope.quantityBy sizes)).toOption.map format.number
  | layout => member.value? layout

/-- **What is written for a member** reads as its value, if its own encoding does. -/
theorem readsAs_encodeMember {chunk : Bytes}
    (encoded : scope.encodeMember sizes field member = .ok chunk)
    (inner : member.encode field.layout field.name = .ok chunk →
      ∃ value, member.value? field.layout = some value ∧
        field.layout.ReadsAs field.name chunk value) :
    ∃ value, scope.memberValue? sizes field member = some value ∧
      field.layout.ReadsAs field.name chunk value := by
  obtain ⟨name, layout⟩ := field
  cases layout with
  | derived format expr =>
      simp only [encodeMember, encodeSize, bind_eq_ok_iff, pure_eq_ok_iff,
        evaluateBy_eq_ok_iff] at encoded
      obtain ⟨number, ⟨evaluated, fits⟩, rfl⟩ := encoded
      have reads := IntFormat.readsAs_encode (format.toWord_lt number)
      refine ⟨format.number number, ?_, .word reads rfl fun data offset read => ?_⟩
      · simp only [memberValue?, evaluated]
        rfl
      · rw [Layout.decode, read]
        exact congrArg Except.ok (IntFormat.value_toWord fits)
  | _ => exact inner encoded

end Scope

theorem memberValues_cons (scope : Scope) (sizes : List Nat) (field : Field) (fields : List Field)
    (member : Draft) (members : List Draft) :
    memberValues scope sizes (field :: fields) (member :: members) = do
      let value ← scope.memberValue? sizes field member
      return (field.name, value) :: (← memberValues scope sizes fields members) := by
  obtain ⟨name, layout⟩ := field
  cases layout <;> rfl

/-- **The members of a struct are read back.** -/
theorem exists_memberParts {scope : Scope} {sizes : List Nat} {fields : List Field}
    {members : List Draft} {chunks : List Bytes} (whole : members.length = fields.length)
    (pieces : List.Forall₂ (fun pair chunk => scope.encodeMember sizes pair.1 pair.2 = .ok chunk)
      (fields.zip members) chunks)
    (inner : ∀ pair ∈ fields.zip members, ∀ chunk,
      pair.2.encode pair.1.layout pair.1.name = .ok chunk →
      ∃ value, pair.2.value? pair.1.layout = some value ∧
        pair.1.layout.ReadsAs pair.1.name chunk value) :
    ∃ parts, parts.map Prod.fst = chunks ∧ FieldsReadAs fields parts ∧
      memberValues scope sizes fields members = some (membersOf fields parts) := by
  induction fields generalizing members chunks with
  | nil =>
      cases pieces
      exact ⟨[], rfl, .nil, by cases members <;> rfl⟩
  | cons field fields ih =>
      cases members with
      | nil => cases whole
      | cons member members =>
          rw [List.zip_cons_cons] at pieces inner
          rw [List.forall_mem_cons] at inner
          obtain _ | ⟨piece, pieces⟩ := pieces
          rename_i chunk chunks
          obtain ⟨value, known, reads⟩ := Scope.readsAs_encodeMember piece (inner.1 chunk)
          obtain ⟨parts, rfl, each, others⟩ := ih (Nat.succ.inj whole) pieces inner.2
          refine ⟨(chunk, value) :: parts, rfl, .cons reads each, ?_⟩
          rw [memberValues_cons, known, others]
          rfl

/-- **The elements of an array are read back.** -/
theorem exists_elementParts {element : Layout} {name : String} {elements : List Draft}
    {chunks : List Bytes}
    (pieces : List.Forall₂ (fun draft chunk => draft.encode element name = .ok chunk)
      elements chunks)
    (inner : ∀ draft ∈ elements, ∀ chunk, draft.encode element name = .ok chunk →
      ∃ value, draft.value? element = some value ∧ element.ReadsAs name chunk value) :
    ∃ parts : List (Bytes × Value), parts.map Prod.fst = chunks ∧
      (∀ part ∈ parts, element.ReadsAs name part.1 part.2) ∧
      elementValues element elements = some (parts.map Prod.snd) := by
  induction pieces with
  | nil => exact ⟨[], rfl, by simp, rfl⟩
  | @cons draft chunk rest chunks piece _ ih =>
      rw [List.forall_mem_cons] at inner
      obtain ⟨value, known, reads⟩ := inner.1 chunk piece
      obtain ⟨parts, rfl, each, others⟩ := ih inner.2
      refine ⟨(chunk, value) :: parts, rfl, List.forall_mem_cons.mpr ⟨reads, each⟩, ?_⟩
      rw [elementValues, known, others]
      rfl

/-- The count of an array is read back. -/
theorem ArrayLength.countsAs_encodeCount {length : ArrayLength IntFormat} {count : Nat}
    (valid : length.Valid) (allowed : length.Allows count) :
    length.CountsAs (length.encodeCount count) count := by
  cases length with
  | fixed number =>
      rw [show count = number.toNat from allowed]
      exact countsAs_fixed number
  | bounded capacity counter =>
      have bounded : count ≤ capacity.toNat := allowed
      have word : (UInt64.ofNat count).toNat = count := by
        have limit := capacity.toNat_lt
        rw [UInt64.toNat_ofNat', Nat.mod_eq_of_lt (by omega)]
      have fits : (UInt64.ofNat count).toNat < 2 ^ counter.width.bits := by
        rw [word]
        exact Nat.lt_of_le_of_lt bounded (IntFormat.lt_of_fits valid)
      have within : ¬capacity < UInt64.ofNat count := by
        rw [UInt64.lt_iff_toNat_lt, word]
        omega
      have counts := countsAs_bounded (IntFormat.readsAs_encode fits) within
      rw [word] at counts
      exact counts

/-- The key that is written for a variant selects it. -/
theorem Layout.Valid.key {key : IntFormat} {variants : List Variant} {variant : Variant}
    (valid : (Layout.view key variants).Valid) (member : variant ∈ variants) :
    key.ReadsAs (key.encode variant.key) variant.key ∧
      variants.find? (·.key == variant.key) = some variant := by
  cases valid with
  | view names keys fits payloads =>
      exact ⟨IntFormat.readsAs_encode (IntFormat.lt_of_fits (fits variant member)),
        find?_of_nodup keys member⟩

/-! ### Whole drafts are read back -/

/-- **The encoding of a draft reads as its value**, wherever it stands. -/
theorem Draft.readsAs_encode {layout : Layout} {draft : Draft} {name : String} {chunk : Bytes}
    (valid : layout.Valid) (shaped : draft.Shaped layout)
    (encoded : draft.encode layout name = .ok chunk) :
    ∃ value, draft.value? layout = some value ∧ layout.ReadsAs name chunk value := by
  induction shaped generalizing name chunk with
  | @int format stored fits =>
      cases stored with
      | none => cases encoded
      | some word =>
          cases encoded
          have reads := IntFormat.readsAs_encode (fits word rfl)
          refine ⟨format.value word, rfl, .word reads rfl fun data offset read => ?_⟩
          rw [Layout.decode, read]
          rfl
  | @enum enumeration stored named =>
      cases valid with
      | enum variants =>
          cases stored with
          | none => cases encoded
          | some word =>
              cases encoded
              obtain ⟨label, known⟩ := named word rfl
              have reads := IntFormat.readsAs_encode (variants.lt_of_nameOf? known)
              refine ⟨.enum label, ?_, .word reads rfl fun data offset read => ?_⟩
              · rw [Draft.value?, known]
                rfl
              · rw [Layout.decode, Enumeration.read, read, ok_bind, known]
                rfl
  | @mask mask bytes whole =>
      cases encoded
      refine ⟨_, rfl, fun data offset small held => ⟨?_, ?_⟩⟩
      · have found := held.slice
        rw [whole] at found
        rw [Layout.decode, Mask.readAll, Mask.readBytes, found]
        rfl
      · exact held.behind small (by rw [whole]; rfl)
  | @struct fields members whole each ih =>
      cases valid with
      | struct names references layouts =>
          obtain ⟨chunks, pieces, rfl⟩ := (encode_struct_eq_ok_iff each).mp encoded
          obtain ⟨parts, rfl, reads, known⟩ := exists_memberParts whole pieces
            fun pair inside chunk encoded =>
              ih pair inside (layouts _ (List.of_mem_zip inside).1) encoded
          refine ⟨.struct (membersOf fields parts), ?_, reads.struct name⟩
          rw [Draft.value?, known]
          rfl
  | @array element length elements counted each ih =>
      cases valid with
      | array counts inner =>
          simp only [Draft.encode, encodeElements_eq_mapM, bind_eq_ok_iff, pure_eq_ok_iff,
            mapM_eq_ok_iff] at encoded
          obtain ⟨chunks, pieces, rfl⟩ := encoded
          have same := pieces.length_eq
          obtain ⟨parts, rfl, reads, known⟩ := exists_elementParts pieces
            fun draft inside chunk encoded => ih draft inside inner encoded
          rw [List.length_map] at same
          have front := ArrayLength.countsAs_encodeCount counts counted
          refine ⟨.array (parts.map Prod.snd), ?_, .array (same ▸ front) reads⟩
          rw [Draft.value?, known]
          rfl
  | unselected => cases encoded
  | @view key variants index variant payload selected inside ih =>
      simp only [Draft.encode, selected, bind_eq_ok_iff, pure_eq_ok_iff] at encoded
      obtain ⟨rest, piece, rfl⟩ := encoded
      have member := List.mem_of_getElem? selected
      obtain ⟨value, known, reads⟩ := ih (valid.payload member) piece
      obtain ⟨front, found⟩ := valid.key member
      refine ⟨.view variant.key variant.name value, ?_, .view front found reads⟩
      simp only [Draft.value?, selected, known]
      rfl
  | @constant format value =>
      cases valid with
      | constant fits =>
          cases encoded
          have reads := IntFormat.readsAs_encode (IntFormat.lt_of_fits fits)
          refine ⟨.unsigned value, rfl, .word reads rfl fun data offset read => ?_⟩
          rw [Layout.decode, read]
          rfl
  | derived => cases encoded

/-- **Decoding an encoding yields the value of the draft**, and the value ends where the encoding
ends. -/
theorem Draft.decode_encode {data : Buffer} {layout : Layout} {draft : Draft} {name : String}
    {chunk : Bytes} {offset : Nat} (small : data.size < Address.limit) (valid : layout.Valid)
    (shaped : draft.Shaped layout) (encoded : draft.encode layout name = .ok chunk)
    (held : Holds data offset chunk) :
    ∃ value, draft.value? layout = some value ∧
      Reads data layout name offset chunk.length value := by
  obtain ⟨value, known, reads⟩ := readsAs_encode valid shaped encoded
  exact ⟨value, known, reads data offset small held⟩

end RecordLayout
