/-
**The bytes of a draft, without a buffer.**

`Draft.encode` gives the bytes of a draft in one go. A struct is the concatenation of its members,
an array its count and its elements, a view the key and the payload. A derived size is the encoding
of its expression, in which the measure of a range of members is the sum of the lengths of their
encodings; the length of a size that measures a range is that of its format, so the lengths
(`memberLengths`) come before the bytes (`encodeMembers`). There are no positions, no gaps and
nothing is written twice.

A draft that cannot be encoded has a reason: the leaf or view that is not set, the size that does
not fit.

* `Draft.length_encode`: the encoding has the length that `Draft.size` computes.
* `Draft.length_encode_of_width?`: a layout of fixed width has encodings of that width.
* `Draft.encode_ne_writeFailed`: the reason is never a lack of room.
-/

import RecordLayout.Draft.Write
import RecordLayout.Proofs.DraftShape
import RecordLayout.Proofs.Walk

namespace RecordLayout

/-! ### The encoder -/

/-- The bytes in front of the elements of an array. -/
def ArrayLength.encodeCount : ArrayLength IntFormat → Nat → Bytes
  | .fixed _, _ => []
  | .bounded _ counter, count => counter.encode (UInt64.ofNat count)

/-- The sum of the lengths from index `first` to index `last`. -/
def rangeLength (lengths : List Nat) (first last : Nat) : Nat :=
  ((lengths.take (last + 1)).drop first).sum

namespace Scope

/-- A quantity of a size expression, by the lengths of the encoded members. -/
def quantityBy (scope : Scope) (lengths : List Nat) : Operand Nat → Except WriteError Int
  | .const value => .ok value.toNat
  | .valueOf index => scope.valueOf index
  | .countOf index => .ok (scope.countOf index)
  | .sizeOf first last => .ok (rangeLength lengths first last)

/-- The value of the size field `name`, which must fit its format. -/
def evaluateBy (scope : Scope) (lengths : List Nat) (name : String) (format : IntFormat)
    (expr : SizeExpr Nat) : Except WriteError Int := do
  let value ← expr.evaluate (scope.quantityBy lengths)
  if !format.fits value then throw (.overflow name value format.min format.max)
  return value

/-- The bytes of the size field `name`. -/
def encodeSize (scope : Scope) (lengths : List Nat) (name : String) (format : IntFormat)
    (expr : SizeExpr Nat) : Except WriteError Bytes := do
  return format.encode (format.toWord (← scope.evaluateBy lengths name format expr))

end Scope

mutual

/-- The bytes of the draft of the field `name`. -/
def Draft.encode : Layout → (name : String) → Draft → Except WriteError Bytes
  | .int format, _, .scalar (some word) => .ok (format.encode word)
  | .enum enumeration, _, .scalar (some word) => .ok (enumeration.format.encode word)
  | .mask _, _, .mask bytes => .ok bytes
  | .struct fields, _, .struct members => do
      let lengths ← memberLengths ⟨fields, members⟩ fields members
      return (← encodeMembers ⟨fields, members⟩ lengths fields members).flatten
  | .array element length, name, .array elements => do
      return length.encodeCount elements.length ++ (← encodeElements element name elements).flatten
  | .view key variants, name, .view (some (index, payload)) =>
      match variants[index]? with
      | some variant => do
          return key.encode variant.key ++ (← payload.encode variant.layout variant.name)
      | none => .error (.notSet name)
  | .constant format value, _, .computed => .ok (format.encode value)
  | _, name, _ => .error (.notSet name)

/-- The lengths of the encoded members of a struct. A size that measures a range has its length
before it has a value. -/
def memberLengths (scope : Scope) : List Field → List Draft → Except WriteError (List Nat)
  | ⟨name, layout⟩ :: fields, member :: members => do
      let length ← match layout with
        | .derived format expr =>
            if expr.isMeasured then .ok format.bytes
            else (scope.encodeSize [] name format expr).map (·.length)
        | layout => (member.encode layout name).map (·.length)
      return length :: (← memberLengths scope fields members)
  | _, _ => .ok []

/-- The encoded members of a struct, given their lengths. -/
def encodeMembers (scope : Scope) (lengths : List Nat) :
    List Field → List Draft → Except WriteError (List Bytes)
  | ⟨name, layout⟩ :: fields, member :: members => do
      let chunk ← match layout with
        | .derived format expr => scope.encodeSize lengths name format expr
        | layout => member.encode layout name
      return chunk :: (← encodeMembers scope lengths fields members)
  | _, _ => .ok []

/-- The encoded elements of the array `name`. -/
def encodeElements (element : Layout) (name : String) :
    List Draft → Except WriteError (List Bytes)
  | [] => .ok []
  | draft :: rest => do
      return (← draft.encode element name) :: (← encodeElements element name rest)

end

namespace Scope

/-- What stands for a member while the sizes that measure a range are unknown: blank bytes for such
a size, and the encoding of everything else. -/
def part (scope : Scope) (field : Field) (member : Draft) : Except WriteError Bytes :=
  match field.layout with
  | .derived format expr =>
      if expr.isMeasured then .ok (List.replicate format.bytes 0)
      else scope.encodeSize [] field.name format expr
  | layout => member.encode layout field.name

/-- One encoded member, given the lengths of all. -/
def encodeMember (scope : Scope) (lengths : List Nat) (field : Field) (member : Draft) :
    Except WriteError Bytes :=
  match field.layout with
  | .derived format expr => scope.encodeSize lengths field.name format expr
  | layout => member.encode layout field.name

end Scope

/-! ### The recursion goes through the members and elements one by one -/

theorem memberLengths_eq_mapM (scope : Scope) (fields : List Field) (members : List Draft) :
    memberLengths scope fields members = do
      let parts ← (fields.zip members).mapM fun pair => scope.part pair.1 pair.2
      return parts.map List.length := by
  induction fields generalizing members with
  | nil => cases members <;> rfl
  | cons field fields ih =>
      obtain ⟨name, layout⟩ := field
      cases members with
      | nil => rfl
      | cons member members =>
          have step : memberLengths scope (⟨name, layout⟩ :: fields) (member :: members) = do
              let part ← scope.part ⟨name, layout⟩ member
              return part.length :: (← memberLengths scope fields members) := by
            cases layout with
            | derived format expr =>
                simp only [memberLengths, Scope.part]
                split
                · show (do return format.bytes :: (← memberLengths scope fields members)) =
                    do return (List.replicate format.bytes (0 : UInt8)).length ::
                      (← memberLengths scope fields members)
                  rw [List.length_replicate]
                · cases scope.encodeSize [] name format expr <;> rfl
            | _ =>
                simp only [memberLengths, Scope.part]
                cases member.encode _ name <;> rfl
          rw [step, ih, List.zip_cons_cons, List.mapM_cons]
          simp only [bind_assoc, pure_bind, List.map_cons]

theorem encodeMembers_eq_mapM (scope : Scope) (lengths : List Nat) (fields : List Field)
    (members : List Draft) :
    encodeMembers scope lengths fields members =
      (fields.zip members).mapM fun pair => scope.encodeMember lengths pair.1 pair.2 := by
  induction fields generalizing members with
  | nil => cases members <;> rfl
  | cons field fields ih =>
      obtain ⟨name, layout⟩ := field
      cases members with
      | nil => rfl
      | cons member members =>
          rw [List.zip_cons_cons, List.mapM_cons, ← ih]
          cases layout <;> rfl

/-- **A struct is encoded in two passes**: the parts give the lengths, the lengths the members. -/
theorem Draft.encode_struct (fields : List Field) (name : String) (members : List Draft) :
    Draft.encode (.struct fields) name (.struct members) = do
      let parts ← (fields.zip members).mapM fun pair => Scope.part ⟨fields, members⟩ pair.1 pair.2
      let chunks ← (fields.zip members).mapM fun pair =>
        Scope.encodeMember ⟨fields, members⟩ (parts.map List.length) pair.1 pair.2
      return chunks.flatten := by
  rw [Draft.encode, memberLengths_eq_mapM, bind_assoc]
  simp only [pure_bind, encodeMembers_eq_mapM]

theorem encodeElements_eq_mapM (element : Layout) (name : String) (elements : List Draft) :
    encodeElements element name elements = elements.mapM (·.encode element name) := by
  induction elements with
  | nil => rfl
  | cons draft rest ih => rw [encodeElements, ih, List.mapM_cons]

theorem membersSize_eq_sum (fields : List Field) (members : List Draft) :
    membersSize fields members =
      ((fields.zip members).map fun pair => pair.2.size pair.1.layout).sum := by
  induction fields generalizing members with
  | nil => cases members <;> rfl
  | cons field fields ih =>
      obtain ⟨name, layout⟩ := field
      cases members with
      | nil => rfl
      | cons member members =>
          rw [membersSize, ih, List.zip_cons_cons, List.map_cons, List.sum_cons]

theorem elementsSize_eq_sum (element : Layout) (elements : List Draft) :
    elementsSize element elements = (elements.map (·.size element)).sum := by
  induction elements with
  | nil => rfl
  | cons draft rest ih => rw [elementsSize, ih, List.map_cons, List.sum_cons]

/-! ### Lengths -/

/-- The lengths before a range and those in it make up the lengths up to its end. -/
theorem sum_take_add_rangeLength {lengths : List Nat} {first last : Nat} (forward : first ≤ last) :
    (lengths.take first).sum + rangeLength lengths first last =
      (lengths.take (last + 1)).sum := by
  have cut : (lengths.take (last + 1)).take first = lengths.take first := by
    rw [List.take_take, Nat.min_eq_left (by omega)]
  rw [rangeLength, ← cut, ← List.sum_append, List.take_append_drop]

/-- Chunks of known lengths make a string of known length. -/
theorem length_flatten_of_forall₂ {α : Type} {encodes : α → Bytes → Prop} {entries : List α}
    {chunks : List Bytes} {size : α → Nat} (each : List.Forall₂ encodes entries chunks)
    (sized : ∀ entry ∈ entries, ∀ chunk, encodes entry chunk → chunk.length = size entry) :
    chunks.flatten.length = (entries.map size).sum := by
  rw [List.length_flatten, map_eq_of_forall₂ each sized]

theorem ArrayLength.length_encodeCount (length : ArrayLength IntFormat) (count : Nat) :
    (length.encodeCount count).length = length.counterWidth := by
  cases length with
  | fixed _ => rfl
  | bounded _ counter => exact counter.length_encode _

theorem Scope.length_encodeSize {scope : Scope} {lengths : List Nat} {name : String}
    {format : IntFormat} {expr : SizeExpr Nat} {chunk : Bytes}
    (encoded : scope.encodeSize lengths name format expr = .ok chunk) :
    chunk.length = format.bytes := by
  simp only [Scope.encodeSize, bind_eq_ok_iff, pure_eq_ok_iff] at encoded
  obtain ⟨value, -, rfl⟩ := encoded
  exact format.length_encode _

/-- A member encodes as a size field or as a value of its layout. -/
theorem Scope.encodeMember_eq_ok {scope : Scope} {lengths : List Nat} {field : Field}
    {member : Draft} {chunk : Bytes}
    (encoded : scope.encodeMember lengths field member = .ok chunk) :
    (∃ format expr, field.layout = .derived format expr ∧
        scope.encodeSize lengths field.name format expr = .ok chunk) ∨
      member.encode field.layout field.name = .ok chunk := by
  unfold Scope.encodeMember at encoded
  split at encoded
  · rename_i format expr derived
    exact .inl ⟨format, expr, derived, encoded⟩
  · exact .inr encoded

/-- **The encoding has the length that the size of the draft says.** -/
theorem Draft.length_encode {layout : Layout} {draft : Draft} {name : String} {chunk : Bytes}
    (shaped : draft.Shaped layout) (encoded : draft.encode layout name = .ok chunk) :
    chunk.length = draft.size layout := by
  induction shaped generalizing name chunk with
  | @int format stored _ =>
      cases stored with
      | none => cases encoded
      | some word =>
          cases encoded
          exact format.length_encode word
  | @enum enumeration stored _ =>
      cases stored with
      | none => cases encoded
      | some word =>
          cases encoded
          exact enumeration.format.length_encode word
  | mask whole =>
      cases encoded
      exact whole
  | @struct fields members whole each ih =>
      simp only [Draft.encode_struct, bind_eq_ok_iff, pure_eq_ok_iff, mapM_eq_ok_iff] at encoded
      obtain ⟨parts, -, chunks, pieces, rfl⟩ := encoded
      rw [Draft.size, membersSize_eq_sum]
      refine length_flatten_of_forall₂ pieces fun ⟨field, member⟩ inside chunk piece => ?_
      obtain ⟨format, expr, derived, size⟩ | value := Scope.encodeMember_eq_ok piece
      · have computed : member.Shaped field.layout := each _ inside
        show chunk.length = member.size field.layout
        rw [derived] at computed ⊢
        cases computed
        exact Scope.length_encodeSize size
      · exact ih _ inside value
  | @array element length elements counted each ih =>
      simp only [Draft.encode, bind_eq_ok_iff, pure_eq_ok_iff, encodeElements_eq_mapM,
        mapM_eq_ok_iff] at encoded
      obtain ⟨chunks, pieces, rfl⟩ := encoded
      rw [List.length_append, ArrayLength.length_encodeCount, Draft.size, elementsSize_eq_sum,
        length_flatten_of_forall₂ pieces fun draft inside chunk piece => ih draft inside piece]
  | unselected => cases encoded
  | @view key variants index variant payload selected inside ih =>
      simp only [Draft.encode, selected, bind_eq_ok_iff, pure_eq_ok_iff] at encoded
      obtain ⟨rest, piece, rfl⟩ := encoded
      rw [List.length_append, key.length_encode, ih piece, Draft.size, selected]
  | @constant format value =>
      cases encoded
      exact format.length_encode value
  | derived => cases encoded

/-! ### Fixed widths -/

/-- Chunks of fixed widths make a string of the total width. -/
theorem length_flatten_of_totalWidth? {α : Type} {encodes : α → Bytes → Prop}
    {width? : α → Option Nat} {entries : List α} {chunks : List Bytes} {total : Nat}
    (each : List.Forall₂ encodes entries chunks)
    (sized : ∀ entry ∈ entries, ∀ chunk width, encodes entry chunk → width? entry = some width →
      chunk.length = width)
    (fixed : totalWidth? (entries.map width?) = some total) : chunks.flatten.length = total := by
  induction each generalizing total with
  | nil =>
      cases fixed
      rfl
  | @cons entry chunk _ _ head _ ih =>
      rw [List.forall_mem_cons] at sized
      simp only [List.map_cons, totalWidth?, List.foldr_cons, Option.bind_eq_bind,
        Option.bind_eq_some_iff, Option.pure_def, Option.some.injEq] at fixed
      obtain ⟨width, found, others, rest, rfl⟩ := fixed
      rw [List.flatten_cons, List.length_append, sized.1 _ _ head found, ih sized.2 rest]

/-- **A layout of fixed width has encodings of that width.** -/
theorem Draft.length_encode_of_width? {layout : Layout} {draft : Draft} {name : String}
    {chunk : Bytes} {width : Nat} (shaped : draft.Shaped layout)
    (encoded : draft.encode layout name = .ok chunk) (fixed : layout.width? = some width) :
    chunk.length = width := by
  induction shaped generalizing name chunk width with
  | int held =>
      rw [Draft.length_encode (.int held) encoded]
      exact Option.some.inj fixed
  | enum named =>
      rw [Draft.length_encode (.enum named) encoded]
      exact Option.some.inj fixed
  | mask whole =>
      rw [Draft.length_encode (.mask whole) encoded]
      exact Option.some.inj fixed
  | @struct fields members whole each ih =>
      simp only [Draft.encode_struct, bind_eq_ok_iff, pure_eq_ok_iff, mapM_eq_ok_iff] at encoded
      obtain ⟨parts, -, chunks, pieces, rfl⟩ := encoded
      have widths : fieldWidths fields =
          (fields.zip members).map fun pair => pair.1.layout.width? := by
        rw [fieldWidths_eq_map]
        conv_lhs => rw [← List.map_fst_zip (Nat.le_of_eq whole.symm), List.map_map]
        rfl
      rw [Layout.width?, widths] at fixed
      refine length_flatten_of_totalWidth? pieces
        (fun ⟨field, member⟩ inside chunk width piece => ?_) fixed
      obtain ⟨format, expr, derived, size⟩ | value := Scope.encodeMember_eq_ok piece
      · intro known
        have known : field.layout.width? = some width := known
        rw [derived] at known
        exact (Scope.length_encodeSize size).trans (Option.some.inj known)
      · exact ih _ inside value
  | @array element length elements counted each ih =>
      cases length with
      | bounded _ _ => cases fixed
      | fixed count =>
          simp only [Draft.encode, bind_eq_ok_iff, pure_eq_ok_iff, encodeElements_eq_mapM,
            mapM_eq_ok_iff] at encoded
          obtain ⟨chunks, pieces, rfl⟩ := encoded
          obtain ⟨single, known, rfl⟩ := Option.map_eq_some_iff.mp fixed
          rw [List.length_append, ArrayLength.length_encodeCount,
            length_flatten_of_forall₂ pieces fun draft inside chunk piece =>
              ih draft inside piece known]
          rw [List.map_const', List.sum_replicate_nat, Nat.mul_comm, ← counted]
          exact Nat.zero_add _
  | unselected => cases encoded
  | @view key variants index variant payload selected inside ih =>
      simp only [Draft.encode, selected, bind_eq_ok_iff, pure_eq_ok_iff] at encoded
      obtain ⟨rest, piece, rfl⟩ := encoded
      obtain ⟨common, known, rfl⟩ := Option.map_eq_some_iff.mp fixed
      rw [variantWidths_eq_map] at known
      have payloadWidth : variant.layout.width? = some common :=
        commonWidth?_eq_some known _ (List.mem_map_of_mem (List.mem_of_getElem? selected))
      rw [List.length_append, key.length_encode, ih piece payloadWidth]
  | constant =>
      rw [Draft.length_encode .constant encoded]
      exact Option.some.inj fixed
  | derived => cases encoded

/-! ### The reasons of a failure -/

theorem SizeExpr.exists_of_evaluate_eq_error {quantity : Operand Nat → Except WriteError Int}
    {expr : SizeExpr Nat} {cause : WriteError} (failed : expr.evaluate quantity = .error cause) :
    ∃ term ∈ expr, quantity term.operand = .error cause := by
  have fold : ∀ (terms : SizeExpr Nat) (total : Int),
      terms.foldlM (fun total term => do
        let value ← quantity term.operand
        return if term.negate then total - value else total + value) total = .error cause →
      ∃ term ∈ terms, quantity term.operand = .error cause := by
    intro terms
    induction terms with
    | nil =>
        intro total failed
        cases failed
    | cons term rest ih =>
        intro total failed
        rw [List.foldlM_cons] at failed
        simp only [bind_eq_error_iff, bind_eq_ok_iff] at failed
        obtain (first | ⟨_, -, impossible⟩) | ⟨next, -, later⟩ := failed
        · exact ⟨term, List.mem_cons_self, first⟩
        · cases impossible
        · obtain ⟨other, inside, found⟩ := ih next later
          exact ⟨other, List.mem_cons_of_mem _ inside, found⟩
  exact fold expr 0 failed

theorem Scope.encodeSize_ne_writeFailed (scope : Scope) (lengths : List Nat) (name : String)
    (format : IntFormat) (expr : SizeExpr Nat) (needed available : Nat) :
    scope.encodeSize lengths name format expr ≠ .error (.writeFailed needed available) := by
  intro failed
  simp only [Scope.encodeSize, Scope.evaluateBy, bind_eq_error_iff] at failed
  obtain (unresolved | ⟨value, -, misfit⟩) | ⟨_, -, impossible⟩ := failed
  · obtain ⟨⟨negate, operand⟩, -, failed⟩ := SizeExpr.exists_of_evaluate_eq_error unresolved
    cases operand with
    | valueOf index =>
        simp only [Scope.quantityBy, Scope.valueOf] at failed
        split at failed
        · split at failed <;> cases failed
        · cases failed
    | _ => cases failed
  · split at misfit <;> cases misfit
  · cases impossible

/-- **The reason is never a lack of room.** -/
theorem Draft.encode_ne_writeFailed {layout : Layout} {draft : Draft} (shaped : draft.Shaped layout)
    (name : String) (needed available : Nat) :
    draft.encode layout name ≠ .error (.writeFailed needed available) := by
  intro failed
  induction shaped generalizing name with
  | @int _ stored _ | @enum _ stored _ => cases stored <;> cases failed
  | mask _ | unselected | constant | derived => cases failed
  | @struct fields members whole each ih =>
      simp only [Draft.encode_struct, bind_eq_error_iff] at failed
      obtain parts | ⟨lengths, -, chunks | ⟨_, -, impossible⟩⟩ := failed
      · obtain ⟨⟨field, member⟩, inside, failed⟩ := exists_of_mapM_eq_error parts
        unfold Scope.part at failed
        split at failed
        · split at failed
          · cases failed
          · exact Scope.encodeSize_ne_writeFailed _ _ _ _ _ _ _ failed
        · exact ih _ inside _ failed
      · obtain ⟨⟨field, member⟩, inside, failed⟩ := exists_of_mapM_eq_error chunks
        unfold Scope.encodeMember at failed
        split at failed
        · exact Scope.encodeSize_ne_writeFailed _ _ _ _ _ _ _ failed
        · exact ih _ inside _ failed
      · cases impossible
  | @array element length elements counted each ih =>
      simp only [Draft.encode, bind_eq_error_iff, encodeElements_eq_mapM] at failed
      obtain chunks | ⟨_, -, impossible⟩ := failed
      · obtain ⟨draft, inside, failed⟩ := exists_of_mapM_eq_error chunks
        exact ih draft inside name failed
      · cases impossible
  | @view key variants index variant payload selected inside ih =>
      simp only [Draft.encode, selected, bind_eq_error_iff] at failed
      obtain failed | ⟨_, -, impossible⟩ := failed
      · exact ih variant.name failed
      · cases impossible

end RecordLayout
