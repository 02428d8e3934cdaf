/-
**Sizes say what the record holds.**

A size field of a written record decodes to the signed sum that its expression describes, with every
quantity taken from the record itself: the value of a sibling as it is read, the number of elements
that is stored, the distance between the ends of two members as a walk finds them. This holds of
every struct that a path of a reader leads to, at any depth.

* `Reader.Measures`: a quantity of an expression, as a reader of the struct finds it.
* `Reader.StandsAt`: the reader stands at the encoding of a draft. A step leads from there to the
  encoding of a part, or to a size field (`Reader.Written.step`), and so does a whole path.
* `Reader.Spells`: the members of a struct, one behind the other in the buffer. Every member is found
  where it was written (`Spells.member`, `Spells.span`), so what the encoder took for a quantity is
  what the reader finds (`Spells.measures`).
* `Reader.Lists`: the elements of an array, in the same way (`Lists.element_eq`), and
  `Reader.StandsAt.selects` for the payload of a view.
* `Schema.sizes_consistent`: the sizes of a whole record.
-/

import RecordLayout.Proofs.RoundTrip
import RecordLayout.Proofs.WellFormed

namespace RecordLayout

/-- The members of a struct are as long as their drafts say. -/
theorem Scope.length_encodeMember {scope : Scope} {sizes : List Nat} {field : Field}
    {member : Draft} {chunk : Bytes} (shaped : member.Shaped field.layout)
    (encoded : scope.encodeMember sizes field member = .ok chunk) :
    chunk.length = member.size field.layout := by
  obtain ⟨format, expr, derived, size⟩ | value := Scope.encodeMember_eq_ok encoded
  · rw [derived] at shaped ⊢
    cases shaped
    exact Scope.length_encodeSize size
  · exact Draft.length_encode shaped value

namespace Reader

/-- The quantity of an operand, as a reader of the struct with members `fields` finds it. -/
def Measures (reader : Reader) (fields : List Field) : Operand Nat → Int → Prop
  | .const value, quantity => quantity = value.toNat
  | .valueOf index, quantity => ∃ field member, fields[index]? = some field ∧
      reader.field field.name = .ok member ∧ member.number = .ok quantity
  | .countOf index, quantity => ∃ field member count, fields[index]? = some field ∧
      reader.field field.name = .ok member ∧ member.count = .ok count ∧ quantity = count
  | .sizeOf first last, quantity => ∃ start stop front back, fields[first]? = some start ∧
      fields[last]? = some stop ∧ reader.span start.name = .ok front ∧
      reader.span stop.name = .ok back ∧ quantity = (back.2 : Int) - front.1

/-! ### Readers of what was written -/

/-- The reader stands at the encoding `chunk` of the draft. -/
structure StandsAt (reader : Reader) (draft : Draft) (chunk : Bytes) : Prop where
  shaped : draft.Shaped reader.layout
  encoded : draft.encode reader.layout reader.name = .ok chunk
  held : Holds reader.data reader.offset chunk

/-- The reader stands at the encoding of a draft, or at a size field, which has no draft. -/
inductive Written (reader : Reader) : Prop where
  | value {draft : Draft} {chunk : Bytes} (stands : reader.StandsAt draft chunk)
  | size {format : IntFormat} {expr : SizeExpr Nat} (derived : reader.layout = .derived format expr)

variable {reader next : Reader} {draft : Draft} {chunk : Bytes}

/-- The number that a draft holds is the number that is read. -/
theorem StandsAt.number {value : Int} (stands : reader.StandsAt draft chunk)
    (valid : reader.layout.Valid) (known : draft.number? reader.layout = some value) :
    reader.number = .ok value := by
  obtain ⟨data, name, layout, offset⟩ := reader
  obtain ⟨shaped, encoded, held⟩ := stands
  cases shaped with
  | @int format stored fits =>
      cases stored with
      | none => cases known
      | some word =>
          cases encoded
          have read := held.read (fits word rfl)
          simp only [Reader.number, read, ok_bind]
          exact congrArg Except.ok (Option.some.inj known)
  | @enum enumeration stored named =>
      cases valid with
      | enum variants =>
          cases stored with
          | none => cases known
          | some word =>
              cases encoded
              obtain ⟨label, spelled⟩ := named word rfl
              have read := held.read (variants.lt_of_nameOf? spelled)
              simp only [Reader.number, read, ok_bind]
              exact congrArg Except.ok (Option.some.inj known)
  | @constant format word =>
      cases valid with
      | constant fits =>
          cases encoded
          have read := held.read (IntFormat.lt_of_fits fits)
          simp only [Reader.number, read, ok_bind]
          exact congrArg Except.ok (Option.some.inj known)
  | _ => cases known

/-- The number of elements of a draft is the number that is stored. -/
theorem StandsAt.count {element : Layout} {length : ArrayLength IntFormat}
    (stands : reader.StandsAt draft chunk) (sound : reader.Sound)
    (array : reader.layout = .array element length) : reader.count = .ok draft.count := by
  obtain ⟨shaped, encoded, held⟩ := stands
  have valid := sound.valid
  rw [array] at shaped encoded valid
  cases shaped with
  | @array _ _ elements allowed each =>
      cases valid with
      | array counts _ =>
          simp only [Draft.encode, bind_eq_ok_iff, pure_eq_ok_iff] at encoded
          obtain ⟨_, -, rfl⟩ := encoded
          unfold Reader.count asArray
          rw [array]
          exact (ArrayLength.countsAs_encodeCount counts allowed _ _ sound.small held.left).1

/-! ### Structs -/

/-- The reader stands at a struct whose members are encoded as `chunks`. -/
structure Spells (reader : Reader) (fields : List Field) (members : List Draft)
    (chunks : List Bytes) : Prop where
  sound : reader.Sound
  struct : reader.layout = .struct fields
  whole : members.length = fields.length
  each : ∀ pair ∈ fields.zip members, pair.2.Shaped pair.1.layout
  pieces : List.Forall₂ (fun pair chunk => Scope.encodeMember ⟨fields, members⟩
    (memberSizes fields members) pair.1 pair.2 = .ok chunk) (fields.zip members) chunks
  held : Holds reader.data reader.offset chunks.flatten

theorem StandsAt.exists_spells {fields : List Field} {members : List Draft}
    (stands : reader.StandsAt (.struct members) chunk) (sound : reader.Sound)
    (struct : reader.layout = .struct fields) :
    ∃ chunks, reader.Spells fields members chunks ∧ chunks.flatten = chunk := by
  obtain ⟨shaped, encoded, held⟩ := stands
  rw [struct] at shaped encoded
  cases shaped with
  | struct whole each =>
      obtain ⟨chunks, pieces, rfl⟩ := (Draft.encode_struct_eq_ok_iff each).mp encoded
      exact ⟨chunks, ⟨sound, struct, whole, each, pieces, held⟩, rfl⟩

theorem StandsAt.spells {fields : List Field} (stands : reader.StandsAt draft chunk)
    (sound : reader.Sound) (struct : reader.layout = .struct fields) :
    ∃ members chunks, reader.Spells fields members chunks := by
  have shaped := stands.shaped
  rw [struct] at shaped
  cases shaped with
  | @struct _ members _ _ =>
      obtain ⟨chunks, spells, -⟩ := stands.exists_spells sound struct
      exact ⟨members, chunks, spells⟩

/-- Where the chunk at an index starts, if the chunks start where the reader stands. -/
def place (reader : Reader) (chunks : List Bytes) (index : Nat) : Nat :=
  reader.offset + (chunks.take index).flatten.length

namespace Spells

variable {fields : List Field} {members : List Draft} {chunks : List Bytes} {index : Nat}
  {field : Field}

/-- What is written for the members are chunks that read as values. -/
theorem parts (spells : reader.Spells fields members chunks) :
    ∃ parts, parts.map Prod.fst = chunks ∧ FieldsReadAs fields parts := by
  have valid := spells.sound.valid
  rw [spells.struct] at valid
  obtain ⟨parts, same, reads, -⟩ := exists_memberParts spells.whole spells.pieces
    fun pair inside chunk encoded => Draft.readsAs_encode (valid.member (List.of_mem_zip inside).1)
      (spells.each pair inside) encoded
  exact ⟨parts, same, reads⟩

theorem names (spells : reader.Spells fields members chunks) : (fields.map (·.name)).Nodup :=
  spells.sound.valid.names spells.struct

/-- **Every member is found where it was written.** -/
theorem member (spells : reader.Spells fields members chunks)
    (declared : fields[index]? = some field) :
    ∃ member chunk, (fields.zip members)[index]? = some (field, member) ∧
      chunks[index]? = some chunk ∧
      Scope.encodeMember ⟨fields, members⟩ (memberSizes fields members) field member =
        .ok chunk ∧
      reader.field field.name =
        .ok ⟨reader.data, field.name, field.layout, reader.place chunks index⟩ ∧
      Holds reader.data (reader.place chunks index) chunk := by
  obtain ⟨member, -, paired⟩ := Field.exists_member spells.whole declared
  obtain ⟨chunk, written, encoded⟩ := exists_result_of_getElem? spells.pieces paired
  refine ⟨_, chunk, paired, written, encoded, ?_, spells.held.part written⟩
  obtain ⟨parts, rfl, reads⟩ := spells.parts
  rw [reads.finds spells.struct spells.names spells.sound.small spells.held declared, place,
    bytesOf, List.map_take]

/-- A member is a size field, or it is found at the encoding of its draft. -/
theorem derived_or_stands (spells : reader.Spells fields members chunks)
    (declared : fields[index]? = some field) :
    ∃ part, reader.field field.name = .ok part ∧ part.layout = field.layout ∧ part.Sound ∧
      ((∃ format expr, field.layout = .derived format expr) ∨
        ∃ member chunk, members[index]? = some member ∧ part.StandsAt member chunk) := by
  obtain ⟨member, chunk, paired, -, encoded, found, held⟩ := spells.member declared
  have taken : reader.step (.member field.name) = .ok _ := found
  refine ⟨_, found, rfl, spells.sound.step taken, ?_⟩
  obtain ⟨format, expr, derived, -⟩ | own := Scope.encodeMember_eq_ok encoded
  · exact .inl ⟨format, expr, derived⟩
  · have drafted := (List.getElem?_zip_eq_some.mp paired).2
    have shaped := spells.each _ (List.mem_of_getElem? paired)
    exact .inr ⟨member, chunk, drafted, shaped, own, held⟩

/-- A member spans what was written for it. -/
theorem span (spells : reader.Spells fields members chunks)
    (declared : fields[index]? = some field) :
    reader.span field.name =
      .ok (reader.place chunks index, reader.place chunks (index + 1)) := by
  obtain ⟨parts, rfl, reads⟩ := spells.parts
  rw [reads.span spells.struct spells.names spells.sound.small spells.held declared, place, place,
    bytesOf, bytesOf, List.map_take, List.map_take]

theorem lengths (spells : reader.Spells fields members chunks) :
    chunks.map List.length = memberSizes fields members :=
  map_eq_of_forall₂ spells.pieces fun pair inside _ =>
    Scope.length_encodeMember (spells.each pair inside)

/-- Places by the sizes of the members. -/
theorem place_eq (spells : reader.Spells fields members chunks) (index : Nat) :
    reader.place chunks index =
      reader.offset + ((memberSizes fields members).take index).sum := by
  rw [place, List.length_flatten, List.map_take, spells.lengths]

/-- **What the encoder takes for a quantity is what the reader finds.** -/
theorem measures (spells : reader.Spells fields members chunks) {operand : Operand Nat}
    {quantity : Int} (refers : operand.RefersTo fields)
    (taken : Scope.quantityBy ⟨fields, members⟩ (memberSizes fields members) operand =
      .ok quantity) :
    reader.Measures fields operand quantity := by
  cases operand with
  | const value => exact (Except.ok.inj taken).symm
  | valueOf index =>
      obtain ⟨field, declared, hasValue⟩ := refers
      obtain ⟨part, found, same, sound, ⟨format, expr, derived⟩ | ⟨member, chunk, drafted, stands⟩⟩ :=
        spells.derived_or_stands declared
      · rw [derived] at hasValue
        cases hasValue
      · simp only [Scope.quantityBy, Scope.valueOf, declared, drafted, ← same] at taken
        split at taken
        · rename_i value known
          cases taken
          exact ⟨field, part, declared, found, stands.number sound.valid known⟩
        · cases taken
  | countOf index =>
      obtain ⟨field, declared, isArray⟩ := refers
      obtain ⟨part, found, same, sound, ⟨format, expr, derived⟩ | ⟨member, chunk, drafted, stands⟩⟩ :=
        spells.derived_or_stands declared
      · rw [derived] at isArray
        cases isArray
      · simp only [Scope.quantityBy, Scope.countOf, drafted] at taken
        cases taken
        unfold Layout.isArray at isArray
        split at isArray
        · rename_i element length array
          exact ⟨field, part, _, declared, found, stands.count sound (same.trans array), rfl⟩
        · cases isArray
  | sizeOf first last =>
      obtain ⟨forward, bounded⟩ := refers
      cases taken
      have start := List.getElem?_eq_getElem (Nat.lt_of_le_of_lt forward bounded)
      have stop := List.getElem?_eq_getElem bounded
      refine ⟨_, _, _, _, start, stop, spells.span start, spells.span stop, ?_⟩
      have total := @sum_take_add_rangeLength (memberSizes fields members) first last forward
      rw [spells.place_eq (last + 1), spells.place_eq first]
      omega

/-- **A size field reads as the sum that the reader finds.** -/
theorem number_size (spells : reader.Spells fields members chunks) {format : IntFormat}
    {expr : SizeExpr Nat} (declared : fields[index]? = some field)
    (derived : field.layout = .derived format expr) :
    ∃ size quantities, reader.field field.name = .ok size ∧
      List.Forall₂ (fun term quantity => reader.Measures fields term.operand quantity) expr
        quantities ∧
      size.number = .ok (expr.total quantities) := by
  have valid := spells.sound.valid
  rw [spells.struct] at valid
  obtain ⟨member, chunk, -, -, encoded, found, held⟩ := spells.member declared
  simp only [Scope.encodeMember, derived, Scope.encodeSize, bind_eq_ok_iff, pure_eq_ok_iff,
    Scope.evaluateBy_eq_ok_iff] at encoded
  obtain ⟨value, ⟨evaluated, fits⟩, rfl⟩ := encoded
  obtain ⟨quantities, taken, rfl⟩ := (SizeExpr.evaluate_yields
    (fun (outcome : Except WriteError Int) value => outcome = .ok value)
    (fun _ _ => pure_eq_ok_iff) fun _ _ _ => bind_eq_ok_iff).mp evaluated
  refine ⟨_, quantities, found, ?_, ?_⟩
  · cases valid with
    | struct _ references _ =>
        have refers := references field (List.mem_of_getElem? declared) format expr derived
        refine List.Forall₂.imp (fun term quantity known => ?_)
          ((List.forall₂_and_left _ _).mpr ⟨refers, taken⟩)
        exact spells.measures known.1 known.2
  · have read := held.read (format.toWord_lt _)
    simp only [Reader.number, derived, read, ok_bind]
    exact congrArg Except.ok (IntFormat.ofWord_toWord fits)

end Spells

/-! ### Arrays -/

/-- The reader stands at an array whose elements are encoded as `chunks`, behind the counter. -/
structure Lists (reader : Reader) (element : Layout) (length : ArrayLength IntFormat)
    (elements : List Draft) (chunks : List Bytes) : Prop where
  sound : reader.Sound
  array : reader.layout = .array element length
  allowed : length.Allows elements.length
  each : ∀ draft ∈ elements, draft.Shaped element
  pieces : List.Forall₂ (fun draft chunk => draft.encode element reader.name = .ok chunk)
    elements chunks
  held : Holds reader.data reader.offset (length.encodeCount elements.length ++ chunks.flatten)

theorem StandsAt.exists_lists {element : Layout} {length : ArrayLength IntFormat}
    {elements : List Draft} (stands : reader.StandsAt (.array elements) chunk)
    (sound : reader.Sound) (array : reader.layout = .array element length) :
    ∃ chunks, reader.Lists element length elements chunks ∧
      length.encodeCount elements.length ++ chunks.flatten = chunk := by
  obtain ⟨shaped, encoded, held⟩ := stands
  rw [array] at shaped encoded
  cases shaped with
  | array allowed each =>
      simp only [Draft.encode, encodeElements_eq_mapM, bind_eq_ok_iff, pure_eq_ok_iff,
        mapM_eq_ok_iff] at encoded
      obtain ⟨chunks, pieces, rfl⟩ := encoded
      exact ⟨chunks, ⟨sound, array, allowed, each, pieces, held⟩, rfl⟩

namespace Lists

variable {element : Layout} {length : ArrayLength IntFormat} {elements : List Draft}
  {chunks : List Bytes} {index : Nat} {part : Draft}

theorem counts (lists : reader.Lists element length elements chunks) :
    length.Valid ∧ element.Valid := by
  have valid := lists.sound.valid
  rw [lists.array] at valid
  cases valid with
  | array counts inner => exact ⟨counts, inner⟩

theorem lengths (lists : reader.Lists element length elements chunks) :
    chunks.map List.length = elements.map (·.size element) :=
  map_eq_of_forall₂ lists.pieces fun draft inside _ => Draft.length_encode (lists.each draft inside)

/-- **Every element is found where it was written.** -/
theorem element_eq (lists : reader.Lists element length elements chunks)
    (there : elements[index]? = some part) :
    ∃ next chunk, chunks[index]? = some chunk ∧ reader.element index = .ok next ∧
      next = ⟨reader.data, reader.name, element, reader.offset +
        (length.encodeCount elements.length).length + (chunks.take index).flatten.length⟩ ∧
      next.StandsAt part chunk := by
  obtain ⟨counts, inner⟩ := lists.counts
  obtain ⟨counted, begins⟩ := ArrayLength.countsAs_encodeCount counts lists.allowed _ _
    lists.sound.small lists.held.left
  have rest := lists.held.right
  obtain ⟨inside, -⟩ := List.getElem?_eq_some_iff.mp there
  obtain ⟨chunk, written, own⟩ := exists_result_of_getElem? lists.pieces there
  -- The elements before the one at `index` are read back, so the walk ends at its chunk.
  obtain ⟨parts, same, reads, -⟩ := exists_elementParts (List.forall₂_take index lists.pieces)
    fun draft before chunk encoded => Draft.readsAs_encode inner
      (lists.each draft (List.mem_of_mem_take before)) encoded
  have number : parts.length = index := by
    rw [← List.length_map Prod.fst, same, List.length_take, ← lists.pieces.length_eq,
      Nat.min_eq_left (Nat.le_of_lt inside)]
  have front := rest.front index
  rw [← same] at front
  have walked := (elements_read reads lists.sound.small front).2
  rw [number, bytesOf, same] at walked
  refine ⟨_, chunk, written, element_eq_ok lists.array counted begins
    (rest.address lists.sound.small) inside walked, rfl, ?_⟩
  exact ⟨lists.each _ (List.mem_of_getElem? there), own, rest.part written⟩

theorem element_eq_error (lists : reader.Lists element length elements chunks)
    (beyond : elements.length ≤ index) : ∃ cause, reader.element index = .error cause := by
  obtain ⟨counted, -⟩ := ArrayLength.countsAs_encodeCount lists.counts.1 lists.allowed _ _
    lists.sound.small lists.held.left
  exact ⟨_, element_beyond lists.array counted beyond⟩

end Lists

/-! ### Views -/

/-- A step from a view leads to the payload that the stored key selects. -/
theorem Selects.eq_of_step {key : IntFormat} {variants : List Variant} {stored : UInt64}
    {variant : Variant} {start : Nat} {step : Step}
    (selects : reader.Selects key variants stored variant start)
    (valid : (Layout.view key variants).Valid) (reached : reader.step step = .ok next) :
    next = ⟨reader.data, variant.name, variant.layout, start⟩ := by
  cases valid with
  | view names keys _ _ =>
      cases step with
      | member name =>
          rw [Reader.step, field, asStruct, selects.view] at reached
          cases reached
      | element index =>
          rw [Reader.step, Reader.element, asArray, selects.view] at reached
          cases reached
      | key requested =>
          rw [Reader.step] at reached
          by_cases same : requested = stored
          · rw [same, selects.variant_stored] at reached
            exact (Except.ok.inj reached).symm
          · obtain ⟨cause, failed⟩ := selects.variant_other same
            rw [failed] at reached
            cases reached
      | variant name =>
          rw [Reader.step] at reached
          by_cases same : name = variant.name
          · rw [same, selects.variantNamed_selected names] at reached
            exact (Except.ok.inj reached).symm
          · obtain ⟨cause, failed⟩ := selects.variantNamed_other keys same
            rw [failed] at reached
            cases reached
      | active =>
          rw [Reader.step, selects.active_eq] at reached
          exact (Except.ok.inj reached).symm

/-- **The stored key is the selected one**, and the payload is found behind it. -/
theorem StandsAt.selects {key : IntFormat} {variants : List Variant} {index : Nat} {payload : Draft}
    (stands : reader.StandsAt (.view (some (index, payload))) chunk) (sound : reader.Sound)
    (view : reader.layout = .view key variants) :
    ∃ variant own, variants[index]? = some variant ∧
      reader.Selects key variants variant.key variant
        (reader.offset + (key.encode variant.key).length) ∧
      key.encode variant.key ++ own = chunk ∧
      StandsAt ⟨reader.data, variant.name, variant.layout,
        reader.offset + (key.encode variant.key).length⟩ payload own := by
  obtain ⟨shaped, encoded, held⟩ := stands
  have valid := sound.valid
  rw [view] at shaped encoded valid
  cases shaped with
  | @view _ _ _ variant _ selected inside =>
      simp only [Draft.encode, selected, bind_eq_ok_iff, pure_eq_ok_iff] at encoded
      obtain ⟨rest, own, rfl⟩ := encoded
      obtain ⟨reads, found⟩ := valid.key (List.mem_of_getElem? selected)
      have selects := reads.selects sound.small view found held.left
      exact ⟨variant, rest, selected, selects, rfl, inside, own, held.right⟩

/-! ### From written values to written parts -/

theorem StandsAt.member {fields : List Field} {name : String}
    (stands : reader.StandsAt draft chunk) (sound : reader.Sound)
    (struct : reader.layout = .struct fields) (reached : reader.field name = .ok next) :
    next.Written := by
  obtain ⟨members, chunks, spells⟩ := stands.spells sound struct
  obtain ⟨index, field, declared, rfl⟩ := exists_of_field struct sound.address reached
  obtain ⟨part, found, same, -, ⟨format, expr, derived⟩ | ⟨member, chunk, -, stands⟩⟩ :=
    spells.derived_or_stands declared
  · rw [found] at reached
    cases reached
    exact .size (same.trans derived)
  · rw [found] at reached
    cases reached
    exact .value stands

theorem StandsAt.element {element : Layout} {length : ArrayLength IntFormat} {index : Nat}
    (stands : reader.StandsAt draft chunk) (sound : reader.Sound)
    (array : reader.layout = .array element length) (reached : reader.element index = .ok next) :
    next.Written := by
  have shaped := stands.shaped
  rw [array] at shaped
  cases shaped with
  | @array _ _ elements _ _ =>
      obtain ⟨chunks, lists, -⟩ := stands.exists_lists sound array
      by_cases inside : index < elements.length
      · obtain ⟨part, chunk, -, found, -, stands⟩ :=
          lists.element_eq (List.getElem?_eq_getElem inside)
        rw [found] at reached
        cases reached
        exact .value stands
      · obtain ⟨cause, failed⟩ := lists.element_eq_error (Nat.le_of_not_lt inside)
        rw [failed] at reached
        cases reached

theorem StandsAt.payload {key : IntFormat} {variants : List Variant} {step : Step}
    (stands : reader.StandsAt draft chunk) (sound : reader.Sound)
    (view : reader.layout = .view key variants) (reached : reader.step step = .ok next) :
    next.Written := by
  have shaped := stands.shaped
  have valid := sound.valid
  rw [view] at shaped valid
  cases shaped with
  | unselected =>
      have encoded := stands.encoded
      rw [view] at encoded
      cases encoded
  | view _ _ =>
      obtain ⟨variant, own, -, selects, -, inner⟩ := stands.selects sound view
      rw [selects.eq_of_step valid reached]
      exact .value inner

/-- **One step** from something written leads to something written. -/
theorem Written.step {step : Step} (written : reader.Written) (sound : reader.Sound)
    (reached : reader.step step = .ok next) : next.Written := by
  obtain ⟨data, name, layout, offset⟩ := reader
  cases written with
  | size derived =>
      cases derived
      cases step <;> cases reached
  | value stands =>
      cases layout with
      | struct fields =>
          cases step with
          | member name => exact stands.member sound rfl reached
          | _ => cases reached
      | array element length =>
          cases step with
          | element index => exact stands.element sound rfl reached
          | _ => cases reached
      | view key variants => exact stands.payload sound rfl reached
      | _ => cases step <;> cases reached

/-- **A whole path.** -/
theorem Written.along {path : List Step} (written : reader.Written) (sound : reader.Sound)
    (reached : reader.along path = .ok next) : next.Written := by
  have both {reader next : Reader} {step : Step} (start : reader.Written ∧ reader.Sound)
      (moved : reader.step step = .ok next) : next.Written ∧ next.Sound :=
    ⟨start.1.step start.2 moved, start.2.step moved⟩
  exact (along_preserves both ⟨written, sound⟩ reached).1

end Reader

/-- The reader of a written record stands at the encoding of its draft. -/
theorem Draft.standsAt_reader {schema : Schema} {draft : Draft} {bytes : Buffer}
    (valid : schema.root.Valid) (shaped : draft.Shaped schema.root)
    (written : draft.toBuffer schema.root = .ok bytes) (small : bytes.size < Address.limit) :
    (schema.reader bytes).StandsAt draft bytes.toList ∧ (schema.reader bytes).Sound := by
  have front : 0 < Address.limit := by decide
  have encoded := (Draft.toBuffer_eq_ok_iff valid shaped).mp written
  exact ⟨⟨shaped, encoded, Holds.whole bytes⟩, valid, small, front⟩

namespace Schema

variable {specs : List FieldSpec} {order : ByteOrder} {schema : Schema}

/-- **Sizes say what the record holds**: in every struct of a written record, every size field reads
as the signed sum of the quantities that a reader of the struct finds. -/
theorem sizes_consistent (compiled : Schema.compile specs order = .ok schema)
    (operations : List Operation) (bytes : Buffer)
    (written : (schema.build operations).toBuffer schema.root = .ok bytes)
    (small : bytes.size < Address.limit) (path : List Reader.Step) (reader : Reader)
    (fields : List Field) (reached : (schema.reader bytes).along path = .ok reader)
    (struct : reader.layout = .struct fields) :
    ∀ field ∈ fields, ∀ format expr, field.layout = .derived format expr →
      ∃ size quantities, reader.field field.name = .ok size ∧
        List.Forall₂ (fun term quantity => reader.Measures fields term.operand quantity) expr
          quantities ∧
        size.number = .ok (expr.total quantities) := by
  intro field inside format expr derived
  have valid := valid_of_compile compiled
  have shaped := schema.shaped_build operations
  have encoded := (Draft.toBuffer_eq_ok_iff valid shaped).mp written
  have root : (schema.reader bytes).StandsAt (schema.build operations) bytes.toList :=
    ⟨shaped, encoded, Holds.whole bytes⟩
  have front : 0 < Address.limit := by decide
  have sound : (schema.reader bytes).Sound := ⟨valid, small, front⟩
  obtain ⟨index, declared⟩ := List.getElem?_of_mem inside
  cases (Reader.Written.value root).along sound reached with
  | size other =>
      rw [struct] at other
      cases other
  | value stands =>
      obtain ⟨members, chunks, spells⟩ := stands.spells (sound.along reached) struct
      exact spells.number_size declared derived

theorem sizes_consistent_sampleRun :
    let bytes : Buffer := #[0, 8, 2, 1, 1, 2, 1, 1, 255, 254]
    let reader := sampleSchema.reader bytes
    Schema.compile samplePacket .big = .ok sampleSchema ∧
      (sampleSchema.build sampleRun).toBuffer sampleSchema.root = .ok bytes ∧
      ∃ size quantity, reader.field "size" = .ok size ∧
        reader.Measures sampleSchema.fields (.sizeOf 1 4) quantity ∧
        size.number = .ok quantity := by
  intro bytes reader
  have written : (sampleSchema.build sampleRun).toBuffer sampleSchema.root = .ok bytes := by
    decide +kernel
  refine ⟨compile_samplePacket, written, ?_⟩
  obtain ⟨size, quantities, found, measured, read⟩ := sizes_consistent compile_samplePacket
    sampleRun bytes written (by decide) [] reader sampleSchema.fields rfl rfl _
    List.mem_cons_self _ _ rfl
  obtain _ | ⟨measure, rest⟩ := measured
  cases rest
  refine ⟨size, _, found, measure, ?_⟩
  rw [read]
  simp [SizeExpr.total, Term.signed]

end Schema

end RecordLayout
