/-
**Reading part by part agrees with decoding as a whole.**

Decoding goes through a value from left to right and finds each part where the one before it ends. A
reader jumps: by known offsets, by the index of an element times its width, past the key of a
view. The two agree at every path.

* `Layout.exists_behind_of_decode`: a value that can be decoded has an end that is an address, so
  decoding never fails between two parts.
* `Reader.value_struct`: the value of a struct is collected from the readers of its members, errors
  included.
* `Reader.step_agrees`: a step leads to a part exactly when the decoded value has it, and the reader
  it leads to decodes to that part.
* `Reader.along_agrees`: the same for a whole path.
* `Schema.along_agrees_value`: the agreement for every record of a compiled schema.
-/

import RecordLayout.Proofs.IntegerCodec
import RecordLayout.Proofs.ValidLayout
import RecordLayout.Proofs.Walk
import RecordLayout.Reader

namespace RecordLayout

/-! ### The parts of a decoded value -/

section Parts

variable {data : Buffer}

theorem decodeFields_cons (data : Buffer) (field : Field) (rest : List Field) (position : Nat) :
    decodeFields data (field :: rest) position = do
      let value ← field.layout.decode data field.name position
      let next ← field.layout.behind data position
      return (field.name, value) :: (← decodeFields data rest next) := by
  obtain ⟨name, layout⟩ := field
  rw [decodeFields]

/-- **The members of a decoded struct** stand where walks over the members before them end. -/
theorem decodeFields_eq_ok {fields : List Field} {position : Nat} {members : List (String × Value)}
    (decoded : decodeFields data fields position = .ok members) :
    members.map Prod.fst = fields.map (·.name) ∧
    (∃ stop, walkFields data fields position = .ok stop) ∧
    ∀ index field, fields[index]? = some field → ∃ place value,
      walkFields data (fields.take index) position = .ok place ∧
      field.layout.decode data field.name place = .ok value ∧
      members[index]? = some (field.name, value) := by
  induction fields generalizing position members with
  | nil =>
      cases decoded
      exact ⟨rfl, ⟨position, rfl⟩, fun index field found => by simp at found⟩
  | cons first rest ih =>
      rw [decodeFields_cons] at decoded
      simp only [bind_eq_ok_iff, pure_eq_ok_iff] at decoded
      obtain ⟨value, here, next, behind, others, later, rfl⟩ := decoded
      obtain ⟨names, ⟨stop, walked⟩, each⟩ := ih later
      refine ⟨by simp [names], ⟨stop, by rw [walkFields_cons, behind]; exact walked⟩,
        fun index field found => ?_⟩
      cases index with
      | zero =>
          cases found
          exact ⟨position, value, rfl, here, rfl⟩
      | succ index =>
          obtain ⟨place, value, reached, decoded, inside⟩ := each index field found
          exact ⟨place, value, by rw [List.take_succ_cons, walkFields_cons, behind]; exact reached,
            decoded, inside⟩

/-- **The elements of a decoded array** stand where walks over the elements before them end. -/
theorem collect_eq_ok {element : Layout} {name : String} {count position : Nat}
    {elements : List Value}
    (collected : collect (fun position => do
      let next ← element.behind data position
      return (← element.decode data name position, next)) count position = .ok elements) :
    elements.length = count ∧
    (∃ stop, walkTimes (element.behind data) count position = .ok stop) ∧
    ∀ index value, elements[index]? = some value → ∃ place,
      walkTimes (element.behind data) index position = .ok place ∧
      element.decode data name place = .ok value := by
  induction count generalizing position elements with
  | zero =>
      cases collected
      exact ⟨rfl, ⟨position, rfl⟩, fun index value found => by simp at found⟩
  | succ count ih =>
      simp only [collect, bind_eq_ok_iff, pure_eq_ok_iff] at collected
      obtain ⟨⟨_, _⟩, ⟨next, behind, value, here, same⟩, others, later, rfl⟩ := collected
      cases same
      obtain ⟨counted, ⟨stop, walked⟩, each⟩ := ih later
      refine ⟨by rw [List.length_cons, counted], ⟨stop, by rw [walkTimes, behind]; exact walked⟩,
        fun index part found => ?_⟩
      cases index with
      | zero =>
          cases found
          exact ⟨position, rfl, here⟩
      | succ index =>
          obtain ⟨place, reached, decoded⟩ := each index part found
          exact ⟨place, by rw [walkTimes, behind]; exact reached, decoded⟩

theorem decodePayload_eq (data : Buffer) (key : IntFormat) (stored : UInt64) (offset : Nat)
    (variants : List Variant) :
    decodePayload data key stored offset variants =
      match variants.find? (·.key == stored) with
      | none => .error (.unknownVariant stored)
      | some variant => do
          let position ← Address.advance data offset key.bytes
          return (variant.name, ← variant.layout.decode data variant.name position) := by
  induction variants with
  | nil => rfl
  | cons variant rest ih =>
      obtain ⟨name, value, layout⟩ := variant
      rw [decodePayload, List.find?_cons]
      by_cases same : value = stored
      · rw [if_pos same, show (value == stored) = true from beq_iff_eq.mpr same]
      · rw [if_neg same, show (value == stored) = false from beq_eq_false_iff_ne.mpr same, ih]

theorem IntFormat.read_bounds {format : IntFormat} {offset : Nat} {word : UInt64}
    (found : format.read data offset = .ok word) : offset + format.bytes ≤ data.size := by
  obtain ⟨bytes, sliced, -⟩ := bind_eq_ok_iff.mp found
  exact (Address.slice_eq_ok_iff.mp sliced).2

theorem readKey_eq_ok {name : String} {key : IntFormat} {offset : Nat} {stored : UInt64}
    (found : readKey data name key offset = .ok stored) : key.read data offset = .ok stored := by
  unfold readKey at found
  split at found
  · cases found
  · exact found

/-- A decoded view has a variant for its key and the payload behind the key. -/
theorem decode_view_eq_ok {key : IntFormat} {variants : List Variant} {name : String}
    {offset : Nat} {value : Value}
    (decoded : (Layout.view key variants).decode data name offset = .ok value) :
    ∃ stored variant payload, readKey data name key offset = .ok stored ∧
      variants.find? (·.key == stored) = some variant ∧
      Address.advance data offset key.bytes = .ok (offset + key.bytes) ∧
      variant.layout.decode data variant.name (offset + key.bytes) = .ok payload ∧
      value = .view stored variant.name payload := by
  simp only [Layout.decode, bind_eq_ok_iff, pure_eq_ok_iff, decodePayload_eq] at decoded
  obtain ⟨stored, read, ⟨name, payload⟩, found, rfl⟩ := decoded
  split at found
  · cases found
  · rename_i variant selected
    simp only [bind_eq_ok_iff, pure_eq_ok_iff] at found
    obtain ⟨position, advanced, _, decoded, same⟩ := found
    cases same
    obtain ⟨rfl, inside⟩ := Address.advance_eq_ok_iff.mp advanced
    exact ⟨stored, variant, payload, read, selected, advanced, decoded, rfl⟩

/-- A value of a fixed number of bytes inside the buffer ends at an address. -/
theorem exists_behind_of_extent {layout : Layout} {offset length : Nat}
    (small : data.size < Address.limit) (known : layout.extent data offset = .ok length)
    (inside : offset + length ≤ data.size) : ∃ next, layout.behind data offset = .ok next := by
  refine ⟨offset + length, ?_⟩
  rw [Layout.behind, known]
  exact Address.advance_eq_ok_iff.mpr ⟨rfl, by omega⟩

/-- **A value that can be decoded ends at an address.** -/
theorem Layout.exists_behind_of_decode {layout : Layout} {name : String} {offset : Nat}
    {value : Value} (small : data.size < Address.limit) (address : offset < Address.limit)
    (decoded : layout.decode data name offset = .ok value) :
    ∃ next, layout.behind data offset = .ok next := by
  induction layout generalizing name offset value with
  | int format =>
      obtain ⟨word, read, -⟩ := bind_eq_ok_iff.mp decoded
      exact exists_behind_of_extent small rfl (IntFormat.read_bounds read)
  | enum enumeration =>
      obtain ⟨variant, read, -⟩ := bind_eq_ok_iff.mp decoded
      obtain ⟨word, read, -⟩ := bind_eq_ok_iff.mp read
      exact exists_behind_of_extent small rfl (IntFormat.read_bounds read)
  | mask mask =>
      obtain ⟨flags, read, -⟩ := bind_eq_ok_iff.mp decoded
      obtain ⟨bytes, sliced, -⟩ := bind_eq_ok_iff.mp read
      exact exists_behind_of_extent small rfl (Address.slice_eq_ok_iff.mp sliced).2
  | struct fields ih =>
      obtain ⟨members, decoded, -⟩ := bind_eq_ok_iff.mp decoded
      rw [behind_struct fields address]
      exact (decodeFields_eq_ok decoded).2.1
  | array element length ih =>
      simp only [Layout.decode, bind_eq_ok_iff] at decoded
      obtain ⟨count, counted, start, begins, elements, collected, -⟩ := decoded
      rw [behind_array element length address, counted, begins]
      exact (collect_eq_ok collected).2.1
  | view key variants ih =>
      obtain ⟨stored, variant, payload, read, selected, advanced, decoded, -⟩ :=
        decode_view_eq_ok decoded
      rw [behind_view (readKey_eq_ok read) selected advanced]
      exact ih variant (List.mem_of_find?_eq_some selected) (Address.advance_lt advanced) decoded
  | constant format value =>
      obtain ⟨word, read, -⟩ := bind_eq_ok_iff.mp decoded
      exact exists_behind_of_extent small rfl (IntFormat.read_bounds read)
  | derived format expr =>
      obtain ⟨word, read, -⟩ := bind_eq_ok_iff.mp decoded
      exact exists_behind_of_extent small rfl (IntFormat.read_bounds read)

end Parts

/-! ### Members of a struct -/

theorem Field.name_of_indexOf? {fields : List Field} {name : String} {index : Nat} {field : Field}
    (found : Field.indexOf? fields name = some index) (declared : fields[index]? = some field) :
    field.name = name := by
  obtain ⟨inside, named, -⟩ := List.findIdx?_eq_some_iff_getElem.mp found
  rw [List.getElem?_eq_getElem inside, Option.some.injEq] at declared
  rw [declared] at named
  exact beq_iff_eq.mp named

theorem Field.indexOf?_append {before after : List Field} {field : Field}
    (names : ((before ++ field :: after).map (·.name)).Nodup) :
    Field.indexOf? (before ++ field :: after) field.name = some before.length :=
  findIdx?_of_nodup names (by simp)

/-- The members of a decoded struct are found by name as its fields are. -/
theorem lookup_eq_indexOf? {fields : List Field} {members : List (String × Value)}
    (names : members.map Prod.fst = fields.map (·.name)) (name : String) :
    members.lookup name =
      (Field.indexOf? fields name).bind fun index => members[index]?.map Prod.snd := by
  induction fields generalizing members with
  | nil =>
      rw [List.map_nil, List.map_eq_nil_iff] at names
      subst names
      rfl
  | cons field fields ih =>
      cases members with
      | nil => cases names
      | cons member members =>
          obtain ⟨label, value⟩ := member
          rw [List.map_cons, List.map_cons, List.cons.injEq] at names
          obtain ⟨rfl, names⟩ := names
          rw [Field.indexOf?, List.findIdx?_cons]
          by_cases same : name = field.name
          · subst same
            simp
          · rw [List.lookup_cons, show (name == field.name) = false from
              beq_eq_false_iff_ne.mpr same, ih names, Field.indexOf?,
              show (field.name == name) = false from beq_eq_false_iff_ne.mpr (Ne.symm same)]
            cases fields.findIdx? (·.name == name) <;> rfl

namespace Reader

/-- The data can be addressed, the reader stands at an address, and its layout is valid. -/
structure Sound (reader : Reader) : Prop where
  valid : reader.layout.Valid
  small : reader.data.size < Address.limit
  address : reader.offset < Address.limit

variable {reader : Reader}

/-- A member is found by a walk over the members before it. -/
theorem field_eq {fields : List Field} {name : String} (struct : reader.layout = .struct fields)
    (address : reader.offset < Address.limit) :
    reader.field name =
      match Field.indexOf? fields name with
      | none => .error (.unknownField name)
      | some index =>
          match fields[index]? with
          | none => .error (.unknownField name)
          | some field => do
              return ⟨reader.data, field.name, field.layout,
                ← walkFields reader.data (fields.take index) reader.offset⟩ := by
  unfold field asStruct
  rw [struct]
  simp only [ok_bind]
  cases Field.indexOf? fields name with
  | none => rfl
  | some index =>
      simp only
      cases declared : fields[index]? with
      | none => rfl
      | some field =>
          simp only
          rw [locateField_eq_walkFields (List.getElem?_eq_some_iff.mp declared).1 address]

/-- A member that is found was declared under its name. -/
theorem exists_of_field {fields : List Field} {name : String} {next : Reader}
    (struct : reader.layout = .struct fields) (address : reader.offset < Address.limit)
    (reached : reader.field name = .ok next) :
    ∃ (index : Nat) (field : Field), fields[index]? = some field ∧ field.name = name := by
  rw [field_eq struct address] at reached
  split at reached
  · cases reached
  · rename_i index found
    split at reached
    · cases reached
    · rename_i field declared
      exact ⟨index, field, declared, Field.name_of_indexOf? found declared⟩

/-- **A struct is collected from its members**, errors included. -/
theorem value_struct {fields : List Field} (sound : reader.Sound)
    (struct : reader.layout = .struct fields) :
    reader.value = do
      let members ← fields.mapM fun field => do
        return (field.name, ← (← reader.field field.name).value)
      return .struct members := by
  have names := sound.valid.names struct
  -- `before` is what the walk has passed, and `position` is where it stands
  have collected (before after : List Field) (position : Nat) (split : fields = before ++ after)
      (walked : walkFields reader.data before reader.offset = .ok position) :
      decodeFields reader.data after position = after.mapM fun field => do
        return (field.name, ← (← reader.field field.name).value) := by
    induction after generalizing before position with
    | nil => rfl
    | cons field after ih =>
        have index := Field.indexOf?_append (split ▸ names)
        have found : reader.field field.name =
            .ok ⟨reader.data, field.name, field.layout, position⟩ := by
          rw [field_eq struct sound.address, split, index]
          simp [walked]
        rw [decodeFields_cons, List.mapM_cons, found]
        show (field.layout.decode reader.data field.name position >>= fun value => _) =
          ((do return (field.name, ← field.layout.decode reader.data field.name position)) >>=
            fun member => _)
        cases decoded : field.layout.decode reader.data field.name position with
        | error cause => rfl
        | ok value =>
            obtain ⟨next, behind⟩ := Layout.exists_behind_of_decode sound.small
              (walkFields_bounds sound.address walked).2 decoded
            have later := ih (before ++ [field]) next (by rw [split, List.append_assoc]; rfl) (by
              rw [walkFields_append, walked]
              show walkFields reader.data [field] position = _
              rw [walkFields_cons, behind]
              rfl)
            rw [behind, ← later]
            rfl
  rw [← collected [] fields reader.offset rfl rfl, value, struct, Layout.decode]

/-! ### Sound readers lead to sound readers -/

/-- **Where a step can lead**: to a part of the value, at an address of the same data. -/
structure Leads (reader next : Reader) : Prop where
  data : next.data = reader.data
  part : reader.layout.Contains next.layout
  address : next.offset < Address.limit

theorem leads_of_payloadAs {key : IntFormat} {variants : List Variant} {variant : Variant}
    {next : Reader} (view : reader.layout = .view key variants) (member : variant ∈ variants)
    (reached : reader.payloadAs key variant = .ok next) : reader.Leads next := by
  obtain ⟨start, begins, same⟩ := bind_eq_ok_iff.mp reached
  cases same
  exact ⟨rfl, view ▸ .payload member (.refl _), Address.advance_lt begins⟩

theorem leads_of_variant {requested : UInt64} {next : Reader}
    (reached : reader.variant requested = .ok next) : reader.Leads next := by
  obtain ⟨data, name, layout, offset⟩ := reader
  cases layout with
  | view key variants =>
      obtain ⟨_, same, reached⟩ := bind_eq_ok_iff.mp reached
      cases same
      simp only at reached
      split at reached
      · cases reached
      · rename_i variant found
        obtain ⟨stored, -, reached⟩ := bind_eq_ok_iff.mp reached
        split at reached
        · split at reached <;> cases reached
        · exact leads_of_payloadAs rfl (List.mem_of_find?_eq_some found) reached
  | _ => cases reached

theorem leads_of_field {name : String} {next : Reader} (address : reader.offset < Address.limit)
    (reached : reader.field name = .ok next) : reader.Leads next := by
  obtain ⟨data, label, layout, offset⟩ := reader
  cases layout with
  | struct fields =>
      rw [field_eq rfl address] at reached
      split at reached
      · cases reached
      · split at reached
        · cases reached
        · rename_i field declared
          obtain ⟨place, walked, same⟩ := bind_eq_ok_iff.mp reached
          cases same
          exact ⟨rfl, .member (List.mem_of_getElem? declared) (.refl _),
            (walkFields_bounds address walked).2⟩
  | _ => cases reached

theorem leads_of_element {index : Nat} {next : Reader} (address : reader.offset < Address.limit)
    (reached : reader.element index = .ok next) : reader.Leads next := by
  obtain ⟨data, name, layout, offset⟩ := reader
  cases layout with
  | array element length =>
      obtain ⟨_, same, reached⟩ := bind_eq_ok_iff.mp reached
      cases same
      obtain ⟨count, -, reached⟩ := bind_eq_ok_iff.mp reached
      simp only [guard_eq_ok_iff, bind_eq_ok_iff] at reached
      obtain ⟨-, start, begins, reached⟩ := reached
      have inside := (ArrayLength.start_bounds address begins).2
      split at reached
      · obtain ⟨place, advanced, same⟩ := bind_eq_ok_iff.mp reached
        cases same
        exact ⟨rfl, .element (.refl _), Address.advance_lt advanced⟩
      · obtain ⟨place, walked, same⟩ := bind_eq_ok_iff.mp reached
        cases same
        exact ⟨rfl, .element (.refl _), (walkTimes_bounds inside walked).2⟩
  | _ => cases reached

/-- A step leads to a part of the value, decoded or not. -/
theorem leads_of_step {next : Reader} {step : Step} (address : reader.offset < Address.limit)
    (reached : reader.step step = .ok next) : reader.Leads next := by
  cases step with
  | member name => exact leads_of_field address reached
  | element index => exact leads_of_element address reached
  | key value => exact leads_of_variant reached
  | variant name =>
      obtain ⟨data, label, layout, offset⟩ := reader
      cases layout with
      | view key variants =>
          obtain ⟨_, same, reached⟩ := bind_eq_ok_iff.mp reached
          cases same
          simp only at reached
          split at reached
          · cases reached
          · exact leads_of_variant reached
      | _ => cases reached
  | active =>
      obtain ⟨data, label, layout, offset⟩ := reader
      obtain ⟨⟨stored, payload⟩, found, same⟩ := bind_eq_ok_iff.mp reached
      cases same
      cases layout with
      | view key variants =>
          obtain ⟨_, same, found⟩ := bind_eq_ok_iff.mp found
          cases same
          obtain ⟨_, -, found⟩ := bind_eq_ok_iff.mp found
          split at found
          · cases found
          · rename_i variant selected
            obtain ⟨payload, found, same⟩ := bind_eq_ok_iff.mp found
            cases same
            exact leads_of_payloadAs rfl (List.mem_of_find?_eq_some selected) found
      | _ => cases found

/-- A step of a sound reader leads to a sound reader. -/
theorem Sound.step {next : Reader} {step : Step} (sound : reader.Sound)
    (reached : reader.step step = .ok next) : next.Sound := by
  obtain ⟨data, part, address⟩ := leads_of_step sound.address reached
  exact ⟨sound.valid.part part, data ▸ sound.small, address⟩

theorem along_cons_eq_ok_iff {next : Reader} {step : Step} {rest : List Step} :
    reader.along (step :: rest) = .ok next ↔
      ∃ middle, reader.step step = .ok middle ∧ middle.along rest = .ok next := by
  rw [Reader.along, List.foldlM_cons, bind_eq_ok_iff]
  rfl

/-- What every step preserves, every path preserves. -/
theorem along_preserves {invariant : Reader → Prop} {next : Reader} {path : List Step}
    (step : ∀ {reader next : Reader} {step : Step}, invariant reader →
      reader.step step = .ok next → invariant next)
    (start : invariant reader) (reached : reader.along path = .ok next) : invariant next := by
  induction path generalizing reader with
  | nil =>
      cases reached
      exact start
  | cons first rest ih =>
      obtain ⟨middle, moved, later⟩ := along_cons_eq_ok_iff.mp reached
      exact ih (step start moved) later

theorem Sound.along {next : Reader} {path : List Step} (sound : reader.Sound)
    (reached : reader.along path = .ok next) : next.Sound :=
  along_preserves Sound.step sound reached

end Reader

/-! ### Paths into a decoded value -/

namespace Value

/-- The part of a value that a step leads to, if there is one. -/
def step? : Value → Reader.Step → Option Value
  | .struct members, .member name => members.lookup name
  | .array elements, .element index => elements[index]?
  | .view stored _ payload, .key value => if value = stored then some payload else none
  | .view _ selected payload, .variant name => if name = selected then some payload else none
  | .view _ _ payload, .active => some payload
  | _, _ => none

/-- The part of a value that a path leads to, if there is one. -/
def at? (value : Value) (path : List Reader.Step) : Option Value := path.foldlM step? value

end Value

namespace Reader

/-- The reader is found exactly when the part is there, and it decodes to the part. -/
def Agrees (outcome : Except ReadError Reader) : Option Value → Prop
  | some part => ∃ reader, outcome = .ok reader ∧ reader.value = .ok part
  | none => ∃ cause, outcome = .error cause

variable {reader : Reader}

theorem field_agrees {fields : List Field} {members : List (String × Value)}
    (sound : reader.Sound) (struct : reader.layout = .struct fields)
    (decoded : decodeFields reader.data fields reader.offset = .ok members) (name : String) :
    Agrees (reader.field name) (members.lookup name) := by
  obtain ⟨names, -, each⟩ := decodeFields_eq_ok decoded
  rw [field_eq struct sound.address, lookup_eq_indexOf? names]
  cases found : Field.indexOf? fields name with
  | none => exact ⟨_, rfl⟩
  | some index =>
      obtain ⟨inside, -⟩ := List.findIdx?_eq_some_iff_getElem.mp found
      have declared := List.getElem?_eq_getElem inside
      obtain ⟨place, value, reached, decoded, there⟩ := each index _ declared
      simp only [Option.bind_some, declared, there, reached]
      exact ⟨_, rfl, decoded⟩

/-- An element is found by a walk over the elements before it. -/
theorem element_eq_ok {element : Layout} {length : ArrayLength IntFormat}
    {count start index place : Nat}
    (array : reader.layout = .array element length)
    (counted : length.count reader.data reader.offset = .ok count)
    (begins : length.start reader.data reader.offset = .ok start) (address : start < Address.limit)
    (inside : index < count)
    (reached : walkTimes (element.behind reader.data) index start = .ok place) :
    reader.element index = .ok ⟨reader.data, reader.name, element, place⟩ := by
  unfold Reader.element asArray
  rw [array]
  show (length.count reader.data reader.offset >>= fun count => _) = _
  rw [counted]
  show (if count ≤ index then _ else _) = _
  rw [if_neg (by omega), begins]
  cases fixed : element.width? with
  | none =>
      show (walkTimes (element.behind reader.data) index start >>= fun offset => _) = _
      rw [reached]
      rfl
  | some width =>
      rw [walkTimes_of_width? fixed index address] at reached
      have short := (Address.advance_eq_ok_iff.mp reached).2
      have skipped : skip index width = index * width := if_pos (by omega)
      show (Address.advance reader.data start (skip index width) >>= fun offset => _) = _
      rw [skipped, reached]
      rfl

/-- There is no element beyond the count. -/
theorem element_beyond {element : Layout} {length : ArrayLength IntFormat} {count index : Nat}
    (array : reader.layout = .array element length)
    (counted : length.count reader.data reader.offset = .ok count) (beyond : count ≤ index) :
    reader.element index = .error (.indexOutOfRange index count) := by
  unfold Reader.element asArray
  rw [array]
  show (length.count reader.data reader.offset >>= fun count => _) = _
  rw [counted]
  show (if count ≤ index then _ else _) = _
  rw [if_pos beyond]
  rfl

theorem element_agrees {element : Layout} {length : ArrayLength IntFormat} {count start : Nat}
    {elements : List Value} (sound : reader.Sound) (array : reader.layout = .array element length)
    (counted : length.count reader.data reader.offset = .ok count)
    (begins : length.start reader.data reader.offset = .ok start)
    (collected : collect (fun position => do
      let next ← element.behind reader.data position
      return (← element.decode reader.data reader.name position, next)) count start = .ok elements)
    (index : Nat) : Agrees (reader.element index) elements[index]? := by
  obtain ⟨whole, -, each⟩ := collect_eq_ok collected
  have address := (ArrayLength.start_bounds sound.address begins).2
  cases found : elements[index]? with
  | none =>
      have beyond : count ≤ index := by
        rw [← whole]
        exact List.getElem?_eq_none_iff.mp found
      exact ⟨_, element_beyond array counted beyond⟩
  | some value =>
      obtain ⟨place, reached, decoded⟩ := each index value found
      have inside : index < count := by
        rw [← whole]
        exact (List.getElem?_eq_some_iff.mp found).1
      exact ⟨_, element_eq_ok array counted begins address inside reached, decoded⟩

/-- The reader stands at a view, the stored key selects `variant`, and the payload starts at
`start`. -/
structure Selects (reader : Reader) (key : IntFormat) (variants : List Variant) (stored : UInt64)
    (variant : Variant) (start : Nat) : Prop where
  view : reader.layout = .view key variants
  read : readKey reader.data reader.name key reader.offset = .ok stored
  selected : variants.find? (·.key == stored) = some variant
  begins : Address.advance reader.data reader.offset key.bytes = .ok start

namespace Selects

variable {key : IntFormat} {variants : List Variant} {stored : UInt64} {variant : Variant}
  {start : Nat}

theorem payloadAs_eq (selects : reader.Selects key variants stored variant start) :
    reader.payloadAs key variant =
      .ok ⟨reader.data, variant.name, variant.layout, start⟩ := by
  rw [payloadAs, selects.begins]
  rfl

theorem active_eq (selects : reader.Selects key variants stored variant start) :
    reader.active = .ok (stored, ⟨reader.data, variant.name, variant.layout, start⟩) := by
  unfold active asView
  rw [selects.view]
  simp only [ok_bind, selects.read, selects.selected, selects.payloadAs_eq]
  rfl

theorem variant_stored (selects : reader.Selects key variants stored variant start) :
    reader.variant stored = .ok ⟨reader.data, variant.name, variant.layout, start⟩ := by
  unfold Reader.variant asView
  rw [selects.view]
  simp only [ok_bind, selects.read, selects.selected, selects.payloadAs_eq]
  exact if_neg (by simp)

theorem variant_other {requested : UInt64}
    (selects : reader.Selects key variants stored variant start) (other : requested ≠ stored) :
    ∃ cause, reader.variant requested = .error cause := by
  unfold Reader.variant asView
  rw [selects.view]
  simp only [ok_bind, selects.read]
  cases variants.find? (·.key == requested) with
  | none => exact ⟨_, rfl⟩
  | some variant =>
      simp only [if_pos (Ne.symm other)]
      split <;> exact ⟨_, rfl⟩

theorem variantNamed_selected (selects : reader.Selects key variants stored variant start)
    (names : (variants.map (·.name)).Nodup) :
    reader.variantNamed variant.name =
      .ok ⟨reader.data, variant.name, variant.layout, start⟩ := by
  have member := List.mem_of_find?_eq_some selects.selected
  have keyed : variant.key = stored := by simpa using List.find?_some selects.selected
  unfold variantNamed asView
  rw [selects.view]
  simp only [ok_bind, find?_of_nodup names member]
  rw [keyed]
  exact selects.variant_stored

theorem variantNamed_other {name : String}
    (selects : reader.Selects key variants stored variant start)
    (keys : (variants.map (·.key)).Nodup) (other : name ≠ variant.name) :
    ∃ cause, reader.variantNamed name = .error cause := by
  have keyed : variant.key = stored := by simpa using List.find?_some selects.selected
  unfold variantNamed asView
  rw [selects.view]
  simp only [ok_bind]
  cases found : variants.find? (·.name == name) with
  | none => exact ⟨_, rfl⟩
  | some candidate =>
      refine selects.variant_other fun same => other ?_
      rw [← keyed] at same
      have named : candidate.name = name := by simpa using List.find?_some found
      rw [← named, List.inj_on_of_nodup_map keys (List.mem_of_find?_eq_some found)
        (List.mem_of_find?_eq_some selects.selected) same]

end Selects

theorem exists_selects {key : IntFormat} {variants : List Variant} {value : Value}
    (view : reader.layout = .view key variants) (decoded : reader.value = .ok value) :
    ∃ stored variant start payload, reader.Selects key variants stored variant start ∧
      variant.layout.decode reader.data variant.name start = .ok payload ∧
      value = .view stored variant.name payload := by
  rw [Reader.value, view] at decoded
  obtain ⟨stored, variant, payload, read, selected, begins, decoded, same⟩ :=
    decode_view_eq_ok decoded
  exact ⟨stored, variant, _, payload, ⟨view, read, selected, begins⟩, decoded, same⟩

theorem view_agrees {key : IntFormat} {variants : List Variant} {value : Value}
    (sound : reader.Sound) (view : reader.layout = .view key variants)
    (decoded : reader.value = .ok value) (step : Step) :
    Agrees (reader.step step) (value.step? step) := by
  obtain ⟨stored, variant, start, payload, selects, inside, rfl⟩ := exists_selects view decoded
  have reached : ∀ outcome, outcome = .ok ⟨reader.data, variant.name, variant.layout, start⟩ →
      Agrees outcome (some payload) :=
    fun outcome found => ⟨_, found, inside⟩
  have valid := sound.valid
  rw [view] at valid
  cases valid with
  | view names keys _ _ =>
      cases step with
      | member name => exact ⟨_, by rw [Reader.step, field, asStruct, view]; rfl⟩
      | element index => exact ⟨_, by rw [Reader.step, Reader.element, asArray, view]; rfl⟩
      | key requested =>
          show Agrees (reader.variant requested) (if requested = stored then _ else _)
          split
          · rename_i same
            exact reached _ (same ▸ selects.variant_stored)
          · rename_i other
            exact selects.variant_other other
      | variant name =>
          show Agrees (reader.variantNamed name) (if name = variant.name then _ else _)
          split
          · rename_i same
            exact reached _ (same ▸ selects.variantNamed_selected names)
          · rename_i other
            exact selects.variantNamed_other keys other
      | active =>
          refine reached _ ?_
          rw [Reader.step, selects.active_eq]
          rfl

theorem step?_value (format : IntFormat) (word : UInt64) (step : Step) :
    (format.value word).step? step = none := by
  unfold IntFormat.value
  split <;> cases step <;> rfl

/-- **One step**: the reader finds a part exactly when the decoded value has it. -/
theorem step_agrees {value : Value} (sound : reader.Sound) (decoded : reader.value = .ok value)
    (step : Step) : Agrees (reader.step step) (value.step? step) := by
  obtain ⟨data, name, layout, offset⟩ := reader
  cases layout with
  | int format | derived format _ =>
      obtain ⟨word, -, same⟩ := bind_eq_ok_iff.mp decoded
      cases same
      rw [step?_value]
      cases step <;> exact ⟨_, rfl⟩
  | enum _ | mask _ | constant _ _ =>
      obtain ⟨_, -, same⟩ := bind_eq_ok_iff.mp decoded
      cases same
      cases step <;> exact ⟨_, rfl⟩
  | struct fields =>
      obtain ⟨members, inside, same⟩ := bind_eq_ok_iff.mp decoded
      cases same
      cases step with
      | member name => exact field_agrees sound rfl inside name
      | _ => exact ⟨_, rfl⟩
  | array element length =>
      obtain ⟨count, counted, inside⟩ := bind_eq_ok_iff.mp decoded
      obtain ⟨start, begins, inside⟩ := bind_eq_ok_iff.mp inside
      obtain ⟨elements, collected, same⟩ := bind_eq_ok_iff.mp inside
      cases same
      cases step with
      | element index => exact element_agrees sound rfl counted begins collected index
      | _ => exact ⟨_, rfl⟩
  | view key variants => exact view_agrees sound rfl decoded step

/-- **A whole path.** -/
theorem along_agrees {value : Value} (sound : reader.Sound) (decoded : reader.value = .ok value)
    (path : List Step) : Agrees (reader.along path) (value.at? path) := by
  induction path generalizing reader value with
  | nil => exact ⟨reader, rfl, decoded⟩
  | cons step rest ih =>
      have first := step_agrees sound decoded step
      rw [along, List.foldlM_cons, Value.at?, List.foldlM_cons]
      cases found : value.step? step with
      | none =>
          rw [found] at first
          obtain ⟨cause, refused⟩ := first
          rw [refused]
          exact ⟨cause, rfl⟩
      | some part =>
          rw [found] at first
          obtain ⟨next, reached, decoded⟩ := first
          rw [reached]
          exact ih (sound.step reached) decoded

end Reader

/-! ### Numbers -/

/-- Whether a value of the layout is read as a number and decoded as one. -/
def Layout.isNumber : Layout → Bool
  | .int _ | .constant _ _ | .derived _ _ => true
  | _ => false

theorem unsigned?_toNat (word : UInt64) : unsigned? word.toNat = some word := by
  have bounded := word.toNat_lt_size
  rw [unsigned?, if_pos ⟨by omega, by omega⟩]
  simp

theorem signed?_signExtend (word : UInt64) (bits : Nat) :
    signed? (Bits.signExtend word bits) = some (Bits.signExtend word bits) := by
  unfold Bits.signExtend
  exact if_pos ⟨Int64.minValue_le_toInt _, Int64.toInt_le _⟩

theorem IntFormat.asUnsigned?_value (format : IntFormat) (word : UInt64) :
    (format.value word).asUnsigned? = unsigned? (format.ofWord word) := by
  unfold IntFormat.value IntFormat.ofWord
  split
  · rfl
  · exact (unsigned?_toNat word).symm

theorem IntFormat.asSigned?_value (format : IntFormat) (word : UInt64) :
    (format.value word).asSigned? = signed? (format.ofWord word) := by
  unfold IntFormat.value IntFormat.ofWord
  split
  · exact (signed?_signExtend ..).symm
  · rfl

namespace Reader

variable {reader : Reader}

theorem unsigned_eq_ok_iff {number : Int} {result : UInt64} (found : reader.number = .ok number) :
    reader.unsigned = .ok result ↔ unsigned? number = some result := by
  rw [Reader.unsigned, found, ok_bind]
  cases unsigned? number with
  | none => constructor <;> intro impossible <;> cases impossible
  | some value => simp [pure, Except.pure]

theorem signed_eq_ok_iff {number result : Int} (found : reader.number = .ok number) :
    reader.signed = .ok result ↔ signed? number = some result := by
  rw [Reader.signed, found, ok_bind]
  cases signed? number with
  | none => constructor <;> intro impossible <;> cases impossible
  | some value => simp [pure, Except.pure]

/-- **A number is read as the decoded value says.** -/
theorem number_agrees {value : Value} (numeric : reader.layout.isNumber = true)
    (decoded : reader.value = .ok value) :
    ∃ number, reader.number = .ok number ∧ value.asUnsigned? = unsigned? number ∧
      value.asSigned? = signed? number := by
  obtain ⟨data, name, layout, offset⟩ := reader
  cases layout with
  | int format | derived format _ =>
      obtain ⟨word, read, same⟩ := bind_eq_ok_iff.mp decoded
      cases same
      refine ⟨format.ofWord word, ?_, format.asUnsigned?_value word, format.asSigned?_value word⟩
      show (do return format.ofWord (← format.read data offset)) = _
      rw [read]
      rfl
  | constant format _ =>
      obtain ⟨word, read, same⟩ := bind_eq_ok_iff.mp decoded
      cases same
      refine ⟨word.toNat, ?_, (unsigned?_toNat word).symm, rfl⟩
      show (do return ((← format.read data offset).toNat : Int)) = _
      rw [read]
      rfl
  | _ => cases numeric

end Reader

/-! ### Whole records -/

namespace Schema

variable {specs : List FieldSpec} {order : ByteOrder} {schema : Schema}

/-- **Lazy reading agrees with decoding at every path.** -/
theorem along_agrees_value (compiled : Schema.compile specs order = .ok schema) (data : Buffer)
    (base : Nat) (small : data.size < Address.limit) (address : base < Address.limit) :
    let root := schema.readerAt data base
    (∀ path reader fields, root.along path = .ok reader → reader.layout = .struct fields →
      reader.value = do
        let members ← fields.mapM fun field => do
          return (field.name, ← (← reader.field field.name).value)
        return .struct members) ∧
    ∀ value, root.value = .ok value → ∀ path,
      ((∃ reader, root.along path = .ok reader) ↔ ∃ part, value.at? path = some part) ∧
      ∀ reader part, root.along path = .ok reader → value.at? path = some part →
        reader.value = .ok part ∧
        (reader.layout.isNumber = true →
          (∀ number, reader.unsigned = .ok number ↔ part.asUnsigned? = some number) ∧
          ∀ number, reader.signed = .ok number ↔ part.asSigned? = some number) := by
  intro root
  have sound : root.Sound := ⟨valid_of_compile compiled, small, address⟩
  refine ⟨fun path reader fields reached struct => Reader.value_struct (sound.along reached) struct,
    fun value decoded path => ?_⟩
  have agrees := Reader.along_agrees sound decoded path
  cases there : value.at? path with
  | none =>
      rw [there] at agrees
      obtain ⟨cause, refused⟩ := agrees
      rw [refused]
      exact ⟨by simp, fun _ _ impossible => by cases impossible⟩
  | some part =>
      rw [there] at agrees
      obtain ⟨reader, reached, decoded⟩ := agrees
      refine ⟨⟨fun _ => ⟨part, rfl⟩, fun _ => ⟨reader, reached⟩⟩, fun other _ again same => ?_⟩
      rw [reached] at again
      cases again
      cases same
      refine ⟨decoded, fun numeric => ?_⟩
      obtain ⟨number, found, unsigned, signed⟩ := Reader.number_agrees numeric decoded
      rw [unsigned, signed]
      exact ⟨fun _ => Reader.unsigned_eq_ok_iff found, fun _ => Reader.signed_eq_ok_iff found⟩

theorem along_agrees_value_samplePacket :
    let root := sampleSchema.readerAt #[0, 8, 2, 1, 1, 2, 1, 1, 255, 254] 0
    Schema.compile samplePacket .big = .ok sampleSchema ∧
      ∃ reader, root.along [.member "body", .active] = .ok reader ∧
        reader.value = .ok (.signed (-2)) := by
  intro root
  have decoded : root.value = .ok (.struct [("size", .unsigned 8), ("kind", .enum "ack"),
      ("flags", .mask [("urgent", false), ("last", true)]), ("items", .array [.unsigned 513]),
      ("body", .view 1 "ping" (.signed (-2)))]) := by
    cbv
  obtain ⟨-, agrees⟩ := along_agrees_value compile_samplePacket
    #[0, 8, 2, 1, 1, 2, 1, 1, 255, 254] 0 (by decide) (by decide)
  obtain ⟨found, same⟩ := agrees _ decoded [.member "body", .active]
  obtain ⟨reader, reached⟩ := found.mpr ⟨.signed (-2), rfl⟩
  exact ⟨compile_samplePacket, reader, reached, (same reader _ reached rfl).1⟩

end Schema

end RecordLayout
