/-
**Reading never traps.**

Whatever the bytes are, and wherever a record is taken to start, a chain of operations on a reader of
a compiled layout ends with a result or with an error: on machine words no sum overflows, no
difference is negative, no shift is too wide and no index is out of range.

The proof compares each operation on words (`Machine`) with the operation of the library, which
cannot trap: from a safe position both have the same outcome. A position is safe when it is an
address, the layout has had its sizes checked, and the data are no larger than memory
(`Reader.Safe`). A walk only moves forward, so the differences are not negative, and all it reaches
are addresses.

* `Machine.encodedLength_eq`, `Machine.fieldOffset_eq`: lengths and offsets.
* `Machine.step_eq`, `Machine.answer_eq`: the operations of a reader.
* `Machine.move_eq`, `Handle.Safe.move`: one operation of a chain agrees, and leads to what is safe.
* `Schema.reading_never_traps`: whole chains.
-/

import RecordLayout.Proofs.LazyReading
import RecordLayout.Proofs.StaticLayout

namespace RecordLayout

theorem find?_of_findIdx?_eq_none {α : Type} {entries : List α} {wanted : α → Bool}
    (missing : entries.findIdx? wanted = none) : entries.find? wanted = none := by
  rw [List.findIdx?_eq_none_iff] at missing
  exact List.find?_eq_none.mpr fun entry member => by simp [missing entry member]

namespace Machine

/-! ### Runs that report an outcome -/

section Report

variable {α β : Type}

theorem settle_report (outcome : Except ReadError α) : settle (report outcome) = .ok outcome := by
  cases outcome <;> rfl

/-- **A sequence of runs reports the sequence of outcomes.** -/
theorem bind_eq_report {run : Run α} {outcome : Except ReadError α} {next : α → Run β}
    {after : α → Except ReadError β} (first : run = report outcome)
    (rest : ∀ result, outcome = .ok result → next result = report (after result)) :
    (run >>= next) = report (outcome >>= after) := by
  rw [first]
  cases outcome with
  | error cause => rfl
  | ok result => exact rest result rfl

theorem sub_eq {first second : Nat} (ordered : second ≤ first) :
    sub first second = .ok (first - second) :=
  if_pos ordered

theorem entry_eq {entries : List α} {index : Nat} {found : α} (there : entries[index]? = some found) :
    entry entries index = .ok found := by
  obtain ⟨inside, rfl⟩ := List.getElem?_eq_some_iff.mp there
  exact dif_pos inside

theorem range_eq {entries : List α} {first last : Nat} (ordered : first ≤ last)
    (inside : last ≤ entries.length) :
    range entries first last = .ok ((entries.take last).drop first) :=
  if_pos ⟨ordered, inside⟩

end Report

/-! ### Integers and bits -/

section Integers

variable {data : Buffer} {offset : Nat}

theorem slice_eq (small : data.size < 2 ^ 63) (width : Nat) :
    slice data offset width = report (Address.slice data offset width) := by
  have limit : Address.limit = 2 ^ 64 := rfl
  unfold slice Address.slice Address.reach
  by_cases inside : offset + width < Address.limit
  · simp only [if_pos inside, Nat.le_add_right, true_and]
    split <;> rfl
  · -- the capped end lies past every buffer
    have last : Address.last = 2 ^ 64 - 1 := rfl
    simp only [if_neg inside]
    rw [if_neg (by omega), if_neg (by omega)]
    rfl

theorem decode_eq (order : ByteOrder) (bytes : Bytes) :
    decode order bytes = .ok (order.decode bytes) := by
  have step : shiftIn = fun word byte => pure (ByteOrder.shiftIn word byte) := rfl
  cases order <;> simp only [decode, ByteOrder.decode, step, List.foldlM_pure] <;> rfl

theorem read_eq (small : data.size < 2 ^ 63) (format : IntFormat) :
    read format data offset = report (format.read data offset) :=
  bind_eq_report (slice_eq small _) fun bytes _ => decode_eq _ bytes

theorem signExtend_eq {bits : Nat} (positive : 0 < bits) (bounded : bits ≤ 64) (word : UInt64) :
    signExtend word bits = .ok (Bits.signExtend word bits) := by
  have shift : 64 - bits < 64 := by omega
  rw [signExtend, sub_eq bounded, ok_bind, shiftLeft, if_pos shift, ok_bind, shiftRight,
    if_pos shift]
  rfl

theorem ofWord_eq (format : IntFormat) (word : UInt64) :
    ofWord format word = .ok (format.ofWord word) := by
  have positive := format.width.bytes_pos
  have bounded := format.width.bytes_le
  unfold ofWord IntFormat.ofWord
  cases format.signed with
  | false => rfl
  | true =>
      have bits : mul format.bytes 8 = .ok format.width.bits := by
        rw [mul_eq, IntWidth.bits, IntFormat.bytes, Nat.mul_comm]
        have limit : Address.limit = 2 ^ 64 := rfl
        have word : ByteOrder.wordBytes = 8 := rfl
        rw [IntFormat.bytes]
        omega
      have word : ByteOrder.wordBytes = 8 := rfl
      simp only [if_true, bits, ok_bind]
      exact signExtend_eq (by rw [IntWidth.bits]; omega) (by rw [IntWidth.bits]; omega) _

/-- A signed number is in the range of a signed word. -/
theorem signed?_ofWord {format : IntFormat} (signed : format.signed = true) (word : UInt64) :
    signed? (format.ofWord word) = some (format.ofWord word) := by
  unfold signed? IntFormat.ofWord
  rw [if_pos signed, if_pos]
  exact ⟨Int64.minValue_le_toInt _, Int64.toInt_le _⟩

theorem readBit_eq (bytes : Bytes) {position : Nat} (room : position / 8 + 1 < Address.limit) :
    readBit bytes position = report (Bits.read bytes position) := by
  have bit : position % 8 < 8 := Nat.mod_lt _ (by decide)
  rw [readBit, add_eq room, ok_bind, Bits.read]
  cases bytes[position / 8]? with
  | none => rfl
  | some byte =>
      simp only
      rw [sub_eq (by omega), ok_bind, shiftByte, if_pos (by omega)]
      rfl

theorem bit_room (bit : UInt64) : bit.toNat / 8 + 1 < Address.limit := by
  have word : bit.toNat < 2 ^ 64 := bit.toNat_lt
  have limit : Address.limit = 2 ^ 64 := rfl
  omega

theorem readFlag_eq (small : data.size < 2 ^ 63) (mask : Mask) (name : String) :
    readFlag mask data offset name = report (mask.read data offset name) := by
  unfold readFlag Mask.read Mask.indexOf?
  cases found : mask.flags.findIdx? (·.name == name) with
  | none =>
      rw [find?_of_findIdx?_eq_none found]
      rfl
  | some index =>
      obtain ⟨flag, there, same⟩ := exists_of_findIdx?_eq_some found
      simp only [same]
      refine bind_eq_report (slice_eq small _) fun bytes _ => ?_
      rw [entry_eq there, ok_bind]
      exact readBit_eq bytes (bit_room _)

theorem readFlags_eq (small : data.size < 2 ^ 63) (mask : Mask) :
    readFlags mask data offset = report (mask.readAll data offset) := by
  refine bind_eq_report (slice_eq small _) fun bytes _ => ?_
  have each : storedFlag bytes = fun flag => pure (flag.name, Mask.stored bytes flag) := by
    funext flag
    rw [storedFlag, readBit_eq bytes (bit_room _), settle_report, ok_bind, Mask.stored]
    cases Bits.read bytes flag.bit.toNat <;> rfl
  rw [each, List.mapM_pure]
  rfl

end Integers

/-! ### Walks -/

section Walks

variable {data : Buffer} {offset : Nat}

theorem count_eq (small : data.size < 2 ^ 63) (length : ArrayLength IntFormat) :
    count length data offset = report (length.count data offset) := by
  cases length with
  | fixed count => rfl
  | bounded capacity counter =>
      refine bind_eq_report (read_eq small counter) fun stored _ => ?_
      split <;> rfl

theorem start_eq (address : offset < Address.limit) (length : ArrayLength IntFormat) :
    start length data offset = report (length.start data offset) := by
  cases length with
  | fixed count =>
      rw [start, ArrayLength.counterWidth, Address.advance_zero address]
      rfl
  | bounded capacity counter => rfl

theorem firstElement_eq (length : ArrayLength IntFormat) :
    firstElement length data offset = report (length.start data offset) := by
  cases length <;> rfl

/-- Walks in step with each other stay in step. -/
theorem passTimes_eq {step : Nat → Run Nat} {walk : Nat → Except ReadError Nat}
    (each : ∀ position < Address.limit, step position = report (walk position))
    (ends : ∀ position next, walk position = .ok next → next < Address.limit)
    (times : Nat) {position : Nat} (address : position < Address.limit) :
    passTimes step times position = report (walkTimes walk times position) := by
  induction times generalizing position with
  | zero => rfl
  | succ times ih =>
      refine bind_eq_report (each position address) fun next found => ?_
      exact ih (ends position next found)

theorem passFields_eq {fields : List Field}
    (members : ∀ field ∈ fields, ∀ position < Address.limit,
      encodedLength data field.layout position = report (field.layout.extent data position))
    {position : Nat} (address : position < Address.limit) :
    passFields data fields position = report (walkFields data fields position) := by
  induction fields generalizing position with
  | nil => rfl
  | cons field rest ih =>
      obtain ⟨name, layout⟩ := field
      rw [List.forall_mem_cons] at members
      rw [passFields, walkFields]
      refine bind_eq_report (members.1 position address) fun length _ => ?_
      refine bind_eq_report rfl fun next advanced => ?_
      exact ih members.2 (Address.advance_lt advanced)

theorem payloadLengths_eq_map (data : Buffer) (variants : List Variant) :
    payloadLengths data variants = variants.map (encodedLength data ·.layout) := by
  induction variants with
  | nil => rfl
  | cons variant rest ih =>
      obtain ⟨name, key, layout⟩ := variant
      rw [payloadLengths, ih, List.map_cons]

theorem widthOr_eq {fixed : Run (Option Nat)} {width? : Option Nat} {walk : Run Nat}
    {length : Except ReadError Nat} (same : fixed = .ok width?)
    (known : ∀ width, width? = some width → length = .ok width)
    (unknown : width? = none → walk = report length) : widthOr fixed walk = report length := by
  rw [widthOr, same, ok_bind]
  cases width? with
  | none => exact unknown rfl
  | some width =>
      rw [known width rfl]
      rfl

/-- **Lengths on machine words are lengths**, and finding them does not trap. -/
theorem encodedLength_eq (small : data.size < 2 ^ 63) {layout : Layout} (all : layout.AllFit)
    (address : offset < Address.limit) :
    encodedLength data layout offset = report (layout.extent data offset) := by
  induction layout generalizing offset with
  | int format | enum enumeration | mask mask | constant format value | derived format expr => rfl
  | struct fields ih =>
      rw [encodedLength]
      refine widthOr_eq (fixedWidth_eq all)
        (fun width known => Layout.extent_of_width? known data offset) fun unknown => ?_
      rw [Layout.extent]
      simp only [unknown]
      have walked : passFields data fields offset = report (walkFields data fields offset) :=
        passFields_eq (fun field inside _ => ih field inside (all.member inside)) address
      refine bind_eq_report walked fun stop found => ?_
      exact sub_eq (walkFields_bounds address found).1
  | array element length ih =>
      rw [encodedLength]
      refine widthOr_eq (fixedWidth_eq all)
        (fun width known => Layout.extent_of_width? known data offset) fun unknown => ?_
      rw [Layout.extent]
      simp only [unknown]
      refine bind_eq_report (count_eq small length) fun count _ => ?_
      refine bind_eq_report (firstElement_eq length) fun start found => ?_
      obtain ⟨before, inside⟩ := ArrayLength.start_bounds address found
      have each : ∀ position < Address.limit,
          (do report (Address.advance data position (← encodedLength data element position))) =
            report (element.behind data position) := fun position address =>
        bind_eq_report (ih all.element address) fun _ _ => rfl
      have walked := passTimes_eq each (fun _ _ found => (Layout.behind_bounds found).2) count inside
      refine bind_eq_report walked fun stop found => ?_
      exact sub_eq (Nat.le_trans before (walkTimes_bounds inside found).1)
  | view key variants ih =>
      rw [encodedLength]
      refine widthOr_eq (fixedWidth_eq all)
        (fun width known => Layout.extent_of_width? known data offset) fun unknown => ?_
      rw [Layout.extent]
      simp only [unknown]
      refine bind_eq_report (read_eq small key) fun stored _ => ?_
      rw [Layout.payloadExtent_eq]
      unfold Variant.indexOfKey?
      cases found : variants.findIdx? (·.key == stored) with
      | none =>
          rw [find?_of_findIdx?_eq_none found]
          rfl
      | some index =>
          obtain ⟨variant, there, selected⟩ := exists_of_findIdx?_eq_some found
          have inside := List.mem_of_find?_eq_some selected
          have length : entry (payloadLengths data variants) index =
              .ok (encodedLength data variant.layout) := by
            apply entry_eq
            rw [payloadLengths_eq_map, List.getElem?_map, there]
            rfl
          simp only [selected, bind_assoc]
          refine bind_eq_report rfl fun payload advanced => ?_
          rw [length, ok_bind]
          exact bind_eq_report (ih variant inside (all.payload inside) (Address.advance_lt advanced))
            fun _ _ => rfl

theorem behind_eq (small : data.size < 2 ^ 63) {layout : Layout} (all : layout.AllFit)
    (address : offset < Address.limit) :
    behind data layout offset = report (layout.behind data offset) :=
  bind_eq_report (encodedLength_eq small all address) fun _ _ => rfl

/-- **Offsets of members on machine words are offsets.** -/
theorem fieldOffset_eq (small : data.size < 2 ^ 63) {fields : List Field}
    (all : (Layout.struct fields).AllFit) {index : Nat} (inside : index < fields.length) :
    fieldOffset data fields index offset = report (locateField data fields index offset) := by
  have count : (knownOffsets fields).length = fields.length := by
    rw [knownOffsets, length_offsetsFrom, fieldWidths_eq_map, List.length_map]
  have known := getElem?_knownOffsets inside
  unfold fieldOffset locateField
  rw [entry_eq known, ok_bind, known]
  cases totalWidth? (fieldWidths (fields.take index)) with
  | some width => rfl
  | none =>
      have front : range (knownOffsets fields) 0 index = .ok ((knownOffsets fields).take index) :=
        range_eq (Nat.zero_le _) (by omega)
      have same : lastKnown ((knownOffsets fields).take index) index =
          lastKnown (knownOffsets fields) index := by
        rw [lastKnown, List.take_take, Nat.min_self, lastKnown]
      simp only [front, ok_bind, same]
      cases last : lastKnown (knownOffsets fields) index with
      | mk start width =>
          obtain ⟨before, -⟩ := lastKnown_spec (Nat.le_of_lt inside) last
          refine bind_eq_report rfl fun position advanced => ?_
          simp only
          rw [range_eq before (Nat.le_of_lt inside), ok_bind]
          refine passFields_eq (fun field member _ address => ?_) (Address.advance_lt advanced)
          exact encodedLength_eq small
            (all.member (List.mem_of_mem_take (List.mem_of_mem_drop member))) address

end Walks

end Machine

/-! ### Safe positions -/

namespace Reader

/-- **A safe position**: its layout has had its sizes checked, it is an address, and the data are no
larger than memory. -/
structure Safe (reader : Reader) : Prop where
  fit : reader.layout.AllFit
  small : reader.data.size < 2 ^ 63
  address : reader.offset < Address.limit

variable {reader : Reader}

theorem Safe.step {next : Reader} {step : Step} (safe : reader.Safe)
    (reached : reader.step step = .ok next) : next.Safe := by
  obtain ⟨data, part, address⟩ := leads_of_step safe.address reached
  exact ⟨safe.fit.part part, data ▸ safe.small, address⟩

theorem asStruct_eq_ok {fields : List Field} (struct : reader.asStruct = .ok fields) :
    reader.layout = .struct fields := by
  unfold asStruct at struct
  split at struct
  · rename_i same
    cases struct
    exact same
  · cases struct

theorem asArray_eq_ok {array : Layout × ArrayLength IntFormat}
    (found : reader.asArray = .ok array) : reader.layout = .array array.1 array.2 := by
  unfold asArray at found
  split at found
  · rename_i same
    cases found
    exact same
  · cases found

/-- The elements still to come start at an address, and their layout has been checked. -/
structure Elements.Safe (elements : Elements) : Prop where
  fit : elements.layout.AllFit
  small : elements.data.size < 2 ^ 63
  address : elements.position < Address.limit

theorem Safe.elements {elements : Elements} (safe : reader.Safe)
    (found : reader.elements = .ok elements) : elements.Safe := by
  obtain ⟨array, isArray, found⟩ := bind_eq_ok_iff.mp found
  obtain ⟨count, -, found⟩ := bind_eq_ok_iff.mp found
  obtain ⟨start, begins, same⟩ := bind_eq_ok_iff.mp found
  cases same
  have fit := safe.fit
  rw [asArray_eq_ok isArray] at fit
  exact ⟨fit.element, safe.small, (ArrayLength.start_bounds safe.address begins).2⟩

/-- An element is read at a safe position, and what is behind it is safe. -/
theorem Elements.Safe.next? {elements rest : Elements} {item : Except ReadError Reader}
    (safe : elements.Safe) (found : elements.next? = some (item, rest)) :
    (∀ reader, item = .ok reader → reader.Safe) ∧ rest.Safe := by
  unfold Elements.next? at found
  split at found
  · cases found
  · split at found
    · rename_i position behind
      cases found
      refine ⟨fun reader same => ?_, safe.fit, safe.small, (Layout.behind_bounds behind).2⟩
      cases same
      exact ⟨safe.fit, safe.small, safe.address⟩
    · cases found
      exact ⟨nofun, safe.fit, safe.small, safe.address⟩

end Reader

namespace Machine

/-! ### Steps -/

section Steps

variable {reader : Reader}

theorem field_eq (safe : reader.Safe) (name : String) :
    field reader name = report (reader.field name) := by
  refine bind_eq_report rfl fun fields struct => ?_
  have fit := safe.fit
  rw [Reader.asStruct_eq_ok struct] at fit
  cases found : Field.indexOf? fields name with
  | none => rfl
  | some index =>
      obtain ⟨member, there, -⟩ := exists_of_findIdx?_eq_some found
      have inside := (List.getElem?_eq_some_iff.mp there).1
      simp only [there]
      rw [entry_eq there, ok_bind]
      exact bind_eq_report (fieldOffset_eq safe.small fit inside) fun _ _ => rfl

theorem element_eq (safe : reader.Safe) (index : Nat) :
    element reader index = report (reader.element index) := by
  refine bind_eq_report rfl fun array isArray => ?_
  have fit := safe.fit
  rw [Reader.asArray_eq_ok isArray] at fit
  refine bind_eq_report (count_eq safe.small _) fun count _ => ?_
  by_cases beyond : count ≤ index
  · rw [if_pos beyond, if_pos beyond]
    rfl
  · rw [if_neg beyond, if_neg beyond]
    refine bind_eq_report (start_eq safe.address _) fun start begins => ?_
    have address := (ArrayLength.start_bounds safe.address begins).2
    rw [fixedWidth_eq fit.element, ok_bind]
    cases array.1.width? with
    | some width => exact bind_eq_report rfl fun _ _ => rfl
    | none =>
        refine bind_eq_report ?_ fun _ _ => rfl
        exact passTimes_eq (fun _ => behind_eq safe.small fit.element)
          (fun _ _ found => (Layout.behind_bounds found).2) index address

theorem elements_eq (safe : reader.Safe) : elements reader = report reader.elements := by
  refine bind_eq_report rfl fun array _ => ?_
  refine bind_eq_report (count_eq safe.small _) fun count _ => ?_
  exact bind_eq_report (start_eq safe.address _) fun _ _ => rfl

theorem next?_eq {elements : Reader.Elements} (safe : elements.Safe) :
    next? elements = .ok elements.next? := by
  unfold next? Reader.Elements.next?
  cases remaining : elements.remaining with
  | zero => rfl
  | succ count =>
      rw [if_neg (Nat.succ_ne_zero count), sub_eq (Nat.succ_pos count), ok_bind,
        behind_eq safe.small safe.fit safe.address, settle_report, ok_bind]
      cases elements.layout.behind elements.data elements.position <;> rfl

theorem readKey_eq {data : Buffer} (small : data.size < 2 ^ 63) (name : String) (key : IntFormat)
    (offset : Nat) :
    readKey data name key offset = report (RecordLayout.readKey data name key offset) := by
  unfold readKey RecordLayout.readKey
  split
  · rfl
  · exact read_eq small key

theorem payload_eq {key : IntFormat} {variants : List Variant} {variant : Variant} {index : Nat}
    (there : variants[index]? = some variant) :
    payload reader key variants index = report (reader.payloadAs key variant) := by
  rw [payload, entry_eq there, ok_bind]
  exact bind_eq_report rfl fun _ _ => rfl

theorem variant_eq (safe : reader.Safe) (requested : UInt64) :
    variant reader requested = report (reader.variant requested) := by
  refine bind_eq_report rfl fun view _ => ?_
  obtain ⟨key, variants⟩ := view
  unfold Variant.indexOfKey?
  cases found : variants.findIdx? (·.key == requested) with
  | none =>
      simp only [find?_of_findIdx?_eq_none found]
      rfl
  | some index =>
      obtain ⟨chosen, there, same⟩ := exists_of_findIdx?_eq_some found
      simp only [same]
      refine bind_eq_report (readKey_eq safe.small ..) fun stored _ => ?_
      by_cases other : stored ≠ requested
      · rw [if_pos other, if_pos other]
        have known : (variants.findIdx? (·.key == stored)).isNone = !variants.any (·.key == stored) := by
          rw [← List.findIdx?_isSome, Option.not_isSome]
        rw [known]
        cases variants.any (·.key == stored) <;> rfl
      · rw [if_neg other, if_neg other]
        exact payload_eq there

theorem variantNamed_eq (safe : reader.Safe) (name : String) :
    variantNamed reader name = report (reader.variantNamed name) := by
  refine bind_eq_report rfl fun view _ => ?_
  obtain ⟨key, variants⟩ := view
  unfold Variant.indexOfName?
  cases found : variants.findIdx? (·.name == name) with
  | none =>
      simp only [find?_of_findIdx?_eq_none found]
      rfl
  | some index =>
      obtain ⟨chosen, there, same⟩ := exists_of_findIdx?_eq_some found
      simp only [same]
      rw [entry_eq there, ok_bind]
      exact variant_eq safe chosen.key

theorem active_eq (safe : reader.Safe) : active reader = report reader.active := by
  refine bind_eq_report rfl fun view _ => ?_
  refine bind_eq_report (readKey_eq safe.small ..) fun stored _ => ?_
  unfold Variant.indexOfKey?
  cases found : view.2.findIdx? (·.key == stored) with
  | none =>
      rw [find?_of_findIdx?_eq_none found]
      rfl
  | some index =>
      obtain ⟨chosen, there, same⟩ := exists_of_findIdx?_eq_some found
      simp only [same]
      exact bind_eq_report (payload_eq there) fun _ _ => rfl

/-- **A step on machine words is a step.** -/
theorem step_eq (safe : reader.Safe) (step : Reader.Step) :
    Machine.step reader step = report (reader.step step) := by
  cases step with
  | member name => exact field_eq safe name
  | element index => exact element_eq safe index
  | key value => exact variant_eq safe value
  | variant name => exact variantNamed_eq safe name
  | active => exact bind_eq_report (active_eq safe) fun _ _ => rfl

end Steps

/-! ### Values -/

section Values

variable {data : Buffer} {reader : Reader}

theorem number_eq (small : reader.data.size < 2 ^ 63) : number reader = report reader.number := by
  obtain ⟨data, name, layout, offset⟩ := reader
  cases layout with
  | int format => exact bind_eq_report (read_eq small format) fun word _ => ofWord_eq format word
  | enum enumeration => exact bind_eq_report (read_eq small _) fun _ _ => rfl
  | constant format value => exact bind_eq_report (read_eq small _) fun _ _ => rfl
  | derived format expr =>
      exact bind_eq_report (read_eq small format) fun word _ => ofWord_eq format word
  | _ => rfl

theorem unsigned_eq (small : reader.data.size < 2 ^ 63) :
    unsigned reader = report reader.unsigned := by
  refine bind_eq_report (number_eq small) fun value _ => ?_
  cases unsigned? value <;> rfl

theorem signed_eq (small : reader.data.size < 2 ^ 63) : signed reader = report reader.signed := by
  refine bind_eq_report (number_eq small) fun value _ => ?_
  cases signed? value <;> rfl

theorem readEnum_eq (small : data.size < 2 ^ 63) (enumeration : Enumeration) (offset : Nat) :
    readEnum enumeration data offset = report (enumeration.read data offset) := by
  refine bind_eq_report (read_eq small _) fun word _ => ?_
  cases enumeration.nameOf? word <;> rfl

theorem intValue_eq (small : data.size < 2 ^ 63) (format : IntFormat) (name : String)
    (offset : Nat) :
    intValue format data name offset =
      report (do return format.value (← format.read data offset)) := by
  unfold intValue IntFormat.value
  cases isSigned : format.signed with
  | false => exact bind_eq_report (read_eq small format) fun _ _ => rfl
  | true =>
      have number : signed ⟨data, name, .int format, offset⟩ =
          report (do return format.ofWord (← format.read data offset)) := by
        rw [signed_eq small]
        unfold Reader.signed Reader.number
        simp only [bind_assoc, pure_bind, signed?_ofWord isSigned]
      simp only [if_true]
      rw [number]
      cases format.read data offset <;> rfl

/-- Collections in step with each other stay in step. -/
theorem collect_eq {α : Type} {step : Nat → Run (α × Nat)}
    {walk : Nat → Except ReadError (α × Nat)}
    (each : ∀ position < Address.limit, step position = report (walk position))
    (ends : ∀ position item, walk position = .ok item → item.2 < Address.limit)
    (times : Nat) {position : Nat} (address : position < Address.limit) :
    collect step times position = report (RecordLayout.collect walk times position) := by
  induction times generalizing position with
  | zero => rfl
  | succ times ih =>
      rw [collect, sub_eq (Nat.succ_pos times), ok_bind]
      refine bind_eq_report (each position address) fun item found => ?_
      exact bind_eq_report (ih (ends position item found)) fun _ _ => rfl

theorem payloadValues_eq_map (data : Buffer) (variants : List Variant) :
    payloadValues data variants =
      variants.map fun variant => value data variant.layout variant.name := by
  induction variants with
  | nil => rfl
  | cons variant rest ih =>
      obtain ⟨name, key, layout⟩ := variant
      rw [payloadValues, ih, List.map_cons]

theorem fieldValues_eq (small : data.size < 2 ^ 63) {fields : List Field}
    (fit : ∀ field ∈ fields, field.layout.AllFit)
    (members : ∀ field ∈ fields, ∀ name, ∀ position < Address.limit,
      value data field.layout name position = report (field.layout.decode data name position))
    {position : Nat} (address : position < Address.limit) :
    fieldValues data fields position = report (decodeFields data fields position) := by
  induction fields generalizing position with
  | nil => rfl
  | cons field rest ih =>
      obtain ⟨name, layout⟩ := field
      rw [List.forall_mem_cons] at fit members
      rw [fieldValues, decodeFields]
      refine bind_eq_report (members.1 name position address) fun _ _ => ?_
      refine bind_eq_report (behind_eq small fit.1 address) fun next behind => ?_
      exact bind_eq_report (ih fit.2 members.2 (Layout.behind_bounds behind).2) fun _ _ => rfl

/-- **Values on machine words are values.** -/
theorem value_eq (small : data.size < 2 ^ 63) {layout : Layout} (all : layout.AllFit)
    (name : String) {offset : Nat} (address : offset < Address.limit) :
    value data layout name offset = report (layout.decode data name offset) := by
  induction layout generalizing name offset with
  | int format => exact intValue_eq small format name offset
  | enum enumeration => exact bind_eq_report (readEnum_eq small enumeration offset) fun _ _ => rfl
  | mask mask => exact bind_eq_report (readFlags_eq small mask) fun _ _ => rfl
  | struct fields ih =>
      rw [value, Layout.decode]
      refine bind_eq_report ?_ fun _ _ => rfl
      exact fieldValues_eq small (fun _ => all.member)
        (fun field inside name _ => ih field inside (all.member inside) name) address
  | array element length ih =>
      rw [value, Layout.decode]
      refine bind_eq_report (count_eq small length) fun count _ => ?_
      refine bind_eq_report (start_eq address length) fun start begins => ?_
      refine bind_eq_report ?_ fun _ _ => rfl
      refine collect_eq (fun position address => ?_) (fun position item found => ?_) count
        (ArrayLength.start_bounds address begins).2
      · refine bind_eq_report (behind_eq small all.element address) fun next _ => ?_
        exact bind_eq_report (ih all.element name address) fun _ _ => rfl
      · obtain ⟨next, behind, found⟩ := bind_eq_ok_iff.mp found
        obtain ⟨_, -, same⟩ := bind_eq_ok_iff.mp found
        cases same
        exact (Layout.behind_bounds behind).2
  | view key variants ih =>
      rw [value, Layout.decode]
      refine bind_eq_report (readKey_eq small name key offset) fun stored _ => ?_
      rw [decodePayload_eq]
      unfold Variant.indexOfKey?
      cases found : variants.findIdx? (·.key == stored) with
      | none =>
          rw [find?_of_findIdx?_eq_none found]
          rfl
      | some index =>
          obtain ⟨variant, there, selected⟩ := exists_of_findIdx?_eq_some found
          have inside := List.mem_of_find?_eq_some selected
          have content : entry (payloadValues data variants) index =
              .ok (value data variant.layout variant.name) := by
            apply entry_eq
            rw [payloadValues_eq_map, List.getElem?_map, there]
            rfl
          simp only [selected, bind_assoc]
          rw [entry_eq there, ok_bind]
          refine bind_eq_report rfl fun position advanced => ?_
          rw [content, ok_bind]
          exact bind_eq_report (ih variant inside (all.payload inside) variant.name
            (Address.advance_lt advanced)) fun _ _ => rfl
  | constant format value => exact bind_eq_report (read_eq small format) fun _ _ => rfl
  | derived format expr => exact intValue_eq small format name offset

end Values

/-! ### Chains -/

/-- **An answer on machine words is an answer.** -/
theorem answer_eq {reader : Reader} (safe : reader.Safe) (query : Query) :
    answer reader query = report (reader.answer query) := by
  have small := safe.small
  cases query with
  | number => exact bind_eq_report (number_eq small) fun _ _ => rfl
  | unsigned => exact bind_eq_report (unsigned_eq small) fun _ _ => rfl
  | signed => exact bind_eq_report (signed_eq small) fun _ _ => rfl
  | enumName =>
      obtain ⟨data, name, layout, offset⟩ := reader
      cases layout with
      | enum enumeration =>
          exact bind_eq_report (readEnum_eq small enumeration offset) fun _ _ => rfl
      | _ => rfl
  | flag name =>
      rw [answer, Reader.answer, Reader.flag, bind_assoc]
      refine bind_eq_report rfl fun mask _ => ?_
      exact bind_eq_report (readFlag_eq small mask name) fun _ _ => rfl
  | flags =>
      refine bind_eq_report rfl fun mask _ => ?_
      exact bind_eq_report (readFlags_eq small mask) fun _ _ => rfl
  | count =>
      rw [answer, Reader.answer, Reader.count, bind_assoc]
      refine bind_eq_report rfl fun array _ => ?_
      exact bind_eq_report (count_eq small _) fun _ _ => rfl
  | key =>
      rw [answer, Reader.answer, Reader.key, bind_assoc]
      refine bind_eq_report rfl fun view _ => ?_
      exact bind_eq_report (readKey_eq small ..) fun _ _ => rfl
  | size =>
      rw [answer, Reader.answer, Reader.size, bind_assoc]
      refine bind_eq_report rfl fun fields struct => ?_
      have length := encodedLength_eq safe.small safe.fit safe.address
      rw [Reader.asStruct_eq_ok struct, encodedLength] at length
      rw [Reader.extent, Reader.asStruct_eq_ok struct]
      exact bind_eq_report length fun _ _ => rfl
  | span name =>
      rw [answer, Reader.answer, Reader.span]
      simp only [bind_assoc, pure_bind]
      refine bind_eq_report (field_eq safe name) fun member found => ?_
      have reached : reader.step (.member name) = .ok member := found
      have inside := safe.step reached
      refine bind_eq_report (encodedLength_eq inside.small inside.fit inside.address) fun _ _ => ?_
      exact bind_eq_report rfl fun _ _ => rfl
  | extent => exact bind_eq_report (encodedLength_eq small safe.fit safe.address) fun _ _ => rfl
  | value => exact bind_eq_report (value_eq small safe.fit _ safe.address) fun _ _ => rfl

end Machine

/-- What a chain of operations holds is safe. -/
def Handle.Safe : Handle → Prop
  | .value reader => reader.Safe
  | .iterator elements => elements.Safe
  | .ended => True

/-- **One operation of a chain leads to what is safe.** -/
theorem Handle.Safe.move {handle next : Handle} {move : Move} (safe : handle.Safe)
    (moved : handle.move move = .ok next) : next.Safe := by
  cases handle with
  | ended =>
      cases moved
      trivial
  | value reader =>
      cases move with
      | step step =>
          obtain ⟨part, reached, same⟩ := bind_eq_ok_iff.mp moved
          cases same
          exact Reader.Safe.step safe reached
      | iterate =>
          obtain ⟨elements, found, same⟩ := bind_eq_ok_iff.mp moved
          cases same
          exact Reader.Safe.elements safe found
      | item | pass =>
          cases moved
          trivial
  | iterator elements =>
      cases move with
      | step step | iterate =>
          cases moved
          trivial
      | item =>
          rw [Handle.move] at moved
          cases found : elements.next? with
          | none =>
              rw [found] at moved
              cases moved
              trivial
          | some item =>
              rw [found] at moved
              obtain ⟨reader, same, ends⟩ := bind_eq_ok_iff.mp moved
              cases ends
              exact (Reader.Elements.Safe.next? safe found).1 reader same
      | pass =>
          rw [Handle.move] at moved
          cases found : elements.next? with
          | none =>
              rw [found] at moved
              cases moved
              trivial
          | some item =>
              rw [found] at moved
              cases moved
              exact (Reader.Elements.Safe.next? safe found).2

namespace Machine

/-- **One operation of a chain on machine words is that operation.** -/
theorem move_eq {handle : Handle} (safe : handle.Safe) (move : Move) :
    Machine.move handle move = report (handle.move move) := by
  cases handle with
  | ended => rfl
  | value reader =>
      cases move with
      | step step => exact bind_eq_report (step_eq safe step) fun _ _ => rfl
      | iterate => exact bind_eq_report (elements_eq safe) fun _ _ => rfl
      | item | pass => rfl
  | iterator elements =>
      cases move with
      | step step | iterate => rfl
      | item =>
          rw [Machine.move, next?_eq safe, ok_bind, Handle.move]
          cases elements.next? with
          | none => rfl
          | some item => exact bind_eq_report rfl fun _ _ => rfl
      | pass =>
          rw [Machine.move, next?_eq safe, ok_bind, Handle.move]
          cases elements.next? <;> rfl

/-- A chain of operations on machine words is that chain, and what it ends with is safe. -/
theorem moves_eq {handle : Handle} (safe : handle.Safe) (moves : List Move) :
    moves.foldlM Machine.move handle = report (moves.foldlM Handle.move handle) ∧
      ∀ last, moves.foldlM Handle.move handle = .ok last → last.Safe := by
  induction moves generalizing handle with
  | nil =>
      refine ⟨rfl, fun last same => ?_⟩
      cases same
      exact safe
  | cons move rest ih =>
      rw [List.foldlM_cons, List.foldlM_cons]
      refine ⟨bind_eq_report (move_eq safe move) fun next moved => (ih (safe.move moved)).1,
        fun last found => ?_⟩
      obtain ⟨next, moved, found⟩ := bind_eq_ok_iff.mp found
      exact (ih (safe.move moved)).2 last found

end Machine

/-- **Reading never traps.** For every compiled record, all data and every base address, a chain of
operations on machine words has the outcome of the library: a result, or an error. -/
theorem Schema.reading_never_traps {specs : List FieldSpec} {order : ByteOrder} {schema : Schema}
    (compiled : Schema.compile specs order = .ok schema) (data : Buffer)
    (small : data.size < 2 ^ 63) (base : Nat) (address : base < 2 ^ 64) (moves : List Move)
    (query : Query) :
    let root : Handle := .value (schema.readerAt data base)
    Machine.ask root moves query = Machine.report (root.ask moves query) := by
  intro root
  have safe : root.Safe := by
    have fit := Schema.fits_of_compile compiled
    exact ⟨fit, small, address⟩
  obtain ⟨same, ends⟩ := Machine.moves_eq safe moves
  refine Machine.bind_eq_report same fun last found => ?_
  cases last with
  | value reader => exact Machine.bind_eq_report (Machine.answer_eq (ends _ found) query) fun _ _ => rfl
  | iterator elements => rfl
  | ended => rfl

theorem Schema.reading_never_traps_samplePacket :
    let data : Buffer := #[0, 8, 2, 1, 255]
    let base : Nat := 18446744073709551613
    let root : Handle := .value (sampleSchema.readerAt data base)
    Schema.compile samplePacket .big = .ok sampleSchema ∧ data.size < 2 ^ 63 ∧ base < 2 ^ 64 ∧
      Machine.ask root [.step (.member "items"), .iterate, .item] .number =
        Machine.refuse (.notEnoughData 18446744073709551615 5) := by
  refine ⟨compile_samplePacket, by decide, by decide, ?_⟩
  exact Schema.reading_never_traps compile_samplePacket #[0, 8, 2, 1, 255] (by decide)
    18446744073709551613 (by decide) [.step (.member "items"), .iterate, .item] .number

end RecordLayout
