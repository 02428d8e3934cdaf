/-
**Decoding loses undeclared bits and nothing else.**

A value says which bytes it was decoded from, up to the bits of masks that no flag declares. Integers
say their bytes, whatever the byte order and the sign; an enumeration says its word by a name that no
other word has; an array says its count by the number of its elements, and a view its key. So every
part says how long it is, and the next part starts at the same distance in both strings.

* `Reader.Undeclared`: the position of a bit that no flag declares, by a path to its mask.
* `Agree`: two places at which strings have the same bits, except for those that are free.
* `Layout.determined`: **one value, one string of bytes**, by induction over the layout.
* `Schema.parse_injective`: whole records; if every mask declares all its bits, the strings are equal.
-/

import RecordLayout.Proofs.BitString
import RecordLayout.Proofs.Locality

namespace RecordLayout

/-! ### Bits that no flag declares -/

namespace Reader

variable {reader inner : Reader} {position : Nat}

/-- The position is that of a bit in a mask, somewhere in the value, and no flag of the mask declares
the bit. -/
def Undeclared (reader : Reader) (position : Nat) : Prop :=
  ∃ path inner mask bit, reader.along path = .ok inner ∧ inner.layout = .mask mask ∧
    bit < 8 * mask.width ∧ (∀ flag ∈ mask.flags, flag.bit.toNat ≠ bit) ∧
    position = 8 * inner.offset + bit

/-- The undeclared bits of a part are undeclared bits of the whole. -/
theorem Undeclared.of_step (undeclared : inner.Undeclared position) (step : Step)
    (stepped : reader.step step = .ok inner) : reader.Undeclared position := by
  obtain ⟨path, part, mask, bit, led, rest⟩ := undeclared
  refine ⟨step :: path, part, mask, bit, ?_, rest⟩
  rw [along, List.foldlM_cons, stepped]
  exact led

/-- A path leads to a part of the layout. -/
theorem contains_along {path : List Step} (address : reader.offset < Address.limit)
    (led : reader.along path = .ok inner) : reader.layout.Contains inner.layout := by
  induction path generalizing reader with
  | nil =>
      cases led
      exact .refl _
  | cons step rest ih =>
      rw [along, List.foldlM_cons] at led
      obtain ⟨middle, stepped, later⟩ := bind_eq_ok_iff.mp led
      have leads := leads_of_step address stepped
      exact leads.part.trans (ih leads.address later)

/-- Where every mask declares all its bits, no bit is undeclared. -/
theorem not_undeclared (address : reader.offset < Address.limit)
    (full : ∀ mask, reader.layout.Contains (.mask mask) →
      ∀ bit < 8 * mask.width, ∃ flag ∈ mask.flags, flag.bit.toNat = bit) :
    ¬reader.Undeclared position := by
  rintro ⟨path, inner, mask, bit, led, layout, inside, undeclared, -⟩
  have part := contains_along address led
  rw [layout] at part
  obtain ⟨flag, declared, same⟩ := full mask part bit inside
  exact undeclared flag declared same

end Reader

/-! ### Strings that agree -/

/-- The bits of a chunk are bits of the buffer that holds it. -/
theorem Holds.read_bit {data : Buffer} {offset bit : Nat} {chunk : Bytes}
    (held : Holds data offset chunk) (inside : bit < 8 * chunk.length) :
    Bits.read data.toList (8 * offset + bit) = Bits.read chunk bit := by
  obtain ⟨before, after, split, rfl⟩ := held
  rw [split, List.append_assoc, Bits.read_append_right (by rw [List.length_append]; omega),
    Bits.read_append_left inside]

/-- From `offset` on in `data` and from `place` on in `other` there are `length` bytes that have the
same bits, except where a position in `data` is free. -/
structure Agree (free : Nat → Prop) (data other : Buffer) (offset place length : Nat) : Prop where
  inside : offset + length ≤ data.size
  insideToo : place + length ≤ other.size
  bits : ∀ bit < 8 * length, ¬free (8 * offset + bit) →
    Bits.read data.toList (8 * offset + bit) = Bits.read other.toList (8 * place + bit)

section Agree

variable {free wider : Nat → Prop} {data other : Buffer} {offset place length : Nat}

namespace Agree

theorem nothing (inside : offset ≤ data.size) (insideToo : place ≤ other.size) :
    Agree free data other offset place 0 :=
  ⟨inside, insideToo, fun _ impossible => absurd impossible (by omega)⟩

/-- One chunk in two places. -/
theorem of_holds {chunk : Bytes} (held : Holds data offset chunk) (heldToo : Holds other place chunk) :
    Agree free data other offset place chunk.length :=
  ⟨held.bound, heldToo.bound, fun bit inside _ => by
    rw [held.read_bit inside, heldToo.read_bit inside]⟩

theorem mono (agree : Agree free data other offset place length)
    (covers : ∀ position, free position → wider position) :
    Agree wider data other offset place length :=
  ⟨agree.inside, agree.insideToo, fun bit inside fixed =>
    agree.bits bit inside fun loose => fixed (covers _ loose)⟩

/-- Strings that agree, one behind the other. -/
theorem append {more : Nat} (agree : Agree free data other offset place length)
    (later : Agree free data other (offset + length) (place + length) more) :
    Agree free data other offset place (length + more) := by
  refine ⟨Nat.add_assoc .. ▸ later.inside, Nat.add_assoc .. ▸ later.insideToo,
    fun bit inside fixed => ?_⟩
  by_cases early : bit < 8 * length
  · exact agree.bits bit early fixed
  · have shifted : 8 * offset + bit = 8 * (offset + length) + (bit - 8 * length) := by omega
    have shiftedToo : 8 * place + bit = 8 * (place + length) + (bit - 8 * length) := by omega
    rw [shifted] at fixed ⊢
    rw [shiftedToo]
    exact later.bits (bit - 8 * length) (by omega) fixed

/-- **One word, one string of bytes.** -/
theorem of_read {format : IntFormat} {word : UInt64} (found : format.read data offset = .ok word)
    (foundToo : format.read other place = .ok word) :
    Agree free data other offset place format.bytes := by
  obtain ⟨chunk, sliced, same⟩ := bind_eq_ok_iff.mp found
  obtain ⟨chunkToo, slicedToo, sameToo⟩ := bind_eq_ok_iff.mp foundToo
  obtain ⟨length, held⟩ := Holds.of_slice sliced
  obtain ⟨lengthToo, heldToo⟩ := Holds.of_slice slicedToo
  rw [pure_eq_ok_iff] at same sameToo
  have equal : chunk = chunkToo :=
    ByteOrder.eq_of_decode_eq (length.trans lengthToo.symm)
      (length ▸ format.width.bytes_le) (same.trans sameToo.symm)
  rw [← length]
  exact .of_holds held (equal ▸ heldToo)

end Agree

/-! ### Leaves -/

/-- The value that both buffers decode to says how long it is, and its bits but for the undeclared
ones. -/
def Layout.Determined (data other : Buffer) (layout : Layout) : Prop :=
  ∀ {name : String} {offset place length lengthToo : Nat} {value : Value},
    offset ≤ data.size → place ≤ other.size →
    Reads data layout name offset length value → Reads other layout name place lengthToo value →
    length = lengthToo ∧
      Agree (Reader.Undeclared ⟨data, name, layout, offset⟩) data other offset place length

theorem Reads.length_eq {layout : Layout} {name : String} {value : Value} {width : Nat}
    (reads : Reads data layout name offset length value) (fixed : layout.width? = some width) :
    length = width := by
  have extent := reads.extent
  rw [Layout.extent_of_width? fixed] at extent
  exact (Except.ok.inj extent).symm

/-- A layout whose value says a word. -/
theorem Layout.determined_of_word {layout : Layout} {format : IntFormat}
    (fixed : layout.width? = some format.bytes)
    (said : ∀ {name offset place value}, layout.decode data name offset = .ok value →
      layout.decode other name place = .ok value →
      ∃ word, format.read data offset = .ok word ∧ format.read other place = .ok word) :
    layout.Determined data other := by
  intro name offset place length lengthToo value _ _ reads readsToo
  obtain ⟨word, found, foundToo⟩ := said reads.decoded readsToo.decoded
  rw [reads.length_eq fixed, readsToo.length_eq fixed]
  exact ⟨rfl, .of_read found foundToo⟩

theorem IntFormat.read_lt {format : IntFormat} {word : UInt64}
    (found : format.read data offset = .ok word) : word.toNat < 2 ^ format.width.bits := by
  obtain ⟨chunk, sliced, same⟩ := bind_eq_ok_iff.mp found
  obtain ⟨length, -⟩ := Holds.of_slice sliced
  rw [pure_eq_ok_iff] at same
  have small : chunk.length ≤ ByteOrder.wordBytes := by
    rw [length]
    exact format.width.bytes_le
  have bound := format.order.toNat_decode_lt small
  rwa [same, length, IntFormat.bytes, ← IntWidth.pow_bits] at bound

/-- The value of an integer says its word. -/
theorem IntFormat.eq_of_value_eq {format : IntFormat} {word wordToo : UInt64}
    (held : word.toNat < 2 ^ format.width.bits) (heldToo : wordToo.toNat < 2 ^ format.width.bits)
    (same : format.value word = format.value wordToo) : word = wordToo := by
  unfold IntFormat.value at same
  split_ifs at same with signed
  · exact eq_of_ofWord_eq held heldToo (Value.signed.inj same)
  · exact Value.unsigned.inj same

/-- A layout whose value is made of a word, and of every word another. -/
theorem Layout.determined_of_value {layout : Layout} {format : IntFormat} {make : UInt64 → Value}
    (fixed : layout.width? = some format.bytes)
    (decodes : ∀ data name offset,
      layout.decode data name offset = do return make (← format.read data offset))
    (injective : ∀ {word wordToo : UInt64}, word.toNat < 2 ^ format.width.bits →
      wordToo.toNat < 2 ^ format.width.bits → make word = make wordToo → word = wordToo) :
    layout.Determined data other := by
  refine determined_of_word fixed fun {name offset place value} decoded decodedToo => ?_
  rw [decodes] at decoded decodedToo
  simp only [bind_eq_ok_iff, pure_eq_ok_iff] at decoded decodedToo
  obtain ⟨word, found, rfl⟩ := decoded
  obtain ⟨wordToo, foundToo, same⟩ := decodedToo
  cases injective (IntFormat.read_lt foundToo) (IntFormat.read_lt found) same
  exact ⟨word, found, foundToo⟩

/-- The name of an enumeration's value says the value. -/
theorem Enumeration.Valid.eq_of_nameOf? {enumeration : Enumeration} {word wordToo : UInt64}
    {name : String} (valid : enumeration.Valid) (named : enumeration.nameOf? word = some name)
    (namedToo : enumeration.nameOf? wordToo = some name) : word = wordToo := by
  have found := valid.valueOf?_eq_some_iff.mpr (mem_of_nameOf? named)
  have foundToo := valid.valueOf?_eq_some_iff.mpr (mem_of_nameOf? namedToo)
  exact Option.some.inj (found.symm.trans foundToo)

theorem Enumeration.read_eq_ok_iff {enumeration : Enumeration} {name : String} :
    enumeration.read data offset = .ok name ↔
      ∃ word, enumeration.format.read data offset = .ok word ∧
        enumeration.nameOf? word = some name := by
  rw [Enumeration.read, bind_eq_ok_iff]
  refine exists_congr fun word => and_congr_right fun _ => ?_
  cases enumeration.nameOf? word with
  | none => exact iff_of_false (by rintro ⟨⟩) (by rintro ⟨⟩)
  | some known => rw [pure_eq_ok_iff, Option.some.injEq]

/-- **The flags of a mask say its declared bits.** -/
theorem Mask.read_eq_of_stored_eq {mask : Mask} {bytes bytesToo : Bytes} {bit : Nat}
    (inside : bit < 8 * bytes.length) (insideToo : bit < 8 * bytesToo.length)
    (flags : mask.flags.map (fun flag => (flag.name, Mask.stored bytes flag)) =
      mask.flags.map fun flag => (flag.name, Mask.stored bytesToo flag))
    (declared : ∃ flag ∈ mask.flags, flag.bit.toNat = bit) :
    Bits.read bytes bit = Bits.read bytesToo bit := by
  obtain ⟨flag, member, rfl⟩ := declared
  have pair := List.map_inj_left.mp flags flag member
  have stored : Mask.stored bytes flag = Mask.stored bytesToo flag := congrArg Prod.snd pair
  unfold Mask.stored at stored
  rw [Bits.read_of_lt (by omega), Bits.read_of_lt (by omega)] at stored ⊢
  exact congrArg Except.ok stored

theorem Mask.determined (mask : Mask) : (Layout.mask mask).Determined data other := by
  intro name offset place length lengthToo value _ _ reads readsToo
  have width : length = mask.width := reads.length_eq rfl
  have widthToo : lengthToo = mask.width := readsToo.length_eq rfl
  have decoded := reads.decoded
  have decodedToo := readsToo.decoded
  simp only [Layout.decode, Mask.readAll, Mask.readBytes, bind_eq_ok_iff, pure_eq_ok_iff]
    at decoded decodedToo
  obtain ⟨_, ⟨bytes, sliced, rfl⟩, rfl⟩ := decoded
  obtain ⟨_, ⟨bytesToo, slicedToo, rfl⟩, flags⟩ := decodedToo
  obtain ⟨size, held⟩ := Holds.of_slice sliced
  obtain ⟨sizeToo, heldToo⟩ := Holds.of_slice slicedToo
  subst width widthToo
  refine ⟨rfl, size ▸ held.bound, sizeToo ▸ heldToo.bound, fun bit inside fixed => ?_⟩
  rw [held.read_bit (by omega), heldToo.read_bit (by omega)]
  refine Mask.read_eq_of_stored_eq (by omega) (by omega) (Value.mask.inj flags).symm ?_
  -- a bit without a flag would be free
  by_contra undeclared
  refine fixed ⟨[], _, mask, bit, rfl, rfl, inside, fun flag member same => ?_, rfl⟩
  exact undeclared ⟨flag, member, same⟩

/-! ### Structs, arrays and views -/

theorem exists_reads {layout : Layout} {name : String} {value : Value} {next : Nat}
    (decoded : layout.decode data name offset = .ok value)
    (ends : layout.behind data offset = .ok next) :
    ∃ length, next = offset + length ∧ Reads data layout name offset length value := by
  obtain ⟨length, rfl⟩ := Nat.exists_eq_add_of_le (Layout.behind_bounds ends).1
  exact ⟨length, rfl, decoded, ends⟩

/-- **The members of a struct**: each starts at the same distance in both buffers. -/
theorem agree_fields {fields : List Field} {members : List (String × Value)}
    (each : ∀ field ∈ fields, field.layout.Determined data other)
    (covers : ∀ index field position, fields[index]? = some field →
      walkFields data (fields.take index) offset = .ok position →
      ∀ bit, Reader.Undeclared ⟨data, field.name, field.layout, position⟩ bit → free bit)
    (inside : offset ≤ data.size) (insideToo : place ≤ other.size)
    (decoded : decodeFields data fields offset = .ok members)
    (decodedToo : decodeFields other fields place = .ok members) :
    ∃ length, walkFields data fields offset = .ok (offset + length) ∧
      walkFields other fields place = .ok (place + length) ∧
      Agree free data other offset place length := by
  induction fields generalizing offset place members with
  | nil => exact ⟨0, rfl, rfl, .nothing inside insideToo⟩
  | cons field rest ih =>
      rw [List.forall_mem_cons] at each
      rw [decodeFields_cons] at decoded decodedToo
      simp only [bind_eq_ok_iff, pure_eq_ok_iff] at decoded decodedToo
      obtain ⟨value, here, next, ends, others, later, rfl⟩ := decoded
      obtain ⟨valueToo, hereToo, nextToo, endsToo, othersToo, laterToo, same⟩ := decodedToo
      cases same
      obtain ⟨length, rfl, reads⟩ := exists_reads here ends
      obtain ⟨_, rfl, readsToo⟩ := exists_reads hereToo endsToo
      obtain ⟨rfl, agree⟩ := each.1 inside insideToo reads readsToo
      obtain ⟨more, walked, walkedToo, behind⟩ := ih each.2
        (fun index field position declared reached => covers (index + 1) field position declared (by
          rw [List.take_succ_cons, walkFields_cons, ends]
          exact reached))
        agree.inside agree.insideToo later laterToo
      refine ⟨length + more, ?_, ?_, (agree.mono (covers 0 field offset rfl rfl)).append behind⟩
      · rw [walkFields_cons, ends, ← Nat.add_assoc]
        exact walked
      · rw [walkFields_cons, endsToo, ← Nat.add_assoc]
        exact walkedToo

/-- **The elements of an array**, in the same way. -/
theorem agree_elements {element : Layout} {name : String} {count : Nat} {values : List Value}
    (each : element.Determined data other)
    (covers : ∀ index position, index < count →
      walkTimes (element.behind data) index offset = .ok position →
      ∀ bit, Reader.Undeclared ⟨data, name, element, position⟩ bit → free bit)
    (inside : offset ≤ data.size) (insideToo : place ≤ other.size)
    (collected : collect (fun position => do
      let next ← element.behind data position
      return (← element.decode data name position, next)) count offset = .ok values)
    (collectedToo : collect (fun position => do
      let next ← element.behind other position
      return (← element.decode other name position, next)) count place = .ok values) :
    ∃ length, walkTimes (element.behind data) count offset = .ok (offset + length) ∧
      walkTimes (element.behind other) count place = .ok (place + length) ∧
      Agree free data other offset place length := by
  induction count generalizing offset place values with
  | zero => exact ⟨0, rfl, rfl, .nothing inside insideToo⟩
  | succ count ih =>
      simp only [collect, bind_eq_ok_iff, pure_eq_ok_iff] at collected collectedToo
      obtain ⟨⟨_, _⟩, ⟨next, ends, first, here, same⟩, others, later, rfl⟩ := collected
      obtain ⟨⟨_, _⟩, ⟨nextToo, endsToo, firstToo, hereToo, sameToo⟩, _, laterToo, equal⟩ :=
        collectedToo
      cases same
      cases sameToo
      cases equal
      obtain ⟨length, rfl, reads⟩ := exists_reads here ends
      obtain ⟨_, rfl, readsToo⟩ := exists_reads hereToo endsToo
      obtain ⟨rfl, agree⟩ := each inside insideToo reads readsToo
      obtain ⟨more, walked, walkedToo, behind⟩ := ih
        (fun index position smaller reached => covers (index + 1) position (by omega) (by
          rw [walkTimes, ends]
          exact reached))
        agree.inside agree.insideToo later laterToo
      refine ⟨length + more, ?_, ?_,
        (agree.mono (covers 0 offset (by omega) rfl)).append behind⟩
      · rw [walkTimes, ends, ← Nat.add_assoc]
        exact walked
      · rw [walkTimes, endsToo, ← Nat.add_assoc]
        exact walkedToo

/-- The number of elements says the bytes in front of them. -/
theorem ArrayLength.agree_start {size : ArrayLength IntFormat} {count start startToo : Nat}
    (inside : offset ≤ data.size) (insideToo : place ≤ other.size)
    (counted : size.count data offset = .ok count) (countedToo : size.count other place = .ok count)
    (begins : size.start data offset = .ok start) (beginsToo : size.start other place = .ok startToo) :
    ∃ length, start = offset + length ∧ startToo = place + length ∧
      Agree free data other offset place length := by
  cases size with
  | fixed number =>
      cases begins
      cases beginsToo
      exact ⟨0, rfl, rfl, .nothing inside insideToo⟩
  | bounded capacity counter =>
      simp only [ArrayLength.count, ArrayLength.storedCount, bind_eq_ok_iff, guard_eq_ok_iff,
        pure_eq_ok_iff] at counted countedToo
      obtain ⟨stored, found, -, rfl⟩ := counted
      obtain ⟨storedToo, foundToo, -, same⟩ := countedToo
      cases UInt64.toNat_inj.mp same
      exact ⟨counter.bytes, (Address.advance_eq_ok_iff.mp begins).1,
        (Address.advance_eq_ok_iff.mp beginsToo).1, .of_read found foundToo⟩

end Agree

/-! ### Whole values -/

theorem Reads.address {data : Buffer} {layout : Layout} {name : String} {offset length : Nat}
    {value : Value} (reads : Reads data layout name offset length value) :
    offset < Address.limit :=
  lt_of_le_of_lt (Layout.behind_bounds reads.ends).1 (Layout.behind_bounds reads.ends).2

namespace Layout

variable {data other : Buffer}

theorem determined_struct {fields : List Field} (names : (fields.map (·.name)).Nodup)
    (each : ∀ field ∈ fields, field.layout.Determined data other) :
    (Layout.struct fields).Determined data other := by
  intro name offset place length lengthToo value inside insideToo reads readsToo
  obtain ⟨members, decoded, same⟩ := bind_eq_ok_iff.mp reads.decoded
  obtain ⟨membersToo, decodedToo, sameToo⟩ := bind_eq_ok_iff.mp readsToo.decoded
  cases same
  cases sameToo
  have covers (index : Nat) (field : Field) (position : Nat) (declared : fields[index]? = some field)
      (reached : walkFields data (fields.take index) offset = .ok position) (bit : Nat)
      (undeclared : Reader.Undeclared ⟨data, field.name, field.layout, position⟩ bit) :
      Reader.Undeclared ⟨data, name, .struct fields, offset⟩ bit := by
    refine undeclared.of_step (.member field.name) ?_
    have found : Field.indexOf? fields field.name = some index := findIdx?_of_nodup names declared
    rw [Reader.step, Reader.field_eq rfl reads.address, found]
    simp only [declared, reached]
    rfl
  obtain ⟨total, walked, walkedToo, agree⟩ :=
    agree_fields each covers inside insideToo decoded decodedToo
  have ends := reads.ends
  have endsToo := readsToo.ends
  rw [behind_struct fields reads.address, walked, Except.ok.injEq] at ends
  rw [behind_struct fields readsToo.address, walkedToo, Except.ok.injEq] at endsToo
  obtain rfl : total = length := by omega
  exact ⟨by omega, agree⟩

theorem determined_array {element : Layout} (size : ArrayLength IntFormat)
    (each : element.Determined data other) : (Layout.array element size).Determined data other := by
  intro name offset place length lengthToo value inside insideToo reads readsToo
  have decoded := reads.decoded
  have decodedToo := readsToo.decoded
  simp only [Layout.decode, bind_eq_ok_iff, pure_eq_ok_iff] at decoded decodedToo
  obtain ⟨count, counted, start, begins, values, collected, rfl⟩ := decoded
  obtain ⟨countToo, countedToo, startToo, beginsToo, valuesToo, collectedToo, same⟩ := decodedToo
  cases same
  -- both counts are the number of the values
  obtain rfl : count = countToo := (collect_eq_ok collected).1.symm.trans (collect_eq_ok collectedToo).1
  have covers (index position : Nat) (smaller : index < count)
      (reached : walkTimes (element.behind data) index start = .ok position) (bit : Nat)
      (undeclared : Reader.Undeclared ⟨data, name, element, position⟩ bit) :
      Reader.Undeclared ⟨data, name, .array element size, offset⟩ bit :=
    undeclared.of_step (.element index) (Reader.element_eq_ok rfl counted begins
      (ArrayLength.start_bounds reads.address begins).2 smaller reached)
  obtain ⟨head, rfl, rfl, front⟩ :=
    ArrayLength.agree_start inside insideToo counted countedToo begins beginsToo
  obtain ⟨total, walked, walkedToo, agree⟩ :=
    agree_elements each covers front.inside front.insideToo collected collectedToo
  have ends := reads.ends
  have endsToo := readsToo.ends
  rw [behind_array element size reads.address, counted, ok_bind, begins, ok_bind, walked,
    Except.ok.injEq] at ends
  rw [behind_array element size readsToo.address, countedToo, ok_bind, beginsToo, ok_bind, walkedToo,
    Except.ok.injEq] at endsToo
  obtain rfl : head + total = length := by omega
  exact ⟨by omega, front.append agree⟩

theorem determined_view {key : IntFormat} {variants : List Variant}
    (each : ∀ variant ∈ variants, variant.layout.Determined data other) :
    (Layout.view key variants).Determined data other := by
  intro name offset place length lengthToo value inside insideToo reads readsToo
  obtain ⟨stored, variant, payload, read, selected, advanced, decoded, rfl⟩ :=
    decode_view_eq_ok reads.decoded
  obtain ⟨storedToo, variantToo, payloadToo, readToo, selectedToo, advancedToo, decodedToo, same⟩ :=
    decode_view_eq_ok readsToo.decoded
  obtain ⟨rfl, -, rfl⟩ := Value.view.inj same
  -- one key selects one variant
  rw [selected] at selectedToo
  cases selectedToo
  have ends := reads.ends
  have endsToo := readsToo.ends
  rw [behind_view (readKey_eq_ok read) selected advanced] at ends
  rw [behind_view (readKey_eq_ok readToo) selected advancedToo] at endsToo
  obtain ⟨rest, total, inner⟩ := exists_reads decoded ends
  obtain ⟨restToo, totalToo, innerToo⟩ := exists_reads decodedToo endsToo
  have front : Agree (Reader.Undeclared ⟨data, name, .view key variants, offset⟩) data other offset
      place key.bytes := .of_read (readKey_eq_ok read) (readKey_eq_ok readToo)
  obtain ⟨rfl, agree⟩ := each variant (List.mem_of_find?_eq_some selected) front.inside
    front.insideToo inner innerToo
  have selects : Reader.Selects ⟨data, name, .view key variants, offset⟩ key variants stored variant
      (offset + key.bytes) := ⟨rfl, read, selected, advanced⟩
  have covers (bit : Nat) (undeclared : Reader.Undeclared
      ⟨data, variant.name, variant.layout, offset + key.bytes⟩ bit) :
      Reader.Undeclared ⟨data, name, .view key variants, offset⟩ bit := by
    refine undeclared.of_step .active ?_
    rw [Reader.step, selects.active_eq]
    rfl
  obtain rfl : key.bytes + rest = length := by omega
  exact ⟨by omega, front.append (agree.mono covers)⟩

/-- **One value, one string of bytes**: what both buffers decode to is as long in both, and has the
same bits in both but for the undeclared ones. -/
theorem determined {layout : Layout} (valid : layout.Valid) : layout.Determined data other := by
  induction layout with
  | int format | derived format expr =>
      exact determined_of_value rfl (fun _ _ _ => rfl) IntFormat.eq_of_value_eq
  | enum enumeration =>
      refine determined_of_word rfl fun {name offset place value} decoded decodedToo => ?_
      obtain ⟨variant, read, same⟩ := bind_eq_ok_iff.mp decoded
      obtain ⟨variantToo, readToo, sameToo⟩ := bind_eq_ok_iff.mp decodedToo
      cases same
      cases sameToo
      obtain ⟨word, found, named⟩ := Enumeration.read_eq_ok_iff.mp read
      obtain ⟨wordToo, foundToo, namedToo⟩ := Enumeration.read_eq_ok_iff.mp readToo
      cases valid with
      | enum variants =>
          cases variants.eq_of_nameOf? named namedToo
          exact ⟨word, found, foundToo⟩
  | mask mask => exact mask.determined
  | struct fields ih =>
      cases valid with
      | struct names _ members =>
          exact determined_struct names fun field member => ih field member (members field member)
  | array element size ih =>
      cases valid with
      | array _ elements => exact determined_array size (ih elements)
  | view key variants ih =>
      cases valid with
      | view _ _ _ payloads =>
          exact determined_view fun variant member => ih variant member (payloads variant member)
  | constant format value =>
      exact determined_of_value rfl (fun _ _ _ => rfl) fun _ _ same => Value.unsigned.inj same

end Layout

namespace Schema

variable {specs : List FieldSpec} {order : ByteOrder} {schema : Schema} {data other : Buffer}
  {value : Value}

/-- A record that can be parsed has a size. -/
theorem exists_reads_of_parse (parsed : schema.parse data = .ok value) :
    ∃ length, Reads data schema.root "" 0 length value := by
  obtain ⟨members, decoded, -⟩ := bind_eq_ok_iff.mp parsed
  obtain ⟨-, ⟨stop, walked⟩, -⟩ := decodeFields_eq_ok decoded
  rw [← Layout.behind_struct schema.fields (by decide)] at walked
  obtain ⟨length, -, reads⟩ := exists_reads parsed walked
  exact ⟨length, reads⟩

/-- **Decoding loses nothing but undeclared mask bits.** Where two strings parse to the same value,
their readers report the same size, and up to that size the strings have the same bits, except for
bits of masks that no flag declares. Where every mask declares all its bits, they have the same
bytes. -/
theorem parse_injective (compiled : Schema.compile specs order = .ok schema)
    (parsed : schema.parse data = .ok value) (parsedToo : schema.parse other = .ok value) :
    ∃ length, (schema.reader data).size = .ok length ∧ (schema.reader other).size = .ok length ∧
      length ≤ data.size ∧ length ≤ other.size ∧
      (∀ position < 8 * length, ¬(schema.reader data).Undeclared position →
        Bits.read data.toList position = Bits.read other.toList position) ∧
      ((∀ mask, schema.root.Contains (.mask mask) →
          ∀ bit < 8 * mask.width, ∃ flag ∈ mask.flags, flag.bit.toNat = bit) →
        data.take length = other.take length) := by
  obtain ⟨length, reads⟩ := exists_reads_of_parse parsed
  obtain ⟨lengthToo, readsToo⟩ := exists_reads_of_parse parsedToo
  obtain ⟨rfl, agree⟩ := Layout.determined (valid_of_compile compiled) (Nat.zero_le _)
    (Nat.zero_le _) reads readsToo
  have inside : length ≤ data.size := by simpa using agree.inside
  have insideToo : length ≤ other.size := by simpa using agree.insideToo
  have bits (position : Nat) (small : position < 8 * length)
      (declared : ¬(schema.reader data).Undeclared position) :
      Bits.read data.toList position = Bits.read other.toList position := by
    have same := agree.bits position small
    rw [Nat.mul_zero, Nat.zero_add] at same
    exact same declared
  refine ⟨length, reads.extent, readsToo.extent, inside, insideToo, bits, fun full => ?_⟩
  have lengths : (data.toList.take length).length = length := by simpa using inside
  have lengthsToo : (other.toList.take length).length = length := by simpa using insideToo
  apply Array.toList_inj.mp
  rw [toList_take, toList_take]
  refine Bits.eq_of_read_eq (lengths.trans lengthsToo.symm) fun position small => ?_
  rw [lengths] at small
  have front : (schema.reader data).offset < Address.limit := show 0 < Address.limit by decide
  have same := bits position small (Reader.not_undeclared front full)
  rw [← List.take_append_drop length data.toList, ← List.take_append_drop length other.toList] at same
  rwa [Bits.read_append_left (by omega), Bits.read_append_left (by omega)] at same

/-- An acknowledged packet with one item. -/
def sampleValue : Value :=
  .struct [("size", .unsigned 8), ("kind", .enum "ack"),
    ("flags", .mask [("urgent", false), ("last", true)]), ("items", .array [.unsigned 513]),
    ("body", .view 1 "ping" (.signed (-2)))]

/-- The second bit of the flags is declared by none of them: it differs, and so does what comes behind
the record. -/
theorem parse_injective_samplePacket :
    Schema.compile samplePacket .big = .ok sampleSchema ∧
      sampleSchema.parse #[0, 8, 2, 1, 1, 2, 1, 1, 255, 254] = .ok sampleValue ∧
      sampleSchema.parse #[0, 8, 2, 65, 1, 2, 1, 1, 255, 254, 9] = .ok sampleValue ∧
      (sampleSchema.reader #[0, 8, 2, 1, 1, 2, 1, 1, 255, 254]).Undeclared 25 ∧
      ∀ position < 80,
        ¬(sampleSchema.reader #[0, 8, 2, 1, 1, 2, 1, 1, 255, 254]).Undeclared position →
        Bits.read [0, 8, 2, 1, 1, 2, 1, 1, 255, 254] position =
          Bits.read [0, 8, 2, 65, 1, 2, 1, 1, 255, 254, 9] position := by
  have parsed : sampleSchema.parse #[0, 8, 2, 1, 1, 2, 1, 1, 255, 254] = .ok sampleValue := rfl
  have parsedToo : sampleSchema.parse #[0, 8, 2, 65, 1, 2, 1, 1, 255, 254, 9] = .ok sampleValue :=
    rfl
  have sized : (sampleSchema.reader #[0, 8, 2, 1, 1, 2, 1, 1, 255, 254]).size = .ok 10 := by
    decide +kernel
  obtain ⟨length, size, -, -, -, bits, -⟩ := parse_injective compile_samplePacket parsed parsedToo
  rw [sized] at size
  cases size
  refine ⟨compile_samplePacket, parsed, parsedToo, ?_, bits⟩
  exact ⟨[.member "flags"], _, _, 1, rfl, rfl, by decide, by decide, rfl⟩

end Schema

end RecordLayout
