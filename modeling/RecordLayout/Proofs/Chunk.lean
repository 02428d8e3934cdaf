/-
**Chunks, and what they read as.**

A chunk is a string of bytes that stands somewhere in a buffer (`Holds`). Some chunks read as a value
of a layout wherever they stand: at every offset of every buffer that holds them, decoding yields the
value, and the value ends where the chunk ends (`Layout.ReadsAs`). Nothing is said of where such a
chunk comes from. What is encoded is one, and so is what has been decoded.

Chunks that read as values are put together as the values are:

* `FieldsReadAs.struct`: the members of a struct, one behind the other. Each member is found at its
  own chunk (`FieldsReadAs.finds`, `FieldsReadAs.span`).
* `Layout.ReadsAs.array`: the count of an array, then its elements.
* `Layout.ReadsAs.view`: the key of a view, then the payload that it selects.
-/

import RecordLayout.Proofs.LazyReading

namespace RecordLayout

/-! ### Chunks in a buffer -/

/-- The chunk stands in the buffer at the offset. -/
def Holds (data : Buffer) (offset : Nat) (chunk : Bytes) : Prop :=
  ∃ before after, data.toList = before ++ chunk ++ after ∧ before.length = offset

namespace Holds

variable {data : Buffer} {offset width : Nat} {chunk first second : Bytes}

theorem whole (data : Buffer) : Holds data 0 data.toList := ⟨[], [], by simp, rfl⟩

theorem left (held : Holds data offset (first ++ second)) : Holds data offset first := by
  obtain ⟨before, after, split, rfl⟩ := held
  exact ⟨before, second ++ after, by rw [split]; simp, rfl⟩

theorem right (held : Holds data offset (first ++ second)) :
    Holds data (offset + first.length) second := by
  obtain ⟨before, after, split, rfl⟩ := held
  exact ⟨before ++ first, after, by rw [split]; simp, List.length_append⟩

theorem bound (held : Holds data offset chunk) : offset + chunk.length ≤ data.size := by
  obtain ⟨before, after, split, rfl⟩ := held
  rw [← Array.length_toList, split, List.length_append, List.length_append]
  omega

theorem address (small : data.size < Address.limit) (held : Holds data offset chunk) :
    offset < Address.limit := by
  have inside := held.bound
  omega

/-- What is held is what the rest of the buffer starts with. -/
theorem iff_drop :
    Holds data offset chunk ↔ offset ≤ data.size ∧ chunk <+: data.toList.drop offset := by
  constructor
  · intro held
    have inside := held.bound
    obtain ⟨before, after, split, rfl⟩ := held
    refine ⟨by omega, after, ?_⟩
    rw [split, List.append_assoc, List.drop_left]
  · rintro ⟨inside, after, rest⟩
    refine ⟨data.toList.take offset, after, ?_, ?_⟩
    · rw [List.append_assoc, rest, List.take_append_drop]
    · rw [List.length_take, Array.length_toList, Nat.min_eq_left inside]

theorem nothing (inside : offset ≤ data.size) : Holds data offset [] :=
  iff_drop.mpr ⟨inside, List.nil_prefix⟩

/-- Chunks that stand one behind the other are one chunk. -/
theorem append (held : Holds data offset first)
    (behind : Holds data (offset + first.length) second) : Holds data offset (first ++ second) := by
  obtain ⟨inside, rest, split⟩ := iff_drop.mp held
  obtain ⟨-, later⟩ := iff_drop.mp behind
  rw [← List.drop_drop, ← split, List.drop_left] at later
  refine iff_drop.mpr ⟨inside, ?_⟩
  rw [← split]
  exact (List.prefix_append_right_inj first).mpr later

theorem slice (held : Holds data offset chunk) :
    Address.slice data offset chunk.length = .ok chunk := by
  refine Address.slice_eq_ok_iff.mpr ⟨?_, held.bound⟩
  obtain ⟨before, after, split, rfl⟩ := held
  rw [split, List.append_assoc, List.drop_left, List.take_left]

theorem of_slice (found : Address.slice data offset width = .ok chunk) :
    chunk.length = width ∧ Holds data offset chunk := by
  obtain ⟨rfl, inside⟩ := Address.slice_eq_ok_iff.mp found
  refine ⟨?_, iff_drop.mpr ⟨by omega, List.take_prefix _ _⟩⟩
  rw [List.length_take, List.length_drop, Array.length_toList]
  omega

/-- A held word is read back. -/
theorem read {format : IntFormat} {word : UInt64} (held : Holds data offset (format.encode word))
    (fits : word.toNat < 2 ^ format.width.bits) : format.read data offset = .ok word := by
  have found := held.slice
  rw [format.length_encode] at found
  rw [IntFormat.read, found, ok_bind, format.decode_encode fits]
  rfl

/-- The first chunks of a concatenation. -/
theorem front {chunks : List Bytes} (held : Holds data offset chunks.flatten) (index : Nat) :
    Holds data offset (chunks.take index).flatten := by
  rw [← List.take_append_drop index chunks, List.flatten_append] at held
  exact held.left

/-- One chunk of a concatenation. -/
theorem part {chunks : List Bytes} {index : Nat} (held : Holds data offset chunks.flatten)
    (there : chunks[index]? = some chunk) :
    Holds data (offset + (chunks.take index).flatten.length) chunk := by
  obtain ⟨inside, rfl⟩ := List.getElem?_eq_some_iff.mp there
  rw [← List.take_append_drop index chunks, List.flatten_append,
    List.drop_eq_getElem_cons inside, List.flatten_cons] at held
  exact held.right.left

/-- What has a length that is known to be the extent ends where it is held. -/
theorem behind {layout : Layout} (small : data.size < Address.limit)
    (held : Holds data offset chunk) (known : layout.extent data offset = .ok chunk.length) :
    layout.behind data offset = .ok (offset + chunk.length) := by
  have inside := held.bound
  rw [Layout.behind, known]
  exact Address.advance_eq_ok_iff.mpr ⟨rfl, by omega⟩

end Holds

/-! ### What chunks read as -/

/-- The value at `offset` is `value`, and it is `length` bytes long. -/
structure Reads (data : Buffer) (layout : Layout) (name : String) (offset length : Nat)
    (value : Value) : Prop where
  decoded : layout.decode data name offset = .ok value
  ends : layout.behind data offset = .ok (offset + length)

theorem Reads.extent {data : Buffer} {layout : Layout} {name : String} {offset length : Nat}
    {value : Value} (reads : Reads data layout name offset length value) :
    layout.extent data offset = .ok length := by
  obtain ⟨found, extent, advanced⟩ := bind_eq_ok_iff.mp reads.ends
  have same : found = length := by
    have ends := (Address.advance_eq_ok_iff.mp advanced).1
    omega
  rw [extent, same]

/-- The chunk reads as the value, wherever it stands, and the value ends where the chunk ends. -/
def Layout.ReadsAs (layout : Layout) (name : String) (chunk : Bytes) (value : Value) : Prop :=
  ∀ (data : Buffer) (offset : Nat), data.size < Address.limit → Holds data offset chunk →
    Reads data layout name offset chunk.length value

/-- The chunk reads as the word, wherever it stands. -/
structure IntFormat.ReadsAs (format : IntFormat) (chunk : Bytes) (word : UInt64) : Prop where
  length : chunk.length = format.bytes
  read : ∀ (data : Buffer) (offset : Nat), Holds data offset chunk →
    format.read data offset = .ok word

/-- The chunk in front of the elements of an array reads as their number, wherever it stands. -/
def ArrayLength.CountsAs (length : ArrayLength IntFormat) (chunk : Bytes) (count : Nat) : Prop :=
  ∀ (data : Buffer) (offset : Nat), data.size < Address.limit → Holds data offset chunk →
    length.count data offset = .ok count ∧ length.start data offset = .ok (offset + chunk.length)

theorem IntFormat.readsAs_encode {format : IntFormat} {word : UInt64}
    (fits : word.toNat < 2 ^ format.width.bits) : format.ReadsAs (format.encode word) word :=
  ⟨format.length_encode word, fun _ _ held => held.read fits⟩

/-- A layout whose values are words reads as what it makes of the word. -/
theorem Layout.ReadsAs.word {layout : Layout} {format : IntFormat} {name : String} {chunk : Bytes}
    {word : UInt64} {value : Value} (reads : format.ReadsAs chunk word)
    (fixed : layout.width? = some format.bytes)
    (decodes : ∀ data offset, format.read data offset = .ok word →
      layout.decode data name offset = .ok value) :
    layout.ReadsAs name chunk value := by
  intro data offset small held
  refine ⟨decodes data offset (reads.read data offset held), held.behind small ?_⟩
  rw [extent_of_width? fixed, reads.length]

/-- Behind a chunk that reads as a word there is an address. -/
theorem IntFormat.ReadsAs.advance {data : Buffer} {format : IntFormat} {chunk : Bytes}
    {word : UInt64} {offset : Nat} (reads : format.ReadsAs chunk word)
    (small : data.size < Address.limit) (held : Holds data offset chunk) :
    Address.advance data offset format.bytes = .ok (offset + chunk.length) := by
  have bound := held.bound
  rw [reads.length] at bound ⊢
  exact Address.advance_eq_ok_iff.mpr ⟨rfl, by omega⟩

theorem ArrayLength.countsAs_fixed (count : UInt64) :
    (ArrayLength.fixed count).CountsAs [] count.toNat :=
  fun _ _ _ _ => ⟨rfl, rfl⟩

theorem ArrayLength.countsAs_bounded {capacity stored : UInt64} {counter : IntFormat}
    {chunk : Bytes} (reads : counter.ReadsAs chunk stored) (within : ¬capacity < stored) :
    (ArrayLength.bounded capacity counter).CountsAs chunk stored.toNat := by
  intro data offset small held
  refine ⟨?_, reads.advance small held⟩
  show ArrayLength.storedCount capacity counter data offset = _
  rw [ArrayLength.storedCount, reads.read data offset held, ok_bind, if_neg within]
  rfl

/-! ### Parts one behind the other -/

section Parts

variable {data : Buffer} {offset position : Nat} {name : String} {fields : List Field}
  {parts : List (Bytes × Value)}

/-- The bytes of parts that stand one behind the other. -/
def bytesOf (parts : List (Bytes × Value)) : Bytes := (parts.map Prod.fst).flatten

/-- Each part reads as the member of its field. -/
def FieldsReadAs (fields : List Field) (parts : List (Bytes × Value)) : Prop :=
  List.Forall₂ (fun field part => field.layout.ReadsAs field.name part.1 part.2) fields parts

/-- The members of a struct, by the names of its fields. -/
def membersOf (fields : List Field) (parts : List (Bytes × Value)) : List (String × Value) :=
  List.zipWith (fun field part => (field.name, part.2)) fields parts

/-- **The members of a struct**, wherever their bytes stand. -/
theorem FieldsReadAs.reads (each : FieldsReadAs fields parts) (small : data.size < Address.limit)
    (held : Holds data position (bytesOf parts)) :
    decodeFields data fields position = .ok (membersOf fields parts) ∧
      walkFields data fields position = .ok (position + (bytesOf parts).length) := by
  induction each generalizing position with
  | nil => exact ⟨rfl, rfl⟩
  | @cons field part fields parts head _ ih =>
      have here := head data position small held.left
      obtain ⟨decoded, walked⟩ := ih held.right
      constructor
      · rw [decodeFields_cons, here.decoded, ok_bind, here.ends, ok_bind, decoded]
        rfl
      · rw [walkFields_cons, here.ends, ok_bind, walked, Nat.add_assoc, ← List.length_append]
        rfl

/-- **A struct is its members**, one behind the other. -/
theorem FieldsReadAs.struct (each : FieldsReadAs fields parts) (name : String) :
    (Layout.struct fields).ReadsAs name (bytesOf parts) (.struct (membersOf fields parts)) := by
  intro data offset small held
  obtain ⟨decoded, walked⟩ := each.reads small held
  constructor
  · rw [Layout.decode, decoded]
    rfl
  · rw [Layout.behind_struct fields (held.address small), walked]

/-- **The elements of an array**, wherever their bytes stand. -/
theorem elements_read {element : Layout} (each : ∀ part ∈ parts, element.ReadsAs name part.1 part.2)
    (small : data.size < Address.limit) (held : Holds data position (bytesOf parts)) :
    collect (fun position => do
        let next ← element.behind data position
        return (← element.decode data name position, next)) parts.length position =
        .ok (parts.map Prod.snd) ∧
      walkTimes (element.behind data) parts.length position =
        .ok (position + (bytesOf parts).length) := by
  induction parts generalizing position with
  | nil => exact ⟨rfl, rfl⟩
  | cons part parts ih =>
      rw [List.forall_mem_cons] at each
      have here := each.1 data position small held.left
      obtain ⟨collected, walked⟩ := ih each.2 held.right
      constructor
      · rw [List.length_cons, collect]
        simp only [here.decoded, here.ends, ok_bind, pure_bind, collected]
        rfl
      · rw [List.length_cons, walkTimes, here.ends, ok_bind, walked, Nat.add_assoc,
          ← List.length_append]
        rfl

/-- **An array is its count and its elements**, one behind the other. -/
theorem Layout.ReadsAs.array {element : Layout} {length : ArrayLength IntFormat} {head : Bytes}
    (counts : length.CountsAs head parts.length)
    (each : ∀ part ∈ parts, element.ReadsAs name part.1 part.2) :
    (Layout.array element length).ReadsAs name (head ++ bytesOf parts)
      (.array (parts.map Prod.snd)) := by
  intro data offset small held
  obtain ⟨counted, begins⟩ := counts data offset small held.left
  obtain ⟨collected, walked⟩ := elements_read each small held.right
  constructor
  · rw [Layout.decode, counted, ok_bind, begins, ok_bind, collected]
    rfl
  · rw [behind_array element length (held.address small), counted, ok_bind, begins, ok_bind, walked,
      List.length_append, Nat.add_assoc]

/-- The key in front of a view selects a variant. -/
theorem IntFormat.ReadsAs.selects {reader : Reader} {key : IntFormat} {variants : List Variant}
    {stored : UInt64} {variant : Variant} {head : Bytes} (reads : key.ReadsAs head stored)
    (small : reader.data.size < Address.limit) (view : reader.layout = .view key variants)
    (selected : variants.find? (·.key == stored) = some variant)
    (held : Holds reader.data reader.offset head) :
    reader.Selects key variants stored variant (reader.offset + head.length) := by
  refine ⟨view, ?_, selected, reads.advance small held⟩
  -- a key has at least one byte, so the buffer does not end before the view
  have bound := held.bound
  have positive : 0 < head.length := by
    rw [reads.length]
    exact key.width.bytes_pos
  rw [readKey, if_neg (by omega), reads.read _ _ held]

/-- **A view is its key and the payload that it selects**, one behind the other. -/
theorem Layout.ReadsAs.view {key : IntFormat} {variants : List Variant} {stored : UInt64}
    {variant : Variant} {head rest : Bytes} {payload : Value} (reads : key.ReadsAs head stored)
    (selected : variants.find? (·.key == stored) = some variant)
    (inner : variant.layout.ReadsAs variant.name rest payload) :
    (Layout.view key variants).ReadsAs name (head ++ rest)
      (.view stored variant.name payload) := by
  intro data offset small held
  have selects : Reader.Selects ⟨data, name, .view key variants, offset⟩ key variants stored variant
      (offset + head.length) := reads.selects small rfl selected held.left
  have behind := inner data _ small held.right
  constructor
  · rw [Layout.decode, selects.read, ok_bind, decodePayload_eq, selected]
    simp only [selects.begins, ok_bind, behind.decoded]
    rfl
  · rw [behind_view (readKey_eq_ok selects.read) selected selects.begins, behind.ends,
      List.length_append, Nat.add_assoc]

/-! ### Members at their own chunks -/

variable {reader : Reader} {index : Nat} {field : Field}

/-- **Every member is found at its own chunk.** -/
theorem FieldsReadAs.finds (each : FieldsReadAs fields parts)
    (struct : reader.layout = .struct fields) (names : (fields.map (·.name)).Nodup)
    (small : reader.data.size < Address.limit)
    (held : Holds reader.data reader.offset (bytesOf parts))
    (declared : fields[index]? = some field) :
    reader.field field.name = .ok ⟨reader.data, field.name, field.layout,
      reader.offset + (bytesOf (parts.take index)).length⟩ := by
  have front : FieldsReadAs (fields.take index) (parts.take index) := List.forall₂_take index each
  have walked : walkFields reader.data (fields.take index) reader.offset =
      .ok (reader.offset + (bytesOf (parts.take index)).length) := by
    refine (front.reads small ?_).2
    rw [bytesOf, List.map_take]
    exact held.front index
  have found : Field.indexOf? fields field.name = some index := findIdx?_of_nodup names declared
  rw [Reader.field_eq struct (held.address small), found]
  simp only [declared, walked]
  rfl

/-- **Every member spans its own chunk.** -/
theorem FieldsReadAs.span (each : FieldsReadAs fields parts)
    (struct : reader.layout = .struct fields) (names : (fields.map (·.name)).Nodup)
    (small : reader.data.size < Address.limit)
    (held : Holds reader.data reader.offset (bytesOf parts))
    (declared : fields[index]? = some field) :
    reader.span field.name = .ok (reader.offset + (bytesOf (parts.take index)).length,
      reader.offset + (bytesOf (parts.take (index + 1))).length) := by
  obtain ⟨part, there, reads⟩ := exists_result_of_getElem? each declared
  have own : Holds reader.data (reader.offset + (bytesOf (parts.take index)).length) part.1 := by
    rw [bytesOf, List.map_take]
    exact held.part (by rw [List.getElem?_map, there]; rfl)
  have stop : (bytesOf (parts.take (index + 1))).length =
      (bytesOf (parts.take index)).length + part.1.length := by
    rw [bytesOf, List.take_add_one, there, List.map_append, List.flatten_append, List.length_append]
    simp [bytesOf]
  obtain ⟨length, extent, advanced⟩ := bind_eq_ok_iff.mp (reads reader.data _ small own).ends
  rw [Reader.span, each.finds struct names small held declared, ok_bind, stop, ← Nat.add_assoc]
  simp only [Reader.extent, extent, ok_bind, advanced]
  rfl

end Parts

end RecordLayout
