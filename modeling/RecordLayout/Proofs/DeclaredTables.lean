/-
**Tables of names and words.**

An enumeration and a view are tables: every entry has a name and a word, which is the value of the
one and the key of the other. A lookup takes the first entry that matches. Since every entry was
judged with those before it, no other entry matches, and the lookups by name and by word undo each
other.

What is stored of an entry is its word, and what the word stands for depends on the format. A word
that fits as a number stands for itself, with or without a sign, so comparing stored words with
declared ones is comparing numbers.

* `IntFormat.read_eq_ok_iff`: a word is read where its bytes stand, and nowhere else.
* `IntFormat.Represents`, `IntFormat.represents_iff_fits`: the words that stand for themselves are
  those that fit.
* `Enumeration.Tabulates`, `Variant.Tabulates`: all that is said of one table.
* `tables_bijective`: the tables of every accepted enumeration and of every accepted view.
-/

import RecordLayout.Proofs.CodecInverse
import RecordLayout.Proofs.Injectivity
import RecordLayout.Proofs.ViewReading

namespace RecordLayout

namespace IntFormat

variable {format : IntFormat} {word : UInt64} {data : Buffer} {offset : Nat}

/-! ### Words that stand for themselves -/

/-- **A word is read where its bytes stand**, and nowhere else. -/
theorem read_eq_ok_iff :
    format.read data offset = .ok word ↔
      word.toNat < 2 ^ format.width.bits ∧ Holds data offset (format.encode word) := by
  constructor
  · intro found
    refine ⟨read_lt found, ?_⟩
    obtain ⟨chunk, sliced, same⟩ := bind_eq_ok_iff.mp found
    obtain ⟨length, held⟩ := Holds.of_slice sliced
    rw [pure_eq_ok_iff, ← decode_eq length] at same
    rwa [← same, encode_decode length]
  · rintro ⟨small, held⟩
    exact held.read small

theorem toWord_toNat (small : word.toNat < 2 ^ format.width.bits) :
    format.toWord word.toNat = word := by
  apply UInt64.toNat_inj.mp
  have same := format.toNat_toWord word.toNat
  rw [Int.emod_eq_of_lt (by omega) (by exact_mod_cast small)] at same
  exact Int.ofNat_inj.mp same

/-- **The format holds the word as the number it is.** -/
structure Represents (format : IntFormat) (word : UInt64) : Prop where
  /-- The word is within the width. -/
  within : word.toNat < 2 ^ (8 * format.bytes)
  /-- It stands for a number that is not negative. -/
  nonneg : 0 ≤ format.ofWord word
  /-- It stands for itself. -/
  number : format.ofWord word = word.toNat
  /-- It is read exactly where the bytes of the number stand. -/
  read : ∀ data offset, format.read data offset = .ok word ↔
    Holds data offset (format.encode (format.toWord word.toNat))
  /-- What is read is this word exactly when it stands for the same number. -/
  same : ∀ data offset stored, format.read data offset = .ok stored →
    (stored = word ↔ format.ofWord stored = word.toNat)

/-- **The words that stand for themselves are those that fit.** -/
theorem represents_iff_fits : format.Represents word ↔ format.fits word.toNat := by
  constructor
  · intro represents
    exact represents.number ▸ fits_ofWord represents.within
  · intro fits
    have small := lt_of_fits fits
    have number : format.ofWord word = word.toNat := by
      rw [← ofWord_toWord fits, toWord_toNat small]
    refine ⟨small, number ▸ Int.natCast_nonneg _, number, fun data offset => ?_,
      fun data offset stored found => ?_⟩
    · rw [read_eq_ok_iff, toWord_toNat small]
      exact and_iff_right small
    · constructor
      · rintro rfl
        exact number
      · intro equal
        exact eq_of_ofWord_eq (read_lt found) small (equal.trans number.symm)

/-- A word within the width that does not fit, because of the sign. -/
example : (⟨.one, true, .big⟩ : IntFormat).ofWord 128 = -128 := by decide

end IntFormat

/-! ### Enumerations -/

namespace Enumeration

variable {enumeration : Enumeration} {reader : Reader}

/-- The number that is read of an enumeration is the stored word. -/
theorem number_eq_ok_iff {value : UInt64} (enum : reader.layout = .enum enumeration) :
    reader.number = .ok (value.toNat : Int) ↔
      enumeration.format.read reader.data reader.offset = .ok value := by
  unfold Reader.number
  rw [enum]
  simp only [bind_eq_ok_iff, pure_eq_ok_iff, Int.ofNat_inj, UInt64.toNat_inj, exists_eq_right]

/-- The name that is read of an enumeration is the declared one of the stored word. -/
theorem Valid.enumName_eq_ok_iff {variant : EnumVariant} (valid : enumeration.Valid)
    (declared : variant ∈ enumeration.variants) (enum : reader.layout = .enum enumeration) :
    reader.enumName = .ok variant.name ↔
      enumeration.format.read reader.data reader.offset = .ok variant.value := by
  have named := valid.nameOf?_eq_some_iff.mpr declared
  unfold Reader.enumName
  rw [enum, read_eq_ok_iff]
  constructor
  · rintro ⟨word, found, known⟩
    rwa [valid.eq_of_nameOf? named known]
  · intro found
    exact ⟨variant.value, found, named⟩

/-- **The table of an enumeration**, for the format and the entries that were declared. -/
structure Tabulates (enumeration : Enumeration) (format : IntFormat)
    (declared : List EnumVariant) : Prop where
  /-- The entries are the declared ones, in their order. -/
  entries : enumeration = ⟨format, declared⟩
  /-- The two lookups undo each other. -/
  inverse : ∀ name value,
    enumeration.valueOf? name = some value ↔ enumeration.nameOf? value = some name
  /-- What they find is what was declared. -/
  found : ∀ name value, enumeration.nameOf? value = some name ↔ ⟨name, value⟩ ∈ declared
  /-- The values stand for themselves. -/
  words : ∀ variant ∈ declared, format.Represents variant.value
  /-- Reading gives a declared value, and its name, exactly where the bytes of its number stand. -/
  reads : ∀ reader : Reader, reader.layout = .enum enumeration → ∀ variant ∈ declared,
    (reader.number = .ok (variant.value.toNat : Int) ↔ Holds reader.data reader.offset
      (format.encode (format.toWord variant.value.toNat))) ∧
    (reader.enumName = .ok variant.name ↔ Holds reader.data reader.offset
      (format.encode (format.toWord variant.value.toNat)))

/-- The table of an enumeration that has passed its checks. -/
theorem tabulates_of_compile {name : String} {format : IntFormat} {declared : List EnumVariant}
    (compiled : Enumeration.compile name format declared = .ok enumeration) :
    enumeration.Tabulates format declared := by
  have valid := valid_of_compile compiled
  obtain ⟨-, -, rfl⟩ := compile_eq_ok_iff.mp compiled
  have words : ∀ variant ∈ declared, format.Represents variant.value := fun variant member =>
    IntFormat.represents_iff_fits.mpr (valid.fits variant member)
  refine ⟨rfl, fun name value => ?_, fun name value => valid.nameOf?_eq_some_iff, words,
    fun reader enum variant member => ⟨?_, ?_⟩⟩
  · rw [valid.valueOf?_eq_some_iff, valid.nameOf?_eq_some_iff]
  · rw [number_eq_ok_iff enum]
    exact (words variant member).read _ _
  · rw [valid.enumName_eq_ok_iff member enum]
    exact (words variant member).read _ _

end Enumeration

/-! ### Views -/

/-- A key is read exactly where it is read as an integer: a view that is there has a key. -/
theorem Reader.key_eq_ok_iff {reader : Reader} {key : IntFormat} {variants : List Variant}
    {stored : UInt64} (view : reader.layout = .view key variants) :
    reader.key = .ok stored ↔ key.read reader.data reader.offset = .ok stored := by
  rw [key_eq view]
  refine ⟨readKey_eq_ok, fun found => ?_⟩
  have inside := IntFormat.read_bounds found
  have positive : 0 < key.bytes := key.width.bytes_pos
  rw [readKey, if_neg (by omega), found]

namespace Variant

/-- **A name and a key meet at one index** exactly when they were declared together. -/
theorem exists_index_iff {order : ByteOrder} {declared : List VariantSpec} {variants : List Variant}
    {name : String} {word : UInt64} (each : List.Forall₂ (CompiledFrom order) declared variants)
    (names : (variants.map (·.name)).Nodup) (keys : (variants.map (·.key)).Nodup) :
    (∃ index, indexOfKey? variants word = some index ∧ indexOfName? variants name = some index) ↔
      ∃ spec ∈ declared, spec.name = name ∧ spec.key = word := by
  constructor
  · rintro ⟨index, byKey, byName⟩
    obtain ⟨variant, there, keyed⟩ := (findIdx?_eq_some_iff_of_nodup keys).mp byKey
    obtain ⟨other, again, named⟩ := (findIdx?_eq_some_iff_of_nodup names).mp byName
    rw [there] at again
    cases again
    obtain ⟨spec, inside, name, key, -⟩ := exists_entry_of_mem each (List.mem_of_getElem? there)
    exact ⟨spec, inside, name.symm.trans named, key.symm.trans keyed⟩
  · rintro ⟨spec, inside, rfl, rfl⟩
    obtain ⟨index, described⟩ := List.mem_iff_getElem?.mp inside
    obtain ⟨variant, there, named, keyed, -⟩ := exists_result_of_getElem? each described
    refine ⟨index, ?_, ?_⟩
    · exact (findIdx?_eq_some_iff_of_nodup keys).mpr ⟨variant, there, keyed⟩
    · exact (findIdx?_eq_some_iff_of_nodup names).mpr ⟨variant, there, named⟩

/-- **The table of a view**, for the format of its key, the byte order around it and the entries that
were declared. -/
structure Tabulates (variants : List Variant) (key : IntFormat) (order : ByteOrder)
    (declared : List VariantSpec) : Prop where
  /-- The entries are the declared ones, in their order: each has the name and the key of its
  description, and the layout that the described payload compiles to. -/
  entries : List.Forall₂ (CompiledFrom order) declared variants
  /-- Every entry is found at its own index, by its key and by its name. -/
  indices : ∀ index variant, variants[index]? = some variant →
    indexOfKey? variants variant.key = some index ∧
      indexOfName? variants variant.name = some index
  /-- A name and a key are found at one index exactly when they were declared together. -/
  found : ∀ name word, (∃ index, indexOfKey? variants word = some index ∧
    indexOfName? variants name = some index) ↔ ∃ spec ∈ declared, spec.name = name ∧ spec.key = word
  /-- The keys stand for themselves. -/
  words : ∀ spec ∈ declared, key.Represents spec.key
  /-- Reading gives a declared key exactly where the bytes of its number stand. -/
  reads : ∀ reader : Reader, reader.layout = .view key variants → ∀ spec ∈ declared,
    (reader.key = .ok spec.key ↔ Holds reader.data reader.offset
      (key.encode (key.toWord spec.key.toNat)))

/-- The table of a view whose variants have passed their checks. -/
theorem tabulates_of_compileVariants {key : IntFormat} {order : ByteOrder}
    {declared : List VariantSpec} {variants : List Variant}
    (compiled : compileVariants key order [] declared = .ok variants) :
    Tabulates variants key order declared := by
  obtain ⟨clear, each⟩ := compileVariants_eq_ok_iff.mp compiled
  obtain ⟨fine, names, keys⟩ :=
    (firstFault?_eq_none_iff_nodup VariantSpec.fault?_eq_none_iff).mp clear
  rw [← map_eq_of_forall₂ each fun _ _ _ related => related.1] at names
  rw [← map_eq_of_forall₂ each fun _ _ _ related => related.2.1] at keys
  have words : ∀ spec ∈ declared, key.Represents spec.key := fun spec inside =>
    IntFormat.represents_iff_fits.mpr (fine spec inside).2
  refine ⟨each, fun index variant there => ?_, fun name word => exists_index_iff each names keys,
    words, fun reader view spec inside => ?_⟩
  · exact ⟨findIdx?_of_nodup keys there, findIdx?_of_nodup names there⟩
  · rw [Reader.key_eq_ok_iff view]
    exact (words spec inside).read _ _

end Variant

/-- **Names and words are told apart, and stand for each other.** Every enumeration and every view
that is accepted is a table of its declared entries, in their order; in it the lookups by name and by
word undo each other, and every word is stored as the number that was declared. -/
theorem tables_bijective :
    (∀ (name : String) (format : IntFormat) (declared : List EnumVariant)
      (enumeration : Enumeration), Enumeration.compile name format declared = .ok enumeration →
      enumeration.Tabulates format declared) ∧
    ∀ (name : String) (siblings : Option (List FieldSpec)) (order : ByteOrder) (key : IntSpec)
      (declared : List VariantSpec) (layout : Layout),
      (LayoutSpec.view key declared).compile name siblings order = .ok layout →
      ∃ format variants, key.resolve order = .ok format ∧ layout = .view format variants ∧
        Variant.Tabulates variants format order declared := by
  refine ⟨fun name format declared enumeration => Enumeration.tabulates_of_compile, ?_⟩
  intro name siblings order key declared layout compiled
  obtain ⟨-, format, variants, resolved, found, -, rfl⟩ :=
    LayoutSpec.compile_view_eq_ok_iff.mp compiled
  exact ⟨format, variants, resolved, rfl, Variant.tabulates_of_compileVariants found⟩

/-- The largest values and keys of signed formats, which are still told apart from negative ones. -/
theorem tables_bijective_signed :
    let byte : IntFormat := ⟨.one, true, .big⟩
    let levels : List EnumVariant := [⟨"high", 127⟩, ⟨"low", 0⟩]
    let replies : List VariantSpec :=
      [⟨"ping", 8388607, .int ⟨2, true, none⟩⟩, ⟨"pong", 0, .constant ⟨1, false, none⟩ 9⟩]
    let variants : List Variant :=
      [⟨"ping", 8388607, .int ⟨.two, true, .big⟩⟩, ⟨"pong", 0, .constant ⟨.one, false, .big⟩ 9⟩]
    Enumeration.compile "level" byte levels = .ok ⟨byte, levels⟩ ∧
      (⟨byte, levels⟩ : Enumeration).Tabulates byte levels ∧
      (LayoutSpec.view ⟨3, true, some .little⟩ replies).compile "reply" none .big =
        .ok (.view ⟨.three, true, .little⟩ variants) ∧
      Variant.Tabulates variants ⟨.three, true, .little⟩ .big replies := by
  intro byte levels replies variants
  have accepted : Enumeration.compile "level" byte levels = .ok ⟨byte, levels⟩ := by decide +kernel
  have acceptedToo : (LayoutSpec.view ⟨3, true, some .little⟩ replies).compile "reply" none .big =
      .ok (.view ⟨.three, true, .little⟩ variants) := rfl
  obtain ⟨enumerations, views⟩ := tables_bijective
  obtain ⟨format, compiled, resolved, same, table⟩ := views _ _ _ _ _ _ acceptedToo
  cases resolved
  cases same
  exact ⟨accepted, enumerations _ _ _ _ accepted, acceptedToo, table⟩

end RecordLayout
