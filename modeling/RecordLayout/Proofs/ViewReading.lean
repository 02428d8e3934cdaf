/-
**A view is read as what it is.**

The payload of a view is asked for by key, by name or as whatever is there. The three ways agree at
every offset of every buffer: a key can be read exactly when it is the active one, and a name is
read as its key. What a refusal says follows from the stored key alone, whether it is another
declared one, an undeclared one, or cannot be read at all.

* `Reader.variant_of_stored`, `Reader.unreadable_of_key_error`: reading a declared key, by what is
  stored.
* `Reader.Exclusive`: all that is said of one view, and `Reader.exclusive` for every view with
  distinct names.
* `Reader.StandsAt.along_at?`: every place of a draft is found in what is written for it.
* `Schema.view_reads_exclusive`: the views of a compiled schema. In a written record the selected
  key can be read and no other.
-/

import RecordLayout.Proofs.Journal
import RecordLayout.Proofs.SizeConsistency

namespace RecordLayout

namespace Reader

variable {reader : Reader} {key : IntFormat} {variants : List Variant} {stored requested : UInt64}
  {payload : Reader} {cause : ReadError}

/-! ### One view at one offset -/

theorem key_eq (view : reader.layout = .view key variants) :
    reader.key = readKey reader.data reader.name key reader.offset := by
  unfold Reader.key asView
  rw [view]
  rfl

/-- **What is active**: the payload of the declared variant that the stored key names. -/
theorem active_eq_ok_iff (view : reader.layout = .view key variants) :
    reader.active = .ok (stored, payload) ↔
      ∃ variant, reader.key = .ok stored ∧ variants.find? (·.key == stored) = some variant ∧
        reader.payloadAs key variant = .ok payload := by
  rw [key_eq view]
  unfold active asView
  rw [view]
  simp only [ok_bind, bind_eq_ok_iff]
  constructor
  · rintro ⟨found, read, taken⟩
    split at taken
    · cases taken
    · rename_i variant declared
      obtain ⟨next, reached, same⟩ := bind_eq_ok_iff.mp taken
      cases same
      exact ⟨variant, read, declared, reached⟩
  · rintro ⟨variant, read, declared, reached⟩
    refine ⟨stored, read, ?_⟩
    simp only [declared, reached, ok_bind]
    rfl

/-- **What can be read**: the payload of a declared variant whose key is stored. -/
theorem variant_eq_ok_iff (view : reader.layout = .view key variants) :
    reader.variant requested = .ok payload ↔
      ∃ variant, reader.key = .ok requested ∧ variants.find? (·.key == requested) = some variant ∧
        reader.payloadAs key variant = .ok payload := by
  rw [key_eq view]
  unfold Reader.variant asView
  rw [view]
  simp only [ok_bind]
  constructor
  · intro taken
    split at taken
    · cases taken
    · rename_i variant declared
      obtain ⟨found, read, taken⟩ := bind_eq_ok_iff.mp taken
      split_ifs at taken with differs known
      rw [not_ne_iff] at differs
      exact ⟨variant, differs ▸ read, declared, taken⟩
  · rintro ⟨variant, read, declared, reached⟩
    simp only [declared, read, ok_bind]
    exact (if_neg (by simp)).trans reached

/-- A declared key is looked up. -/
theorem exists_find?_key {variant : Variant} (declared : variant ∈ variants) :
    ∃ found, variants.find? (·.key == variant.key) = some found := by
  rw [← Option.isSome_iff_exists, List.find?_isSome]
  exact ⟨variant, declared, beq_self_eq_true _⟩

/-- **Another key is stored**: the refusal tells whether that one is declared. -/
theorem variant_of_stored {variant : Variant} (view : reader.layout = .view key variants)
    (declared : variant ∈ variants) (read : reader.key = .ok stored)
    (differs : variant.key ≠ stored) :
    reader.variant variant.key = .error (if variants.any (·.key == stored) then
      .wrongVariant variant.key stored else .unknownVariant stored) := by
  rw [key_eq view] at read
  obtain ⟨found, known⟩ := exists_find?_key declared
  unfold Reader.variant asView
  rw [view]
  simp only [ok_bind, known, read, if_pos (Ne.symm differs)]
  split_ifs <;> rfl

/-- The key that is stored is not a declared one. -/
theorem active_of_undeclared (view : reader.layout = .view key variants)
    (read : reader.key = .ok stored) (undeclared : ∀ variant ∈ variants, variant.key ≠ stored) :
    reader.active = .error (.unknownVariant stored) := by
  rw [key_eq view] at read
  have unknown : variants.find? (·.key == stored) = none := by simpa using undeclared
  unfold active asView
  rw [view]
  simp only [ok_bind, read, unknown]
  rfl

/-- A name is read as its key. -/
theorem variantNamed_eq {variant : Variant} (view : reader.layout = .view key variants)
    (names : (variants.map (·.name)).Nodup) (declared : variant ∈ variants) :
    reader.variantNamed variant.name = reader.variant variant.key := by
  unfold variantNamed asView
  rw [view]
  simp only [ok_bind, find?_of_nodup names declared]

/-- **No key can be read**: neither what is active nor any declared variant. -/
theorem unreadable_of_key_error (view : reader.layout = .view key variants)
    (names : (variants.map (·.name)).Nodup) (failed : reader.key = .error cause) :
    reader.active = .error cause ∧
      ∀ variant ∈ variants, reader.variant variant.key = .error cause ∧
        reader.variantNamed variant.name = .error cause := by
  rw [key_eq view] at failed
  constructor
  · unfold active asView
    rw [view]
    simp only [ok_bind, failed]
    rfl
  · intro variant declared
    have refused : reader.variant variant.key = .error cause := by
      obtain ⟨found, known⟩ := exists_find?_key declared
      unfold Reader.variant asView
      rw [view]
      simp only [ok_bind, known, failed]
      rfl
    exact ⟨refused, (variantNamed_eq view names declared).trans refused⟩

/-- **The reads of a view exclude each other**, and the three ways to read it agree. -/
structure Exclusive (reader : Reader) (variants : List Variant) : Prop where
  /-- A key can be read exactly when it is the active one. -/
  active : ∀ requested payload,
    reader.variant requested = .ok payload ↔ reader.active = .ok (requested, payload)
  /-- Two keys that can be read are one. -/
  one : ∀ first second payload other, reader.variant first = .ok payload →
    reader.variant second = .ok other → first = second
  /-- A declared name is read as its key. -/
  named : ∀ variant ∈ variants, reader.variantNamed variant.name = reader.variant variant.key
  /-- Every declared key but the active one is refused, and the refusal names both. -/
  wrong : ∀ stored payload, reader.active = .ok (stored, payload) → ∀ variant ∈ variants,
    variant.key ≠ stored → reader.variant variant.key = .error (.wrongVariant variant.key stored)
  /-- Nothing is read where the stored key is not declared. -/
  unknown : ∀ stored, reader.key = .ok stored → (∀ variant ∈ variants, variant.key ≠ stored) →
    reader.active = .error (.unknownVariant stored) ∧
      ∀ variant ∈ variants, reader.variant variant.key = .error (.unknownVariant stored)
  /-- Nothing is read where no key can be. -/
  unreadable : ∀ cause, reader.key = .error cause → reader.active = .error cause ∧
    ∀ variant ∈ variants, reader.variant variant.key = .error cause ∧
      reader.variantNamed variant.name = .error cause
  /-- A buffer that ends before the view has no view. -/
  missing : reader.data.size ≤ reader.offset → reader.key = .error (.missingView reader.name) ∧
    reader.active = .error (.missingView reader.name) ∧
    ∀ variant ∈ variants, reader.variant variant.key = .error (.missingView reader.name) ∧
      reader.variantNamed variant.name = .error (.missingView reader.name)

/-- A declared key among the keys. -/
theorem any_key {variant : Variant} (declared : variant ∈ variants) :
    variants.any (·.key == variant.key) = true :=
  List.any_eq_true.mpr ⟨variant, declared, beq_self_eq_true _⟩

/-- **Every view with distinct names is read exclusively**, whatever the buffer holds. -/
theorem exclusive (view : reader.layout = .view key variants)
    (names : (variants.map (·.name)).Nodup) : reader.Exclusive variants where
  active requested payload := by rw [variant_eq_ok_iff view, active_eq_ok_iff view]
  one first second payload other reached reachedToo := by
    obtain ⟨-, read, -⟩ := (variant_eq_ok_iff view).mp reached
    obtain ⟨-, readToo, -⟩ := (variant_eq_ok_iff view).mp reachedToo
    rw [read] at readToo
    exact Except.ok.inj readToo
  named variant declared := variantNamed_eq view names declared
  wrong stored payload active variant declared differs := by
    obtain ⟨found, read, known, -⟩ := (active_eq_ok_iff view).mp active
    have keyed : found.key = stored := by simpa using List.find?_some known
    have present := any_key (List.mem_of_find?_eq_some known)
    rw [keyed] at present
    rw [variant_of_stored view declared read differs, if_pos present]
  unknown stored read undeclared := by
    refine ⟨active_of_undeclared view read undeclared, fun variant declared => ?_⟩
    have absent : ¬variants.any (·.key == stored) = true := by simpa using undeclared
    rw [variant_of_stored view declared read (undeclared variant declared), if_neg absent]
  unreadable cause failed := unreadable_of_key_error view names failed
  missing short := by
    have failed : reader.key = .error (.missingView reader.name) := by
      rw [key_eq view, readKey, if_pos short]
    exact ⟨failed, unreadable_of_key_error view names failed⟩

/-! ### The places of a draft, in what is written for it -/

variable {draft part : Draft} {chunk : Bytes} {inner : Layout}

/-- **One step**: a part of the draft is found, and it is a size field or stands at the encoding of
the part. -/
theorem StandsAt.step_part? {step : Step} (stands : reader.StandsAt draft chunk)
    (sound : reader.Sound) (there : draft.part? reader.layout step = some (inner, part)) :
    ∃ next, reader.step step = .ok next ∧ next.layout = inner ∧
      ((∃ format expr, inner = .derived format expr) ∨ ∃ own, next.StandsAt part own) := by
  obtain ⟨data, name, layout, offset⟩ := reader
  simp only at there
  unfold Draft.part? at there
  split at there
  · rename_i fields members label
    simp only [Option.bind_eq_bind, Option.bind_eq_some_iff] at there
    obtain ⟨index, found, field, declared, _, present, same⟩ := there
    cases same
    obtain ⟨chunks, spells, -⟩ := stands.exists_spells sound rfl
    obtain ⟨next, reached, same, -, written⟩ := spells.derived_or_stands declared
    rw [Field.name_of_indexOf? found declared] at reached
    refine ⟨next, reached, same, written.imp_right ?_⟩
    rintro ⟨member, own, again, inside⟩
    rw [present] at again
    cases again
    exact ⟨own, inside⟩
  · rename_i element length elements index
    simp only [Option.bind_eq_bind, Option.bind_eq_some_iff] at there
    obtain ⟨_, present, same⟩ := there
    cases same
    obtain ⟨chunks, lists, -⟩ := stands.exists_lists sound rfl
    obtain ⟨next, own, -, reached, rfl, inside⟩ := lists.element_eq present
    exact ⟨_, reached, rfl, .inr ⟨own, inside⟩⟩
  · rename_i key variants index payload
    simp only [Option.bind_eq_bind, Option.bind_eq_some_iff] at there
    obtain ⟨variant, declared, same⟩ := there
    cases same
    obtain ⟨other, own, again, selects, -, inside⟩ := stands.selects sound rfl
    rw [declared] at again
    cases again
    refine ⟨_, ?_, rfl, .inr ⟨own, inside⟩⟩
    rw [step, selects.active_eq]
    rfl
  · cases there

/-- **A whole path**: every place of a draft is found in what is written for the draft. -/
theorem StandsAt.along_at? {place : Path} (stands : reader.StandsAt draft chunk)
    (sound : reader.Sound) (there : draft.at? reader.layout place = some (inner, part)) :
    ∃ next, reader.along place = .ok next ∧ next.layout = inner ∧
      ((∃ format expr, inner = .derived format expr) ∨ ∃ own, next.StandsAt part own) := by
  induction place generalizing reader draft chunk with
  | nil =>
      cases there
      exact ⟨reader, rfl, rfl, .inr ⟨chunk, stands⟩⟩
  | cons step rest ih =>
      rw [Draft.at?] at there
      obtain ⟨⟨middle, whole⟩, found, later⟩ := Option.bind_eq_some_iff.mp there
      obtain ⟨next, reached, rfl, written⟩ := stands.step_part? sound found
      rcases written with ⟨format, expr, derived⟩ | ⟨own, inside⟩
      · -- a size field has no parts, so the path ends there
        rw [derived] at later
        cases rest with
        | nil =>
            cases later
            refine ⟨next, along_cons_eq_ok_iff.mpr ⟨next, reached, rfl⟩, derived, ?_⟩
            exact .inl ⟨format, expr, rfl⟩
        | cons step rest => cases step <;> cases later
      · obtain ⟨last, walked, shape, final⟩ := ih inside (sound.step reached) later
        exact ⟨last, along_cons_eq_ok_iff.mpr ⟨next, reached, walked⟩, shape, final⟩

end Reader

/-- The key that a draft has selected is that of the variant of its payload. -/
theorem Draft.selectedKey?_eq_some {site : Site} {key : IntFormat} {variants : List Variant}
    {draft : Draft} {stored : UInt64} (view : site.layout = .view key variants)
    (selected : draft.selectedKey? site = .ok (some stored)) :
    ∃ index payload variant, draft = .view (some (index, payload)) ∧
      variants[index]? = some variant ∧ variant.key = stored := by
  simp only [Draft.selectedKey?, bind_eq_ok_iff, pure_eq_ok_iff] at selected
  obtain ⟨⟨declared, selection⟩, looked, same⟩ := selected
  obtain ⟨⟨format, layout⟩, rfl⟩ := Edit.asView_eq_ok looked
  rw [view] at layout
  cases layout
  cases selection with
  | none => cases same
  | some current =>
      obtain ⟨index, payload⟩ := current
      obtain ⟨variant, there, keyed⟩ := Option.map_eq_some_iff.mp same
      exact ⟨index, payload, variant, rfl, there, keyed⟩

namespace Schema

variable {specs : List FieldSpec} {order : ByteOrder} {schema : Schema}

/-- **A view is read as what it is**: the reads of every view of a compiled schema exclude each
other, at every offset of every buffer. Where a written record has a view with a selected key, that
key can be read, and every other declared key is refused as the wrong one. -/
theorem view_reads_exclusive {key : IntFormat} {variants : List Variant}
    (compiled : Schema.compile specs order = .ok schema)
    (inside : schema.root.Contains (.view key variants)) :
    (∀ data name offset, Reader.Exclusive ⟨data, name, .view key variants, offset⟩ variants) ∧
    ∀ (operations : List Operation) (bytes : Buffer) (place : Reader.Path) (part : Draft)
      (label : String) (stored : UInt64),
      (schema.build operations).toBuffer schema.root = .ok bytes →
      bytes.size < Address.limit →
      (schema.build operations).at? schema.root place = some (.view key variants, part) →
      part.selectedKey? ⟨label, .view key variants⟩ = .ok (some stored) →
      ∃ reader, (schema.reader bytes).along place = .ok reader ∧
        reader.layout = .view key variants ∧
        (∃ payload, reader.variant stored = .ok payload) ∧
        ∀ variant ∈ variants, variant.key ≠ stored →
          reader.variant variant.key = .error (.wrongVariant variant.key stored) := by
  have valid := valid_of_compile compiled
  have names : (variants.map (·.name)).Nodup := by
    cases valid.part inside with
    | view names _ _ _ => exact names
  refine ⟨fun data name offset => Reader.exclusive rfl names, ?_⟩
  intro operations bytes place part label stored written small there selected
  obtain ⟨index, payload, variant, rfl, declared, rfl⟩ := Draft.selectedKey?_eq_some rfl selected
  obtain ⟨root, sound⟩ :=
    Draft.standsAt_reader valid (schema.shaped_build operations) written small
  obtain ⟨reader, reached, view, ⟨_, _, other⟩ | ⟨own, stands⟩⟩ := root.along_at? sound there
  · cases other
  obtain ⟨chosen, rest, again, selects, -, -⟩ := stands.selects (sound.along reached) view
  rw [declared] at again
  cases again
  refine ⟨reader, reached, view, ⟨_, selects.variant_stored⟩, fun other member differs => ?_⟩
  exact (Reader.exclusive view names).wrong _ _ selects.active_eq other member differs

theorem view_reads_exclusive_sampleRun :
    let byte : IntFormat := ⟨.one, false, .big⟩
    let ping : Variant := ⟨"ping", 1, .int ⟨.two, true, .big⟩⟩
    let pong : Variant := ⟨"pong", 2, .constant byte 9⟩
    let bytes : Buffer := #[0, 8, 2, 1, 1, 2, 1, 1, 255, 254]
    Schema.compile samplePacket .big = .ok sampleSchema ∧
      sampleSchema.root.Contains (.view byte [ping, pong]) ∧
      (sampleSchema.build sampleRun).toBuffer sampleSchema.root = .ok bytes ∧
      Reader.Exclusive ⟨bytes, "body", .view byte [ping, pong], 7⟩ [ping, pong] ∧
      ∃ reader, (sampleSchema.reader bytes).along [.member "body"] = .ok reader ∧
        (∃ payload, reader.variant 1 = .ok payload) ∧
        reader.variant 2 = .error (.wrongVariant 2 1) := by
  intro byte ping pong bytes
  have inside : sampleSchema.root.Contains (.view byte [ping, pong]) :=
    .member (List.mem_of_getElem? (i := 4) rfl) (.refl _)
  have written : (sampleSchema.build sampleRun).toBuffer sampleSchema.root = .ok bytes := by
    decide +kernel
  obtain ⟨anywhere, record⟩ := view_reads_exclusive compile_samplePacket inside
  obtain ⟨reader, reached, -, readable, refused⟩ := record sampleRun bytes [.member "body"]
    (.view (some (0, .scalar (some 65534)))) "body" 1 written (by decide) (by rfl) (by rfl)
  exact ⟨compile_samplePacket, inside, written, anywhere _ _ _, reader, reached, readable,
    refused pong (by simp) (by decide)⟩

end Schema

end RecordLayout
