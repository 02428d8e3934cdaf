/-
**Descriptions survive being written.**

`toJson` and `ofJson?` are two recursions over one nested format: kinds told apart by their `type`,
integers spread over the object around them, pairs, single-entry operands, entries that may be left
out. What one of them writes the other reads back, part by part and then by induction on the
description (`LayoutSpec.ofJson?_toJson`).

A document leaves entries out at will, and it may give the values of a group by position; a written one
has objects that leave out nothing (`Json.isExplicit`). So to write what was read makes a document
complete, and doing it again changes nothing:

* `RecordSpec.ofJson?_toJson`: a described record is read back as it was written.
* `RecordSpec.isExplicit_toJson`: a written record has every entry that it may have.
* `RecordSpec.json_roundTrip`: both, and what they mean for the documents that are accepted.
-/

import RecordLayout.LayoutSpec.Json
import RecordLayout.Proofs.ValidLayout

namespace RecordLayout

/-! ### Documents that leave nothing out -/

namespace Json

/-- The entries that an object with the given entries may leave out. What it describes shows in the
entries that it must have: `fields` belongs to a record or a struct, `width` to an integer unless
`flags` make it a mask, `bit` to a flag, and `operand` to a term. -/
def optionalNames (names : List String) : List String :=
  (if "fields" ∈ names then ["endian"] else []) ++
    (if "width" ∈ names ∧ "flags" ∉ names then ["signed", "endian"] else []) ++
    (if "bit" ∈ names then ["implies", "excludes"] else []) ++
    (if "operand" ∈ names then ["negate"] else [])

mutual

/-- Whether every object in the document has all the entries that it may leave out. -/
def isExplicit : Json → Bool
  | .array items => itemsExplicit items
  | .object entries =>
      (optionalNames (entries.map (·.1))).all (· ∈ entries.map (·.1)) && entriesExplicit entries
  | _ => true

/-- Whether all items of an array leave nothing out. -/
def itemsExplicit : List Json → Bool
  | [] => true
  | item :: rest => item.isExplicit && itemsExplicit rest

/-- Whether all entries of an object leave nothing out. -/
def entriesExplicit : List (String × Json) → Bool
  | [] => true
  | (_, item) :: rest => item.isExplicit && entriesExplicit rest

end

theorem isExplicit_array {items : List Json} (each : ∀ item ∈ items, item.isExplicit) :
    (Json.array items).isExplicit := by
  rw [isExplicit]
  induction items with
  | nil => rfl
  | cons item rest ih =>
      rw [List.forall_mem_cons] at each
      rw [itemsExplicit, each.1, ih each.2]
      rfl

theorem isExplicit_object {entries : List (String × Json)}
    (complete : (optionalNames (entries.map (·.1))).all (· ∈ entries.map (·.1)) = true)
    (each : ∀ entry ∈ entries, entry.2.isExplicit) : (Json.object entries).isExplicit := by
  rw [isExplicit, complete, Bool.true_and]
  clear complete
  induction entries with
  | nil => rfl
  | cons entry rest ih =>
      obtain ⟨name, item⟩ := entry
      rw [List.forall_mem_cons] at each
      rw [entriesExplicit, each.1, ih each.2]
      rfl

@[simp] theorem isExplicit_ofWord (word : UInt64) : (ofWord word).isExplicit := rfl

@[simp] theorem isExplicit_string (text : String) : (Json.string text).isExplicit := rfl

theorem list?_cons {α : Type} (decode : Json → Option α) (item : Json) (rest : List Json) :
    list? decode (.array (item :: rest)) = do
      return (← decode item) :: (← list? decode (.array rest)) :=
  List.mapM_cons

/-- **A list is read back** when its entries are. -/
theorem list?_map {α : Type} {encode : α → Json} {decode : Json → Option α}
    (inverse : ∀ entry, decode (encode entry) = some entry) (entries : List α) :
    list? decode (.array (entries.map encode)) = some entries := by
  induction entries with
  | nil => rfl
  | cons entry rest ih =>
      rw [List.map_cons, list?_cons, inverse, ih]
      rfl

end Json

/-! ### Integers, named values and flags -/

@[simp] theorem ByteOrder.optionOfJson?_optionToJson (place : Place) (order : Option ByteOrder) :
    ByteOrder.optionOfJson? place (ByteOrder.optionToJson order) = some order := by
  cases order with
  | none => rfl
  | some order =>
      show (ByteOrder.ofName? order.name).map some = some (some order)
      rw [ByteOrder.ofName?_name]
      rfl

@[simp] theorem ByteOrder.isExplicit_optionToJson (order : Option ByteOrder) :
    (ByteOrder.optionToJson order).isExplicit := by
  cases order <;> rfl

/-- **An integer is read back.** -/
theorem IntSpec.ofEntries?_entries (place : Place) (spec : IntSpec) :
    IntSpec.ofEntries? place spec.entries = some spec := by
  simp [IntSpec.ofEntries?, IntSpec.entries, ByteOrder.ofEntries?, Json.bool?]

theorem IntSpec.type_notMem_entries (spec : IntSpec) : "type" ∉ spec.entries.map (·.1) := by
  simp [IntSpec.entries]

/-- The entries of an integer may stand behind the name of its kind. -/
theorem IntSpec.ofEntries?_cons_type (place : Place) (kind : Json)
    (entries : List (String × Json)) :
    IntSpec.ofEntries? place (("type", kind) :: entries) = IntSpec.ofEntries? place entries := by
  simp [IntSpec.ofEntries?, ByteOrder.ofEntries?]

@[simp] theorem IntSpec.ofJson?_toJson (place : Place) (spec : IntSpec) :
    IntSpec.ofJson? place spec.toJson = some spec := by
  rw [IntSpec.toJson, IntSpec.ofJson?, Json.entries?_bind, IntSpec.ofEntries?_entries]

theorem IntSpec.isExplicit_entries (spec : IntSpec) :
    ∀ entry ∈ spec.entries, entry.2.isExplicit := by
  simp [IntSpec.entries, Json.isExplicit]

@[simp] theorem IntSpec.isExplicit_toJson (spec : IntSpec) : spec.toJson.isExplicit :=
  Json.isExplicit_object (by rfl) spec.isExplicit_entries

theorem EnumVariant.ofJson?_toJson (variant : EnumVariant) :
    EnumVariant.ofJson? variant.toJson = some variant := by
  simp [EnumVariant.toJson, EnumVariant.ofJson?, Json.text?]

theorem Flag.ofJson?_toJson (flag : Flag String) : Flag.ofJson? flag.toJson = some flag := by
  have names (labels : List String) :
      Json.list? Json.text? (.array (labels.map .string)) = some labels :=
    Json.list?_map (fun label => (rfl : Json.text? (.string label) = some label)) labels
  rw [Flag.toJson, Flag.ofJson?, Json.entries?_bind]
  simp [Json.text?, names]

@[simp] theorem Flag.isExplicit_toJson (flag : Flag String) : flag.toJson.isExplicit := by
  have names (labels : List String) : (Json.array (labels.map .string)).isExplicit :=
    Json.isExplicit_array (by simp)
  refine Json.isExplicit_object (by rfl) ?_
  simp [names]

/-! ### Size expressions and lengths of arrays -/

@[simp] theorem Operand.ofJson?_toJson (operand : Operand String) :
    Operand.ofJson? operand.toJson = some operand := by
  cases operand <;> simp [Operand.toJson, Operand.ofJson?, Json.text?, Json.entries?]

theorem Term.ofJson?_toJson (term : Term String) : Term.ofJson? term.toJson = some term := by
  rw [Term.toJson, Term.ofJson?, Json.entries?_bind]
  simp [Json.bool?]

@[simp] theorem Term.isExplicit_toJson (term : Term String) : term.toJson.isExplicit := by
  have operand : term.operand.toJson.isExplicit := by
    cases term.operand with
    | const value => rfl
    | valueOf field => rfl
    | countOf field => rfl
    | sizeOf first last => rfl
  refine Json.isExplicit_object (by rfl) ?_
  simp [Json.isExplicit, operand]

/-- A written `type` is read back. -/
@[simp] theorem Place.tag?_object (place : Place) (names : List String) {entries : List (String × Json)}
    (only : "type" ∉ entries.map (·.1)) (name : String) :
    place.tag? names (.object (("type", .string name) :: entries)) = some name := by
  rw [Place.tag?, Json.required_cons, if_pos rfl, if_neg only]
  rfl

@[simp] theorem ArrayLength.ofJson?_toJson (length : ArrayLength IntSpec) :
    ArrayLength.ofJson? length.toJson = some length := by
  cases length <;> rw [ArrayLength.toJson, ArrayLength.ofJson?] <;> simp [Json.entries?]

@[simp] theorem ArrayLength.isExplicit_toJson (length : ArrayLength IntSpec) :
    length.toJson.isExplicit := by
  cases length with
  | fixed count => rfl
  | bounded capacity counter =>
      refine Json.isExplicit_object (by rfl) ?_
      simp

/-! ### Kinds -/

theorem FieldSpec.list?_toItems {fields : List FieldSpec} (place : Place)
    (each : ∀ field ∈ fields, LayoutSpec.ofJson? place field.kind.toJson = some field.kind) :
    Json.list? (FieldSpec.ofJson? place) (.array (FieldSpec.toItems fields)) = some fields := by
  induction fields with
  | nil => rfl
  | cons field rest ih =>
      obtain ⟨name, kind⟩ := field
      rw [List.forall_mem_cons] at each
      have first : FieldSpec.ofJson? place
          (.object [("name", .string name), ("kind", kind.toJson)]) = some ⟨name, kind⟩ := by
        rw [FieldSpec.ofJson?, Json.entries?_bind]
        simp [Json.entries?, Json.text?, each.1]
      rw [FieldSpec.toItems, Json.list?_cons, first, ih each.2]
      rfl

theorem VariantSpec.list?_toItems {variants : List VariantSpec}
    (each : ∀ variant ∈ variants,
      LayoutSpec.ofJson? .inner variant.kind.toJson = some variant.kind) :
    Json.list? VariantSpec.ofJson? (.array (VariantSpec.toItems variants)) = some variants := by
  induction variants with
  | nil => rfl
  | cons variant rest ih =>
      obtain ⟨name, key, kind⟩ := variant
      rw [List.forall_mem_cons] at each
      have first : VariantSpec.ofJson?
          (.object [("name", .string name), ("key", .ofWord key), ("kind", kind.toJson)]) =
            some ⟨name, key, kind⟩ := by
        rw [VariantSpec.ofJson?, Json.entries?_bind]
        simp [Json.entries?, Json.text?, each.1]
      rw [VariantSpec.toItems, Json.list?_cons, first, ih each.2]
      rfl

/-- **A kind is read back**, wherever it stands. -/
theorem LayoutSpec.ofJson?_toJson (spec : LayoutSpec) (place : Place) :
    LayoutSpec.ofJson? place spec.toJson = some spec := by
  induction spec generalizing place with
  | int spec =>
      rw [LayoutSpec.toJson, LayoutSpec.ofJson?]
      rw [Place.tag?_object _ _ spec.type_notMem_entries]
      simp [Json.entries?, IntSpec.ofEntries?_cons_type, IntSpec.ofEntries?_entries]
  | enum spec =>
      rw [LayoutSpec.toJson, LayoutSpec.ofJson?]
      simp [Json.entries?, Json.list?_map EnumVariant.ofJson?_toJson]
  | mask spec =>
      rw [LayoutSpec.toJson, LayoutSpec.ofJson?]
      simp [Json.entries?, Json.list?_map Flag.ofJson?_toJson]
  | struct fields order ih =>
      have members := FieldSpec.list?_toItems .inner fun field inside => ih field inside .inner
      rw [LayoutSpec.toJson, LayoutSpec.ofJson?]
      simp [Json.entries?, members, ByteOrder.ofEntries?]
  | array element length ih =>
      rw [LayoutSpec.toJson, LayoutSpec.ofJson?]
      simp [Json.entries?, ih]
  | view key variants ih =>
      have payloads := VariantSpec.list?_toItems fun variant inside => ih variant inside .inner
      rw [LayoutSpec.toJson, LayoutSpec.ofJson?]
      simp [Json.entries?, payloads]
  | constant format value =>
      rw [LayoutSpec.toJson, LayoutSpec.ofJson?]
      simp [Json.entries?]
  | derived format expr =>
      rw [LayoutSpec.toJson, LayoutSpec.ofJson?]
      simp [Json.entries?, Json.list?_map Term.ofJson?_toJson]

theorem FieldSpec.isExplicit_toItems {fields : List FieldSpec}
    (each : ∀ field ∈ fields, field.kind.toJson.isExplicit) :
    ∀ item ∈ FieldSpec.toItems fields, item.isExplicit := by
  induction fields with
  | nil => simp [FieldSpec.toItems]
  | cons field rest ih =>
      obtain ⟨name, kind⟩ := field
      rw [List.forall_mem_cons] at each
      rw [FieldSpec.toItems, List.forall_mem_cons]
      refine ⟨Json.isExplicit_object (by rfl) ?_, ih each.2⟩
      simp [each.1]

theorem VariantSpec.isExplicit_toItems {variants : List VariantSpec}
    (each : ∀ variant ∈ variants, variant.kind.toJson.isExplicit) :
    ∀ item ∈ VariantSpec.toItems variants, item.isExplicit := by
  induction variants with
  | nil => simp [VariantSpec.toItems]
  | cons variant rest ih =>
      obtain ⟨name, key, kind⟩ := variant
      rw [List.forall_mem_cons] at each
      rw [VariantSpec.toItems, List.forall_mem_cons]
      refine ⟨Json.isExplicit_object (by rfl) ?_, ih each.2⟩
      simp [each.1]

/-- **A written kind leaves nothing out.** -/
theorem LayoutSpec.isExplicit_toJson (spec : LayoutSpec) : spec.toJson.isExplicit := by
  induction spec with
  | int spec =>
      rw [LayoutSpec.toJson]
      refine Json.isExplicit_object (by rfl) ?_
      exact List.forall_mem_cons.mpr ⟨rfl, spec.isExplicit_entries⟩
  | enum spec =>
      have variants : (Json.array (spec.variants.map EnumVariant.toJson)).isExplicit := by
        refine Json.isExplicit_array fun item member => ?_
        obtain ⟨variant, -, rfl⟩ := List.mem_map.mp member
        rfl
      rw [LayoutSpec.toJson]
      refine Json.isExplicit_object (by rfl) ?_
      simp [variants]
  | mask spec =>
      have flags : (Json.array (spec.flags.map Flag.toJson)).isExplicit :=
        Json.isExplicit_array (by simp)
      rw [LayoutSpec.toJson]
      refine Json.isExplicit_object (by rfl) ?_
      simp [flags]
  | struct fields order ih =>
      rw [LayoutSpec.toJson]
      refine Json.isExplicit_object (by rfl) ?_
      simp [Json.isExplicit_array (FieldSpec.isExplicit_toItems ih)]
  | array element length ih =>
      rw [LayoutSpec.toJson]
      refine Json.isExplicit_object (by rfl) ?_
      simp [ih]
  | view key variants ih =>
      rw [LayoutSpec.toJson]
      refine Json.isExplicit_object (by rfl) ?_
      simp [Json.isExplicit_array (VariantSpec.isExplicit_toItems ih)]
  | constant format value =>
      rw [LayoutSpec.toJson]
      refine Json.isExplicit_object (by rfl) ?_
      simp
  | derived format expr =>
      have terms : (Json.array (expr.map Term.toJson)).isExplicit :=
        Json.isExplicit_array (by simp)
      rw [LayoutSpec.toJson]
      refine Json.isExplicit_object (by rfl) ?_
      simp [terms]

/-! ### Records -/

namespace RecordSpec

theorem ofJson?_toJson (record : RecordSpec) : RecordSpec.ofJson? record.toJson = some record := by
  have fields : Json.list? (FieldSpec.ofJson? .outer) (.array (FieldSpec.toItems record.fields)) =
      some record.fields :=
    FieldSpec.list?_toItems .outer fun field _ => field.kind.ofJson?_toJson .outer
  rw [RecordSpec.toJson, RecordSpec.ofJson?, Json.entries?_bind]
  simp [ByteOrder.ofEntries?, FieldSpec.listOfJson?, fields]

theorem isExplicit_toJson (record : RecordSpec) : record.toJson.isExplicit := by
  have fields := FieldSpec.isExplicit_toItems fun (field : FieldSpec) (_ : field ∈ record.fields) =>
    field.kind.isExplicit_toJson
  refine Json.isExplicit_object (by rfl) ?_
  simp [Json.isExplicit_array fields]

/-- Reads a document and writes down what it describes. -/
def normalize? (document : Json) : Option Json :=
  (RecordSpec.ofJson? document).map RecordSpec.toJson

/-- **Descriptions survive being written.** Every described record is read back as it was written.
A document that is accepted has a normal form: it has every entry that may be left out, it is its own
normal form, and it compiles to what the document compiles to. -/
theorem json_roundTrip :
    (∀ record : RecordSpec, RecordSpec.ofJson? record.toJson = some record) ∧
      ∀ document record, RecordSpec.ofJson? document = some record →
        ∃ written, normalize? document = some written ∧ written.isExplicit ∧
          normalize? written = some written ∧
          (RecordSpec.ofJson? written).map Schema.ofRecord =
            (RecordSpec.ofJson? document).map Schema.ofRecord := by
  refine ⟨ofJson?_toJson, fun document record accepted => ⟨record.toJson, ?_, ?_, ?_, ?_⟩⟩
  · rw [normalize?, accepted, Option.map_some]
  · exact record.isExplicit_toJson
  · rw [normalize?, record.ofJson?_toJson, Option.map_some]
  · rw [record.ofJson?_toJson, accepted]

/-- A document that leaves out what it can: byte orders, signs, relations of flags, the sign of a
term. The field `total` is an array, and so are its kind and the range that it measures; the field
`list` is an object. Within its kind, the elements are an array whose first item is the number of a
kind. -/
def sampleDocument : Json :=
  .object [("fields", .array [
    .array [.string "total", .array [.string "DerivedSize",
      .object [("width", .integer 2), ("endian", .string "Little")],
      .array [.object [("operand", .object [("size_of", .array [.string "list", .string "list"])])]]]],
    .object [("kind", .object [("type", .string "Array"),
      ("element", .array [.integer 2, .integer 1, .array [.array [.string "on", .integer 7]]]),
      ("len", .object [("type", .string "Bounded"), ("max", .integer 3),
        ("count", .object [("width", .integer 1), ("note", .null)])])]),
      ("name", .string "list")]])]

/-- The record that the document describes. -/
def sampleRecord : RecordSpec :=
  ⟨[⟨"total", .derived ⟨2, false, some .little⟩ [⟨false, .sizeOf "list" "list"⟩]⟩,
    ⟨"list", .array (.mask ⟨1, [⟨"on", 7, [], []⟩]⟩) (.bounded 3 ⟨1, false, none⟩)⟩], none⟩

theorem json_roundTrip_sampleDocument :
    RecordSpec.ofJson? sampleDocument = some sampleRecord ∧ sampleDocument.isExplicit = false ∧
      ∃ written, normalize? sampleDocument = some written ∧ written.isExplicit ∧
        normalize? written = some written ∧
        (RecordSpec.ofJson? written).map Schema.ofRecord =
          (RecordSpec.ofJson? sampleDocument).map Schema.ofRecord := by
  have accepted : RecordSpec.ofJson? sampleDocument = some sampleRecord := by
    with_unfolding_all rfl
  exact ⟨accepted, rfl, json_roundTrip.2 sampleDocument sampleRecord accepted⟩

end RecordSpec

end RecordLayout
