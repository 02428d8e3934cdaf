/-
**JSON values.**

The part of JSON that descriptions are written in. A number is kept as it was written: one with a
fraction or an exponent is no integer, whatever its value, and neither is minus zero.

A group of named values has two forms (`Json.entries?`). As an object, it may have entries that nobody
asks for, but none that is asked for stands there twice. As an array, it has the values in the order of
their names and may end early. A reader whose groups are nested goes from a value to what is in it
(`Json.within?`, `Json.each?`) and so, step by step, to values that are less deep.
-/

namespace RecordLayout

/-- A JSON value. -/
inductive Json where
  | null
  | bool (value : Bool)
  | integer (value : Int)
  /-- The number `mantissa * 10 ^ exponent`, written with a fraction or an exponent, or minus zero. -/
  | decimal (mantissa exponent : Int)
  | string (text : String)
  | array (items : List Json)
  | object (entries : List (String × Json))
  deriving Inhabited

namespace Json

/-- The JSON number of a word. -/
def ofWord (word : UInt64) : Json := .integer word.toNat

/-- An integer in the range of a 64-bit word. -/
def word? : Json → Option UInt64
  | .integer value =>
      if 0 ≤ value ∧ value < UInt64.size then some (UInt64.ofNat value.toNat) else none
  | _ => none

@[simp] theorem word?_ofWord (word : UInt64) : word? (ofWord word) = some word := by
  have small : word.toNat < UInt64.size := UInt64.toNat_lt_size word
  simp only [ofWord, word?, Int.toNat_natCast, UInt64.ofNat_toNat]
  rw [if_pos (by omega)]

/-- A string. -/
def text? : Json → Option String
  | .string text => some text
  | _ => none

/-- A truth value. -/
def bool? : Json → Option Bool
  | .bool value => some value
  | _ => none

/-- An array, each of whose items `decode` accepts. -/
def list? {α : Type} (decode : Json → Option α) : Json → Option (List α)
  | .array items => items.mapM decode
  | _ => none

/-! ### Groups of named values -/

/-- The entries of a group of values with the given names: those of an object, or the items of an array
under the names in their order. There may be fewer items than names, but not more. -/
def entries? (names : List String) : Json → Option (List (String × Json))
  | .object entries => some entries
  | .array items => if items.length ≤ names.length then some (names.zip items) else none
  | _ => none

theorem entries?_bind {α : Type} (names : List String) (entries : List (String × Json))
    (next : List (String × Json) → Option α) :
    (entries? names (.object entries) >>= next) = next entries :=
  rfl

/-- The value of the entry with a name. There may be no such entry, but there must not be several. -/
def entry? (entries : List (String × Json)) (name : String) : Option (Option Json) :=
  match entries.filter (·.1 == name) with
  | [] => some none
  | [(_, json)] => some (some json)
  | _ => none

theorem entry?_cons (entry : String) (json : Json) (entries : List (String × Json)) (name : String) :
    entry? ((entry, json) :: entries) name =
      if name = entry then if name ∈ entries.map (·.1) then none else some (some json)
      else entry? entries name := by
  unfold entry?
  by_cases same : name = entry
  · subst same
    rw [List.filter_cons_of_pos (by simp), if_pos rfl]
    cases others : entries.filter (·.1 == name) with
    | nil =>
        refine (if_neg fun repeated => ?_).symm
        obtain ⟨other, member, same⟩ := List.mem_map.mp repeated
        exact List.filter_eq_nil_iff.mp others other member (beq_iff_eq.mpr same)
    | cons other _ =>
        have repeated : other ∈ entries.filter (·.1 == name) := others ▸ List.mem_cons_self
        rw [List.mem_filter, beq_iff_eq] at repeated
        rw [if_pos (List.mem_map.mpr ⟨other, repeated⟩)]
  · rw [List.filter_cons_of_neg (by simpa using Ne.symm same), if_neg same]

/-- A required entry. -/
def required {α : Type} (entries : List (String × Json)) (name : String)
    (decode : Json → Option α) : Option α := do
  match ← entry? entries name with
  | some json => decode json
  | none => none

@[simp] theorem required_cons {α : Type} (entry : String) (json : Json) (entries : List (String × Json))
    (name : String) (decode : Json → Option α) :
    required ((entry, json) :: entries) name decode =
      if name = entry then if name ∈ entries.map (·.1) then none else decode json
      else required entries name decode := by
  unfold required
  rw [entry?_cons]
  split
  · split <;> rfl
  · rfl

theorem required_some_bind {α : Type} (entries : List (String × Json)) (name : String)
    (decode : Json → Option α) :
    (required entries name some).bind decode = required entries name decode := by
  unfold required
  cases entry? entries name with
  | none => rfl
  | some value => cases value <;> rfl

/-- An entry that stands for `default` when it is missing. -/
def optional {α : Type} (entries : List (String × Json)) (name : String) (default : α)
    (decode : Json → Option α) : Option α := do
  match ← entry? entries name with
  | some json => decode json
  | none => return default

@[simp] theorem optional_cons {α : Type} (entry : String) (json : Json) (entries : List (String × Json))
    (name : String) (default : α) (decode : Json → Option α) :
    optional ((entry, json) :: entries) name default decode =
      if name = entry then if name ∈ entries.map (·.1) then none else decode json
      else optional entries name default decode := by
  unfold optional
  rw [entry?_cons]
  split
  · split <;> rfl
  · rfl

/-! ### Nesting -/

mutual

/-- How deep arrays and objects are nested in a value. -/
def depth : Json → Nat
  | .array items => itemsDepth items + 1
  | .object entries => entriesDepth entries + 1
  | _ => 0

/-- The largest depth of the items of an array. -/
def itemsDepth : List Json → Nat
  | [] => 0
  | item :: rest => max item.depth (itemsDepth rest)

/-- The largest depth of the entries of an object. -/
def entriesDepth : List (String × Json) → Nat
  | [] => 0
  | (_, item) :: rest => max item.depth (entriesDepth rest)

end

theorem depth_lt_of_mem_items {items : List Json} {item : Json} (member : item ∈ items) :
    item.depth < (array items).depth := by
  rw [depth, Nat.lt_succ_iff]
  induction member with
  | head rest => exact Nat.le_max_left _ _
  | tail first _ ih => exact Nat.le_trans ih (Nat.le_max_right _ _)

theorem depth_lt_of_mem_entries {entries : List (String × Json)} {entry : String × Json}
    (member : entry ∈ entries) : entry.2.depth < (object entries).depth := by
  rw [depth, Nat.lt_succ_iff]
  induction member with
  | head rest => exact Nat.le_max_left _ _
  | tail first _ ih => exact Nat.le_trans ih (Nat.le_max_right _ _)

/-- The values of a group are less deep than the group, whichever form it has. -/
theorem depth_lt_of_entries? {json : Json} {names : List String} {entries : List (String × Json)}
    {entry : String × Json} (found : json.entries? names = some entries) (member : entry ∈ entries) :
    entry.2.depth < json.depth := by
  cases json with
  | object _ =>
      cases found
      exact depth_lt_of_mem_entries member
  | array items =>
      rw [entries?] at found
      split at found
      · cases found
        exact depth_lt_of_mem_items (List.of_mem_zip member).2
      · cases found
  | null | bool _ | integer _ | decimal _ _ | string _ => cases found

theorem mem_of_entry? {entries : List (String × Json)} {name : String} {json : Json}
    (found : entry? entries name = some (some json)) : ∃ entry ∈ entries, entry.2 = json := by
  unfold entry? at found
  split at found
  · cases found
  · rename_i entry _ only
    cases found
    have member : (entry, json) ∈ entries.filter (·.1 == name) := only ▸ List.mem_cons_self
    exact ⟨_, (List.mem_filter.mp member).1, rfl⟩
  · cases found

theorem depth_lt_of_required {json part : Json} {names : List String} {name : String}
    (found : (json.entries? names).bind (required · name some) = some part) :
    part.depth < json.depth := by
  obtain ⟨entries, group, found⟩ := Option.bind_eq_some_iff.mp found
  obtain ⟨value, asked, found⟩ := Option.bind_eq_some_iff.mp found
  cases value with
  | none => cases found
  | some value =>
      cases found
      obtain ⟨entry, member, rfl⟩ := mem_of_entry? asked
      exact depth_lt_of_entries? group member

/-- A required entry of a group of values, for a reader that relies on its depth. -/
def within? {α : Type} (json : Json) (names : List String) (name : String)
    (decode : (part : Json) → part.depth < json.depth → Option α) : Option α :=
  match found : (json.entries? names).bind (required · name some) with
  | some part => decode part (depth_lt_of_required found)
  | none => none

/-- The items of an array, for a reader that relies on their depth. -/
def each? {α : Type} (json : Json) (decode : (item : Json) → item.depth < json.depth → Option α) :
    Option (List α) :=
  match json with
  | .array items => items.attach.mapM fun item => decode item.1 (depth_lt_of_mem_items item.2)
  | _ => none

@[simp] theorem within?_eq {α : Type} (json : Json) (names : List String) (name : String)
    (decode : Json → Option α) :
    (json.within? names name fun part _ => decode part) =
      (json.entries? names).bind (required · name decode) := by
  have parts : (json.entries? names).bind (required · name decode) =
      ((json.entries? names).bind (required · name some)).bind decode := by
    simp only [Option.bind_assoc, required_some_bind]
  rw [parts]
  unfold within?
  split
  · rename_i part found
    exact (congrArg (Option.bind · decode) found).symm
  · rename_i found
    exact (congrArg (Option.bind · decode) found).symm

@[simp] theorem each?_eq {α : Type} (json : Json) (decode : Json → Option α) :
    (json.each? fun item _ => decode item) = json.list? decode := by
  cases json with
  | array items => simp [each?, list?]
  | null | bool _ | integer _ | decimal _ _ | string _ | object _ => rfl

end Json

end RecordLayout
