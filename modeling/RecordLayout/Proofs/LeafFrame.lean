/-
**A new value in a leaf changes the leaf and the sizes that use it.**

Storing in an integer or an enumeration changes one word of the draft (`Draft.Reworded`). No size,
no count and no offset depends on it: what is written before and after has the same length, and
every part is found at the same place. So a byte that differs is one of the leaf, or of a size field
beside the leaf whose expression uses the value of the leaf.

* `Draft.Reworded.size_eq`: sizes do not change.
* `Scope.exists_valueOf_of_ne`: a size field that does is one that uses the value.
* `Holds.exists_changed`: where the bytes of two buffers differ, one of the chunks there does.
* `Reader.Frames`: what holds of two buffers around a leaf. It passes from a part to the whole by
  one step (`Reader.Frames.cons`), and `Draft.Reworded.frames` goes the whole way from the leaf.
* `Schema.store_changes_leaf`: the records before and after a value is stored.
-/

import RecordLayout.Proofs.Journal
import RecordLayout.Proofs.SizeConsistency

namespace RecordLayout

/-! ### One word of a draft -/

/-- **One word is another**: the drafts differ at most in the word of the leaf at the place, which
has the layout `target`. -/
inductive Draft.Reworded : Layout → Reader.Path → (target : Layout) → Draft → Draft → Prop where
  | leaf {layout : Layout} {old new : Option UInt64} :
      Reworded layout [] layout (.scalar old) (.scalar new)
  | member {fields : List Field} {members : List Draft} {name : String} {index : Nat}
      {field : Field} {part next : Draft} {place : Reader.Path} {target : Layout}
      (found : Field.indexOf? fields name = some index) (declared : fields[index]? = some field)
      (there : members[index]? = some part)
      (inner : Reworded field.layout place target part next) :
      Reworded (.struct fields) (.member name :: place) target (.struct members)
        (.struct (members.set index next))
  | element {element : Layout} {length : ArrayLength IntFormat} {elements : List Draft}
      {index : Nat} {part next : Draft} {place : Reader.Path} {target : Layout}
      (there : elements[index]? = some part) (inner : Reworded element place target part next) :
      Reworded (.array element length) (.element index :: place) target (.array elements)
        (.array (elements.set index next))
  | payload {key : IntFormat} {variants : List Variant} {index : Nat} {variant : Variant}
      {part next : Draft} {place : Reader.Path} {target : Layout}
      (declared : variants[index]? = some variant)
      (inner : Reworded variant.layout place target part next) :
      Reworded (.view key variants) (.active :: place) target (.view (some (index, part)))
        (.view (some (index, next)))

/-- Members as large as those before have the same sizes. -/
theorem memberSizes_set {fields : List Field} {members : List Draft} {index : Nat} {field : Field}
    {part next : Draft} (declared : fields[index]? = some field)
    (there : members[index]? = some part)
    (same : next.size field.layout = part.size field.layout) :
    memberSizes fields (members.set index next) = memberSizes fields members := by
  unfold memberSizes
  induction fields generalizing members index with
  | nil => cases declared
  | cons first fields ih =>
      cases members with
      | nil => cases there
      | cons head members =>
          cases index with
          | zero =>
              cases declared
              cases there
              simp [same]
          | succ index =>
              simp [ih declared there]

theorem map_size_set {element : Layout} {elements : List Draft} {index : Nat} {part next : Draft}
    (there : elements[index]? = some part) (same : next.size element = part.size element) :
    (elements.set index next).map (·.size element) = elements.map (·.size element) := by
  obtain ⟨inside, rfl⟩ := List.getElem?_eq_some_iff.mp there
  rw [List.map_set, same, ← List.map_set, List.set_getElem_self]

namespace Draft.Reworded

variable {layout target : Layout} {place : Reader.Path} {draft next : Draft}

theorem count_eq (reworded : Reworded layout place target draft next) :
    next.count = draft.count := by
  cases reworded with
  | element there inner => exact List.length_set
  | _ => rfl

/-- **Sizes do not change.** -/
theorem size_eq (reworded : Reworded layout place target draft next) :
    next.size layout = draft.size layout := by
  induction reworded with
  | @leaf layout old new => cases layout <;> rfl
  | member found declared there inner ih =>
      have sizes := memberSizes_set declared there ih
      unfold memberSizes at sizes
      rw [Draft.size, Draft.size, membersSize_eq_sum, membersSize_eq_sum, sizes]
  | element there inner ih =>
      rw [Draft.size, Draft.size, elementsSize_eq_sum, elementsSize_eq_sum, map_size_set there ih]
  | @payload key variants index variant part next place target declared inner ih =>
      rw [Draft.size, Draft.size, declared]
      exact congrArg (key.bytes + ·) ih

/-- Only a leaf has a number. -/
theorem number?_eq (reworded : Reworded layout place target draft next) (deep : place ≠ []) :
    next.number? layout = draft.number? layout := by
  cases reworded with
  | leaf => exact absurd rfl deep
  | _ => rfl

/-- There is no word in a size field. -/
theorem ne_derived (reworded : Reworded layout place target draft next)
    (shaped : draft.Shaped layout) {format : IntFormat} {expr : SizeExpr Nat} :
    layout ≠ .derived format expr := by
  rintro rfl
  cases shaped
  cases reworded

end Draft.Reworded

/-! ### Storing a word -/

namespace Edit

/-- The actions that store a word in the part itself. -/
def Action.storesWord : Action → Bool
  | .set _ | .setSigned _ | .setEnum _ => true
  | _ => false

variable {site : Site} {part next : Draft}

theorem Action.isWord_of_run {action : Action} (stores : action.storesWord = true)
    (ran : action.run site part = .ok () next) : next.IsWord site.layout := by
  cases action with
  | set value =>
      exact Draft.isWord_ofUnsigned (update_eq_ok (fun _ => Draft.ofUnsigned site value) ran)
  | setSigned value =>
      exact Draft.isWord_ofSigned (update_eq_ok (fun _ => Draft.ofSigned site value) ran)
  | setEnum variant =>
      exact Draft.isWord_ofVariant (update_eq_ok (fun _ => Draft.ofVariant site variant) ran)
  | _ => cases stores

/-- A word takes the place of a word. -/
theorem reworded_of_isWord (shaped : part.Shaped site.layout) (stored : next.IsWord site.layout) :
    Draft.Reworded site.layout [] site.layout part next := by
  obtain ⟨word, rfl, allowed⟩ := stored
  generalize site.layout = layout at shaped allowed
  cases allowed <;> cases shaped <;> exact .leaf

variable {sub : Site} {draft : Draft} {step : Step} {rebuild : Draft → Draft}

/-- **One step**: what is rebuilt around two parts differs where they do. -/
theorem Enters.reworded (enters : Enters site draft step sub part rebuild) {place : Reader.Path}
    {target : Layout} {old new : Draft} (inner : Draft.Reworded sub.layout place target old new) :
    Draft.Reworded site.layout (step.place (rebuild new) :: place) target (rebuild old)
      (rebuild new) := by
  cases enters with
  | member struct found declared there =>
      have inside := (List.getElem?_eq_some_iff.mp there).1
      have whole := Draft.Reworded.member found declared (List.getElem?_set_self inside) inner
      rw [List.set_set] at whole
      exact struct ▸ whole
  | @element element length elements index part array there =>
      have inside := (List.getElem?_eq_some_iff.mp there).1
      have whole : Draft.Reworded (.array element length) _ _ _ _ :=
        .element (List.getElem?_set_self inside) inner
      rw [List.set_set] at whole
      exact array ▸ whole
  | @append element length elements array room =>
      have whole : Draft.Reworded (.array element length) _ _ (.array (elements ++ [old])) _ :=
        .element List.getElem?_concat_length inner
      rw [List.set_append_right _ _ (Nat.le_refl _), Nat.sub_self, List.set_cons_zero] at whole
      rw [array, show Step.append.place (.array (elements ++ [new])) = .element elements.length by
        simp [Step.place, Draft.count]]
      exact whole
  | @payload key variants selection step index variant part view named declared selected =>
      rw [view, Step.place_of_payload named]
      exact .payload declared inner

/-- **A whole path**: a record with the path gone, and the record with a word stored at its end. -/
theorem reworded_of_along {path : List Step} {edit : Site → Edit Unit} {reached : Draft}
    (stores : ∀ site part next, edit site part = .ok () next → next.IsWord site.layout)
    (shaped : draft.Shaped site.layout)
    (led : along path (fun _ => pure ()) site draft = .ok () reached)
    (stored : along path edit site draft = .ok () next) :
    ∃ place target, place? site.layout next path = some (place, target) ∧
      Draft.Reworded site.layout place target reached next := by
  induction path generalizing site draft reached next with
  | nil =>
      cases led
      exact ⟨[], site.layout, rfl, reworded_of_isWord shaped (stores _ _ _ stored)⟩
  | cons step rest ih =>
      rw [along] at led stored
      obtain ⟨cause, refused⟩ | ⟨sub, part, rebuild, enters, entered⟩ :=
        enter_cases (α := Unit) site step draft
      · rw [refused] at led
        cases led
      · rw [entered] at led stored
        obtain ⟨old, before, rfl⟩ := within_eq_ok led
        obtain ⟨new, after, rfl⟩ := within_eq_ok stored
        obtain ⟨place, target, placed, inner⟩ := ih (enters.shaped shaped).1 before after
        refine ⟨_, target, ?_, enters.reworded inner⟩
        rw [place?, enters.part?_rebuild new]
        show (place? sub.layout new rest).bind _ = _
        rw [placed]
        rfl

end Edit

/-! ### Sizes beside the leaf -/

namespace Scope

variable {fields : List Field} {members : List Draft} {index : Nat} {field : Field}
  {part next : Draft}

/-- A quantity is what it was, unless it is a number that has changed. -/
theorem quantityBy_set (declared : fields[index]? = some field)
    (there : members[index]? = some part) (counts : next.count = part.count)
    {operand : Operand Nat}
    (numbers : operand = .valueOf index → next.number? field.layout = part.number? field.layout)
    (lengths : List Nat) :
    Scope.quantityBy ⟨fields, members.set index next⟩ lengths operand =
      Scope.quantityBy ⟨fields, members⟩ lengths operand := by
  have inside := (List.getElem?_eq_some_iff.mp there).1
  cases operand with
  | valueOf other =>
      simp only [quantityBy, valueOf]
      by_cases same : index = other
      · subst same
        simp only [declared, there, List.getElem?_set_self inside, numbers rfl]
      · rw [List.getElem?_set_ne same]
  | countOf other =>
      simp only [quantityBy, countOf]
      by_cases same : index = other
      · subst same
        simp only [there, List.getElem?_set_self inside, counts]
      · rw [List.getElem?_set_ne same]
  | _ => rfl

/-- **A member that is encoded anew is a size that uses the changed number.** -/
theorem exists_valueOf_of_ne (declared : fields[index]? = some field)
    (there : members[index]? = some part) (counts : next.count = part.count) {lengths : List Nat}
    {other : Field} {member : Draft}
    (differs : Scope.encodeMember ⟨fields, members⟩ lengths other member ≠
      Scope.encodeMember ⟨fields, members.set index next⟩ lengths other member) :
    next.number? field.layout ≠ part.number? field.layout ∧
      ∃ format expr, other.layout = .derived format expr ∧
        ∃ term ∈ expr, term.operand = .valueOf index := by
  unfold Scope.encodeMember at differs
  split at differs
  · rename_i format expr derived
    by_contra unused
    apply differs
    have same : expr.evaluate (Scope.quantityBy ⟨fields, members⟩ lengths) =
        expr.evaluate (Scope.quantityBy ⟨fields, members.set index next⟩ lengths) := by
      apply SizeExpr.evaluate_congr
      intro term inside
      refine (quantityBy_set declared there counts (fun uses => ?_) lengths).symm
      by_contra changed
      exact unused ⟨changed, format, expr, derived, term, inside, uses⟩
    rw [encodeSize, encodeSize, evaluateBy, evaluateBy, same]
  · exact absurd rfl differs

end Scope

/-! ### Two buffers -/

namespace Holds

variable {data later : Buffer} {offset position : Nat}

theorem getElem?_eq {chunk : Bytes} (held : Holds data offset chunk) (start : offset ≤ position)
    (stop : position < offset + chunk.length) : data[position]? = chunk[position - offset]? := by
  obtain ⟨before, after, split, rfl⟩ := held
  rw [← Array.getElem?_toList, split, List.append_assoc, List.getElem?_append_right start,
    List.getElem?_append_left (by omega)]

/-- **Where two buffers differ, a chunk does.** -/
theorem exists_changed {chunks others : List Bytes} (held : Holds data offset chunks.flatten)
    (again : Holds later offset others.flatten)
    (lengths : others.map List.length = chunks.map List.length) (start : offset ≤ position)
    (stop : position < offset + chunks.flatten.length)
    (changed : data[position]? ≠ later[position]?) :
    ∃ index chunk other, chunks[index]? = some chunk ∧ others[index]? = some other ∧
      chunk ≠ other ∧ offset + (chunks.take index).flatten.length ≤ position ∧
      position < offset + (chunks.take index).flatten.length + chunk.length := by
  induction chunks generalizing offset others with
  | nil =>
      simp only [List.flatten_nil, List.length_nil] at stop
      omega
  | cons chunk chunks ih =>
      cases others with
      | nil => cases lengths
      | cons other others =>
          rw [List.map_cons, List.map_cons, List.cons.injEq] at lengths
          obtain ⟨length, lengths⟩ := lengths
          rw [List.flatten_cons] at held again stop
          rw [List.length_append] at stop
          by_cases here : position < offset + chunk.length
          · refine ⟨0, chunk, other, rfl, rfl, ?_, start, here⟩
            rintro rfl
            exact changed ((held.left.getElem?_eq start here).trans
              (again.left.getElem?_eq start here).symm)
          · have behind := again.right
            rw [length] at behind
            obtain ⟨index, old, new, there, thereToo, differs, first, last⟩ :=
              ih held.right behind lengths (by omega) (by omega)
            refine ⟨index + 1, old, new, there, thereToo, differs, ?_, ?_⟩ <;>
              (rw [List.take_succ_cons, List.flatten_cons, List.length_append]; omega)

end Holds

namespace Reader

/-- The reader at the same place of other data. -/
def withData (reader : Reader) (data : Buffer) : Reader := { reader with data := data }

/-- The byte at the position is one of the value that the reader stands at. -/
def Covers (reader : Reader) (position : Nat) : Prop :=
  ∃ length, reader.extent = .ok length ∧ reader.offset ≤ position ∧
    position < reader.offset + length

/-- **A size that uses a member**: `size` stands at a size field of the struct that the place is a
member of, and its expression has the value of that member as a term. -/
inductive Uses (root : Reader) : Path → (size : Reader) → Prop where
  | sibling {parent : Path} {owner size : Reader} {fields : List Field} {index : Nat}
      {leaf field : Field} {format : IntFormat} {expr : SizeExpr Nat} {term : Term Nat}
      (reached : root.along parent = .ok owner) (struct : owner.layout = .struct fields)
      (member : fields[index]? = some leaf) (beside : field ∈ fields)
      (derived : field.layout = .derived format expr) (inside : term ∈ expr)
      (uses : term.operand = .valueOf index) (found : owner.field field.name = .ok size) :
      Uses root (parent ++ [.member leaf.name]) size

/-- The byte at the position is one of the next `length` bytes, and it differs in the other data. -/
structure Differs (reader : Reader) (data : Buffer) (length position : Nat) : Prop where
  start : reader.offset ≤ position
  stop : position < reader.offset + length
  changed : reader.data[position]? ≠ data[position]?

/-- **The frame of a leaf**: the leaf is found at one place of both data, and of the next `length`
bytes those that differ are bytes of the leaf or of a size that uses it. -/
structure Frames (reader : Reader) (data : Buffer) (length : Nat) (place : Path) (leaf : Reader) :
    Prop where
  found : reader.along place = .ok leaf
  again : (reader.withData data).along place = .ok (leaf.withData data)
  rest : ∀ position, reader.Differs data length position →
    leaf.Covers position ∨ ∃ size, reader.Uses place size ∧ size.Covers position

/-- **A step towards the leaf**: it leads to one place of both data, and what differs does so behind
the step or in a size that uses the leaf. -/
structure Narrows (reader : Reader) (data : Buffer) (length : Nat) (step : Step) (place : Path)
    (next : Reader) (own : Nat) : Prop where
  moved : reader.step step = .ok next
  again : (reader.withData data).step step = .ok (next.withData data)
  outside : ∀ position, reader.Differs data length position → next.Differs data own position ∨
    ∃ size, reader.Uses (step :: place) size ∧ size.Covers position

variable {reader next leaf size : Reader} {data : Buffer} {first : Step} {place : Path}

theorem Uses.cons (moved : reader.step first = .ok next) (uses : next.Uses place size) :
    reader.Uses (first :: place) size := by
  cases uses with
  | sibling reached struct member beside derived inside uses found =>
      have started := along_cons_eq_ok_iff.mpr ⟨next, moved, reached⟩
      rw [← List.cons_append]
      exact .sibling started struct member beside derived inside uses found

/-- **One step**: the frame passes from a part to the whole. -/
theorem Frames.cons {length own : Nat} (inner : next.Frames data own place leaf)
    (narrows : reader.Narrows data length first place next own) :
    reader.Frames data length (first :: place) leaf where
  found := along_cons_eq_ok_iff.mpr ⟨next, narrows.moved, inner.found⟩
  again := along_cons_eq_ok_iff.mpr ⟨_, narrows.again, inner.again⟩
  rest position differs := by
    rcases narrows.outside position differs with behind | beside
    · refine (inner.rest position behind).imp_right ?_
      rintro ⟨size, uses, covers⟩
      exact ⟨size, uses.cons narrows.moved, covers⟩
    · exact .inr beside

/-! ### From the leaf to the record -/

section Kinds

variable {part other : Draft} {target : Layout} {index : Nat}

/-- What stands at a reader covers its chunk. -/
theorem StandsAt.covers {chunk : Bytes} {position : Nat} (stands : reader.StandsAt part chunk)
    (sound : reader.Sound) (start : reader.offset ≤ position)
    (stop : position < reader.offset + chunk.length) : reader.Covers position := by
  obtain ⟨value, -, reads⟩ := Draft.readsAs_encode sound.valid stands.shaped stands.encoded
  exact ⟨_, (reads _ _ sound.small stands.held).extent, start, stop⟩

/-- A member that is no size field stands at its chunk. -/
theorem Spells.stands {fields : List Field} {members : List Draft} {chunks : List Bytes}
    {field : Field} (spells : reader.Spells fields members chunks)
    (declared : fields[index]? = some field) (there : members[index]? = some part)
    (plain : ∀ format expr, field.layout ≠ .derived format expr) :
    ∃ chunk, chunks[index]? = some chunk ∧ reader.field field.name =
        .ok ⟨reader.data, field.name, field.layout, reader.place chunks index⟩ ∧
      StandsAt ⟨reader.data, field.name, field.layout, reader.place chunks index⟩ part chunk := by
  obtain ⟨member, chunk, paired, written, encoded, found, held⟩ := spells.member declared
  have shaped := spells.each _ (List.mem_of_getElem? paired)
  have drafted := (List.getElem?_zip_eq_some.mp paired).2
  rw [there] at drafted
  cases drafted
  obtain ⟨format, expr, derived, -⟩ | own := Scope.encodeMember_eq_ok encoded
  · exact absurd derived (plain format expr)
  · exact ⟨chunk, written, found, shaped, own, held⟩

section Struct

variable {fields : List Field} {members : List Draft} {chunks others : List Bytes} {field : Field}

/-- **Beside the leaf**: another member has the draft that it had, so if it is encoded anew, it is a
size that uses the leaf. -/
theorem Spells.uses_of_changed {changed : Nat} {old new : Bytes}
    (spells : reader.Spells fields members chunks)
    (spellsToo : (reader.withData data).Spells fields (members.set index other) others)
    (declared : fields[index]? = some field) (there : members[index]? = some part)
    (reworded : Draft.Reworded field.layout place target part other) (apart : index ≠ changed)
    (thereOld : chunks[changed]? = some old) (thereNew : others[changed]? = some new)
    (distinct : old ≠ new) :
    place = [] ∧ ∃ size, reader.Uses [.member field.name] size ∧
      size.offset = reader.place chunks changed ∧ size.extent = .ok old.length := by
  obtain ⟨⟨beside, member⟩, paired, encoded⟩ :=
    exists_result_of_getElem? spells.pieces.flip thereOld
  obtain ⟨⟨besideToo, memberToo⟩, pairedToo, encodedToo⟩ :=
    exists_result_of_getElem? spellsToo.pieces.flip thereNew
  obtain ⟨besides, drafted⟩ := List.getElem?_zip_eq_some.mp paired
  obtain ⟨besidesToo, draftedToo⟩ := List.getElem?_zip_eq_some.mp pairedToo
  rw [besides] at besidesToo
  rw [List.getElem?_set_ne apart, drafted] at draftedToo
  cases besidesToo
  cases draftedToo
  rw [memberSizes_set declared there reworded.size_eq] at encodedToo
  have differs : Scope.encodeMember ⟨fields, members⟩ (memberSizes fields members) beside member ≠
      Scope.encodeMember ⟨fields, members.set index other⟩ (memberSizes fields members) beside
        member := by
    rw [encoded, encodedToo]
    exact fun equal => distinct (Except.ok.inj equal)
  obtain ⟨numbers, format, expr, derived, term, inside, uses⟩ :=
    Scope.exists_valueOf_of_ne declared there reworded.count_eq differs
  have shallow : place = [] := by
    by_contra deep
    exact numbers (reworded.number?_eq deep)
  have length : old.length = format.bytes := by
    simp only [Scope.encodeMember, derived] at encoded
    exact Scope.length_encodeSize encoded
  obtain ⟨_, _, -, -, -, found, -⟩ := spells.member besides
  have here : reader.along [] = .ok reader := rfl
  refine ⟨shallow, _, .sibling here spells.struct declared (List.mem_of_getElem? besides) derived
    inside uses found, rfl, ?_⟩
  rw [extent, length]
  exact Layout.extent_of_width? (by rw [derived]; rfl) _ _

/-- **A member of a struct.** -/
theorem Spells.narrows (spells : reader.Spells fields members chunks)
    (spellsToo : (reader.withData data).Spells fields (members.set index other) others)
    (declared : fields[index]? = some field) (there : members[index]? = some part)
    (reworded : Draft.Reworded field.layout place target part other) :
    ∃ next chunk chunkToo, next.layout = field.layout ∧ next.StandsAt part chunk ∧
      (next.withData data).StandsAt other chunkToo ∧
      reader.Narrows data chunks.flatten.length (.member field.name) place next chunk.length := by
  have inside := (List.getElem?_eq_some_iff.mp there).1
  have shaped := Draft.Shaped.member spells.each declared there
  have plain format expr : field.layout ≠ .derived format expr := reworded.ne_derived shaped
  have sizes := memberSizes_set declared there reworded.size_eq
  have places : (reader.withData data).place others index = reader.place chunks index := by
    rw [spells.place_eq, spellsToo.place_eq, sizes]
    rfl
  obtain ⟨chunk, written, reached, stands⟩ := spells.stands declared there plain
  obtain ⟨chunkToo, -, reachedToo, standsToo⟩ :=
    spellsToo.stands declared (List.getElem?_set_self inside) plain
  rw [places] at reachedToo standsToo
  refine ⟨_, chunk, chunkToo, rfl, stands, standsToo, reached, reachedToo, ?_⟩
  intro position differs
  have lengths := spellsToo.lengths.trans (sizes.trans spells.lengths.symm)
  obtain ⟨changed, old, new, thereOld, thereNew, distinct, start, stop⟩ :=
    spells.held.exists_changed spellsToo.held lengths differs.start differs.stop differs.changed
  by_cases same : index = changed
  · subst same
    rw [written] at thereOld
    cases thereOld
    exact .inl ⟨start, stop, differs.changed⟩
  · obtain ⟨rfl, size, uses, offset, extent⟩ := spells.uses_of_changed spellsToo declared there
      reworded same thereOld thereNew distinct
    rw [← place, ← offset] at start stop
    exact .inr ⟨size, uses, old.length, extent, start, stop⟩

end Struct

section Array

variable {element : Layout} {length : ArrayLength IntFormat} {elements : List Draft}
  {chunks others : List Bytes}

/-- Another element has the draft that it had, so it is not encoded anew. -/
theorem Lists.eq_of_changed {changed : Nat} {old new : Bytes}
    (lists : reader.Lists element length elements chunks)
    (listsToo : (reader.withData data).Lists element length (elements.set index other) others)
    (thereOld : chunks[changed]? = some old) (thereNew : others[changed]? = some new)
    (distinct : old ≠ new) : index = changed := by
  by_contra apart
  obtain ⟨draft, drafted, encoded⟩ := exists_result_of_getElem? lists.pieces.flip thereOld
  obtain ⟨draftToo, draftedToo, encodedToo⟩ :=
    exists_result_of_getElem? listsToo.pieces.flip thereNew
  rw [List.getElem?_set_ne apart, drafted] at draftedToo
  cases draftedToo
  exact distinct (Except.ok.inj (encoded.symm.trans encodedToo))

/-- **An element of an array.** -/
theorem Lists.narrows (lists : reader.Lists element length elements chunks)
    (listsToo : (reader.withData data).Lists element length (elements.set index other) others)
    (there : elements[index]? = some part)
    (reworded : Draft.Reworded element place target part other) :
    ∃ next chunk chunkToo, next.layout = element ∧ next.StandsAt part chunk ∧
      (next.withData data).StandsAt other chunkToo ∧
      reader.Narrows data (length.encodeCount elements.length ++ chunks.flatten).length
        (.element index) place next chunk.length := by
  have inside := (List.getElem?_eq_some_iff.mp there).1
  have lengths : others.map List.length = chunks.map List.length := by
    rw [lists.lengths, listsToo.lengths, map_size_set there reworded.size_eq]
  obtain ⟨next, chunk, written, reached, same, stands⟩ := lists.element_eq there
  obtain ⟨nextToo, chunkToo, -, reachedToo, sameToo, standsToo⟩ :=
    listsToo.element_eq (List.getElem?_set_self inside)
  have held := lists.held
  have heldToo := listsToo.held
  rw [List.length_set] at sameToo heldToo
  have places : nextToo = next.withData data := by
    rw [sameToo, same, List.length_flatten, List.map_take, lengths, ← List.map_take,
      ← List.length_flatten]
    rfl
  subst places
  refine ⟨next, chunk, chunkToo, by rw [same], stands, standsToo, reached, reachedToo, ?_⟩
  intro position differs
  rw [← List.flatten_cons] at held heldToo
  obtain ⟨changed, old, new, thereOld, thereNew, distinct, start, stop⟩ :=
    held.exists_changed heldToo (by simp [lengths]) differs.start
      (by simpa using differs.stop) differs.changed
  cases changed with
  | zero =>
      cases thereOld
      cases thereNew
      exact absurd rfl distinct
  | succ changed =>
      rw [List.getElem?_cons_succ] at thereOld thereNew
      have here := lists.eq_of_changed listsToo thereOld thereNew distinct
      subst here
      rw [written] at thereOld
      cases thereOld
      rw [List.take_succ_cons, List.flatten_cons, List.length_append, ← Nat.add_assoc]
        at start stop
      rw [same]
      exact .inl ⟨start, stop, differs.changed⟩

end Array

/-- **The payload of a view.** -/
theorem StandsAt.narrows {key : IntFormat} {variants : List Variant} {variant : Variant}
    {chunk chunkToo : Bytes} (stands : reader.StandsAt (.view (some (index, part))) chunk)
    (standsToo : (reader.withData data).StandsAt (.view (some (index, other))) chunkToo)
    (sound : reader.Sound) (soundToo : (reader.withData data).Sound)
    (view : reader.layout = .view key variants) (declared : variants[index]? = some variant)
    (sizes : other.size variant.layout = part.size variant.layout) :
    ∃ next own ownToo, next.layout = variant.layout ∧ next.StandsAt part own ∧
      (next.withData data).StandsAt other ownToo ∧
      reader.Narrows data chunk.length .active place next own.length := by
  obtain ⟨_, own, again, selects, rfl, inner⟩ := stands.selects sound view
  rw [declared] at again
  cases again
  obtain ⟨_, ownToo, again, selectsToo, rfl, innerToo⟩ := standsToo.selects soundToo view
  rw [declared] at again
  cases again
  refine ⟨_, own, ownToo, rfl, inner, innerToo, ?_, ?_, ?_⟩
  · rw [step, selects.active_eq]
    rfl
  · rw [step, selectsToo.active_eq]
    rfl
  · intro position differs
    have lengths : ownToo.length = own.length := by
      rw [Draft.length_encode inner.shaped inner.encoded,
        Draft.length_encode innerToo.shaped innerToo.encoded, sizes]
    have pair (rest : Bytes) : key.encode variant.key ++ rest =
        [key.encode variant.key, rest].flatten := by simp
    have held := stands.held
    have heldToo := standsToo.held
    rw [pair] at held heldToo
    obtain ⟨changed, old, new, thereOld, thereNew, distinct, start, stop⟩ :=
      held.exists_changed heldToo (by simp [lengths]) differs.start
        (by rw [← pair]; exact differs.stop) differs.changed
    rcases changed with _ | _ | changed
    · cases thereOld
      cases thereNew
      exact absurd rfl distinct
    · cases thereOld
      exact .inl ⟨by simpa using start, by simpa using stop, differs.changed⟩
    · cases thereOld

end Kinds

end Reader

/-- **From the leaf to the whole**: what is written for two drafts that differ in a word differs
within the frame of its leaf. -/
theorem Draft.Reworded.frames {layout target : Layout} {place : Reader.Path} {draft next : Draft}
    {reader : Reader} {data : Buffer} {chunk chunkToo : Bytes}
    (reworded : Reworded layout place target draft next) (same : reader.layout = layout)
    (sound : reader.Sound) (soundToo : (reader.withData data).Sound)
    (stands : reader.StandsAt draft chunk)
    (standsToo : (reader.withData data).StandsAt next chunkToo) :
    ∃ leaf, leaf.layout = target ∧ reader.Frames data chunk.length place leaf := by
  induction reworded generalizing reader chunk chunkToo with
  | leaf =>
      exact ⟨reader, same, rfl, rfl, fun position differs =>
        .inl (stands.covers sound differs.start differs.stop)⟩
  | member found declared there inner ih =>
      obtain ⟨chunks, spells, rfl⟩ := stands.exists_spells sound same
      obtain ⟨others, spellsToo, rfl⟩ := standsToo.exists_spells soundToo same
      obtain ⟨part, own, ownToo, shape, inside, insideToo, narrows⟩ :=
        spells.narrows spellsToo declared there inner
      obtain ⟨leaf, final, frames⟩ := ih shape (sound.step narrows.moved)
        (soundToo.step narrows.again) inside insideToo
      rw [← Field.name_of_indexOf? found declared]
      exact ⟨leaf, final, frames.cons narrows⟩
  | element there inner ih =>
      obtain ⟨chunks, lists, rfl⟩ := stands.exists_lists sound same
      obtain ⟨others, listsToo, rfl⟩ := standsToo.exists_lists soundToo same
      obtain ⟨part, own, ownToo, shape, inside, insideToo, narrows⟩ :=
        lists.narrows listsToo there inner
      obtain ⟨leaf, final, frames⟩ := ih shape (sound.step narrows.moved)
        (soundToo.step narrows.again) inside insideToo
      exact ⟨leaf, final, frames.cons narrows⟩
  | payload declared inner ih =>
      obtain ⟨part, own, ownToo, shape, inside, insideToo, narrows⟩ :=
        stands.narrows standsToo sound soundToo same declared inner.size_eq
      obtain ⟨leaf, final, frames⟩ := ih shape (sound.step narrows.moved)
        (soundToo.step narrows.again) inside insideToo
      exact ⟨leaf, final, frames.cons narrows⟩

namespace Schema

variable {specs : List FieldSpec} {order : ByteOrder} {schema : Schema}

/-- **A new value in a leaf changes the leaf and the sizes that use it.** Operations have built a
draft, a path has led to a part of it, and `reached` is the draft with the path gone. A word is
stored in the part. If both drafts can be written, the records have the same length, the leaf is
found in both at the place that the path has led to, and every byte that differs is one of the leaf
or of a size field of its struct whose expression uses the value of the leaf. -/
theorem store_changes_leaf (compiled : Schema.compile specs order = .ok schema)
    (operations : List Operation) (path : List Edit.Step) (action : Edit.Action)
    {reached next : Draft} {first second : Buffer} (stores : action.storesWord = true)
    (led : schema.edit path (fun _ => pure ()) (schema.build operations) = .ok () reached)
    (stored : schema.edit path (fun site => action.run site) (schema.build operations) =
      .ok () next)
    (written : reached.toBuffer schema.root = .ok first)
    (rewritten : next.toBuffer schema.root = .ok second) (small : first.size < Address.limit) :
    first.size = second.size ∧
      ∃ place leaf, Edit.place? schema.root next path = some (place, leaf.layout) ∧
        (schema.reader first).Frames second first.size place leaf := by
  have valid := valid_of_compile compiled
  have shaped := schema.shaped_build operations
  obtain ⟨place, target, placed, reworded⟩ := Edit.reworded_of_along
    (fun _ _ _ ran => Edit.Action.isWord_of_run stores ran) shaped led stored
  have before : reached.Shaped schema.root := shaped_of_edit ⟨path, none⟩ shaped led
  have after : next.Shaped schema.root := shaped_of_edit ⟨path, some action⟩ shaped stored
  have sizes : first.size = second.size := by
    have encoded := (Draft.toBuffer_eq_ok_iff valid before).mp written
    have encodedToo := (Draft.toBuffer_eq_ok_iff valid after).mp rewritten
    rw [← Array.length_toList, ← Array.length_toList, Draft.length_encode before encoded,
      Draft.length_encode after encodedToo]
    exact reworded.size_eq.symm
  obtain ⟨stands, sound⟩ := Draft.standsAt_reader valid before written small
  obtain ⟨standsToo, soundToo⟩ := Draft.standsAt_reader valid after rewritten (sizes ▸ small)
  obtain ⟨leaf, rfl, frames⟩ := reworded.frames rfl sound soundToo stands standsToo
  exact ⟨sizes, place, leaf, placed, frames⟩

/-- A step and twice the step in a struct, and a byte behind them. -/
def sampleStep : List FieldSpec :=
  let byte : IntSpec := ⟨1, false, none⟩
  [⟨"pace", .struct [⟨"double", .derived byte [⟨false, .valueOf "step"⟩, ⟨false, .valueOf "step"⟩]⟩,
      ⟨"step", .int byte⟩] none⟩,
    ⟨"tail", .int byte⟩]

def sampleStepSchema : Schema :=
  let byte : IntFormat := ⟨.one, false, .big⟩
  ⟨[⟨"pace", .struct [⟨"double", .derived byte [⟨false, .valueOf 1⟩, ⟨false, .valueOf 1⟩]⟩,
      ⟨"step", .int byte⟩]⟩,
    ⟨"tail", .int byte⟩]⟩

/-- The first two of three bytes change: the step, and the size that uses it. -/
theorem store_changes_leaf_sampleStep :
    let path : List Edit.Step := [.member "pace", .member "step"]
    let operations : List Operation :=
      [⟨path, some (.set 3)⟩, ⟨[.member "tail"], some (.set 7)⟩]
    let draft := sampleStepSchema.build operations
    let next := sampleStepSchema.build (operations ++ [⟨path, some (.set 5)⟩])
    let first : Buffer := #[6, 3, 7]
    let second : Buffer := #[10, 5, 7]
    Schema.compile sampleStep .big = .ok sampleStepSchema ∧
      draft.toBuffer sampleStepSchema.root = .ok first ∧
      next.toBuffer sampleStepSchema.root = .ok second ∧
      ∃ leaf, (sampleStepSchema.reader first).Frames second 3 [.member "pace", .member "step"]
        leaf := by
  intro path operations draft next first second
  have written : draft.toBuffer sampleStepSchema.root = .ok first := by decide +kernel
  have rewritten : next.toBuffer sampleStepSchema.root = .ok second := by decide +kernel
  have compiled : Schema.compile sampleStep .big = .ok sampleStepSchema := rfl
  obtain ⟨-, place, leaf, placed, frames⟩ := store_changes_leaf compiled operations path (.set 5)
    rfl rfl rfl written rewritten (by decide)
  have known : Edit.place? sampleStepSchema.root next path =
    some ([.member "pace", .member "step"], .int ⟨.one, false, .big⟩) := rfl
  obtain ⟨rfl, -⟩ := Prod.mk.inj (Option.some.inj (known.symm.trans placed))
  exact ⟨compiled, written, rewritten, leaf, frames⟩

end Schema

end RecordLayout
