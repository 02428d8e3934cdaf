/-
**Writing never traps.**

A record that operations have built is written without a trap: on machine words no sum overflows, no
difference is negative, no shift is too wide, no index is out of range and no stretch that is written
to leaves the buffer. The only conditions are that the size of the record is a word and that size
expressions are not of an absurd length.

The library writes no more than the size of a draft, so with room for it every position is a word
(`Draft.WritesSafely`). In a struct the two passes go along with those of the library: after each
member the same spans and the same gaps are noted (`Tracks`), and the second pass finds the spans of
all members.

* `Machine.size_eq`: the size of a draft.
* `Machine.writeMembers_follows`, `Machine.fillSizes_follow`: the two passes over a struct.
* `Draft.Shaped.writesSafely`: whole drafts.
* `Schema.writing_never_traps`: records.
-/

import RecordLayout.Proofs.FixedSizes
import RecordLayout.Proofs.MaskAcceptance
import RecordLayout.Proofs.WriteSteps

namespace RecordLayout

namespace Machine

/-! ### The size of a draft -/

section Size

/-- The sizes of members are added up, where the sum is a word. -/
theorem addMembers_eq {fields : List Field} {members : List Draft} {total : Nat}
    (laws : ∀ pair ∈ fields.zip members, pair.2.size pair.1.layout < Address.limit →
      size pair.1.layout pair.2 = .ok (pair.2.size pair.1.layout))
    (small : total + membersSize fields members < Address.limit) :
    addMembers total fields members = .ok (total + membersSize fields members) := by
  induction fields generalizing members total with
  | nil => cases members <;> rfl
  | cons field fields ih =>
      obtain ⟨name, layout⟩ := field
      cases members with
      | nil => rfl
      | cons member members =>
          rw [List.zip_cons_cons, List.forall_mem_cons] at laws
          rw [membersSize] at small ⊢
          have first : member.size layout < Address.limit →
            size layout member = .ok (member.size layout) := laws.1
          rw [addMembers, first (by omega), ok_bind, add_eq (by omega), ok_bind,
            ih laws.2 (by omega), Nat.add_assoc]

/-- The sizes of elements are added up, where the sum is a word. -/
theorem addElements_eq {element : Layout} {elements : List Draft} {total : Nat}
    (laws : ∀ draft ∈ elements, draft.size element < Address.limit →
      size element draft = .ok (draft.size element))
    (small : total + elementsSize element elements < Address.limit) :
    addElements element total elements = .ok (total + elementsSize element elements) := by
  induction elements generalizing total with
  | nil => rfl
  | cons draft rest ih =>
      rw [List.forall_mem_cons] at laws
      rw [elementsSize] at small ⊢
      rw [addElements, laws.1 (by omega), ok_bind, add_eq (by omega), ok_bind,
        ih laws.2 (by omega), Nat.add_assoc]

/-- **The size of a draft** is found on words, where it is a word. -/
theorem size_eq {layout : Layout} {draft : Draft} (shaped : draft.Shaped layout)
    (small : draft.size layout < Address.limit) : size layout draft = .ok (draft.size layout) := by
  induction shaped with
  | int | enum | mask | constant | derived => rfl
  | @struct fields members whole each ih =>
      have sum := addMembers_eq ih (by rwa [Nat.zero_add])
      rwa [Nat.zero_add] at sum
  | @array element length elements counted each ih =>
      rw [Draft.size] at small ⊢
      rw [size, addElements_eq ih (by omega), ok_bind, Nat.zero_add, add_eq small]
  | unselected => exact add_eq small
  | @view key variants index variant payload selected inside ih =>
      simp only [Draft.size, selected] at small
      simp only [size, Draft.size, selected]
      rw [ih (by omega), ok_bind, add_eq small]

end Size

end Machine

/-! ### Structs -/

/-- **What the two passes over a struct rely on**: members in the shape of their fields, and size
expressions that refer to them and are not too long. -/
structure Scope.Sound (scope : Scope) : Prop where
  shaped : (Draft.struct scope.members).Shaped (.struct scope.fields)
  references : ∀ field ∈ scope.fields, field.RefersTo scope.fields
  short : ∀ field ∈ scope.fields, ∀ format expr, field.layout = .derived format expr →
    expr.length < 2 ^ 62

/-- On a buffer with room for it, below the last address, the draft is written on words as by the
library. -/
def Draft.WritesSafely (layout : Layout) (draft : Draft) : Prop :=
  ∀ name buffer, buffer.position + draft.size layout ≤ buffer.bytes.size →
    buffer.position + draft.size layout < Address.limit →
    Machine.write layout name draft buffer = .ok (draft.write layout name buffer)

/-- A size that waits, as it is noted on words and in the library: by its field and by its content.
Its gap ends at `stop` or before. -/
structure Waits (fields : List Field) (stop : Nat) (noted : Nat × Gap) (size : PendingSize) :
    Prop where
  declared : fields[noted.1]? = some ⟨size.name, .derived size.format size.expr⟩
  gap : noted.2 = size.gap
  whole : size.gap.length = size.format.bytes
  inside : size.gap.start + size.format.bytes ≤ stop

theorem Waits.mono {fields : List Field} {stop later : Nat} {noted : Nat × Gap} {size : PendingSize}
    (waits : Waits fields stop noted size) (behind : stop ≤ later) :
    Waits fields later noted size :=
  ⟨waits.declared, waits.gap, waits.whole, Nat.le_trans waits.inside behind⟩

/-- A first pass has come equally far on words and in the library. -/
structure Tracks (fields : List Field) (stop : Nat) (marks : Machine.Marks) (progress : Progress) :
    Prop where
  spans : marks.spans = progress.spans
  pending : List.Forall₂ (Waits fields stop) marks.pending progress.pending

theorem Tracks.pending_mono {fields : List Field} {stop later : Nat} {marks : Machine.Marks}
    {progress : Progress} (tracks : Tracks fields stop marks progress) (behind : stop ≤ later) :
    List.Forall₂ (Waits fields later) marks.pending progress.pending :=
  tracks.pending.imp fun _ _ waits => waits.mono behind

namespace Machine

open CheckedWrite

section Passes

variable {scope : Scope} {buffer : WriteBuffer} {field : Field} {member : Draft} {index : Nat}

/-- One member in the first pass. -/
def writeMember (scope : Scope) (index : Nat) (marks : Marks) (field : Field) (member : Draft) :
    CheckedWrite (List (Nat × Gap)) :=
  match field.layout with
  | .derived format expr => writeSize scope index marks field.name format expr
  | layout => do
      write layout field.name member
      return marks.pending

theorem writeMembers_cons (scope : Scope) (index : Nat) (field : Field) (fields : List Field)
    (member : Draft) (members : List Draft) (marks : Marks) (buffer : WriteBuffer) :
    writeMembers scope index (field :: fields) (member :: members) marks buffer =
      (writeMember scope index marks field member >>= fun pending next =>
        writeMembers scope (index + 1) fields members
          ⟨marks.spans ++ [⟨buffer.position, next.position⟩], pending⟩ next) buffer := by
  obtain ⟨name, layout⟩ := field
  cases layout <;> rfl

/-- A size that measures no range is evaluated at any time. -/
theorem tells_of_not_isMeasured {format : IntFormat} {expr : SizeExpr Nat} (sound : scope.Sound)
    (inside : field ∈ scope.fields) (derived : field.layout = .derived format expr)
    (unmeasured : expr.isMeasured = false) (spans : List Span) :
    Tells (evaluate scope spans field.name format expr)
      (scope.evaluate spans field.name format expr) := by
  refine evaluate_tells _ _ (fun term among => ?_) (sound.short field inside format expr derived)
  exact Operand.ready_of_not_isMeasure sound.shaped
    (sound.references field inside format expr derived term among)
    (Scope.isMeasure_of_isMeasured unmeasured term among) spans

/-- **A size field in the first pass** is evaluated, or left as a gap. -/
theorem writeSize_follows {name : String} {format : IntFormat} {expr : SizeExpr Nat} {marks : Marks}
    {progress : Progress} (sound : scope.Sound)
    (declared : scope.fields[index]? = some ⟨name, .derived format expr⟩)
    (tracks : Tracks scope.fields buffer.position marks progress)
    (room : buffer.position + format.bytes ≤ buffer.bytes.size)
    (address : buffer.position + format.bytes < Address.limit) :
    Follows (List.Forall₂ (Waits scope.fields (buffer.position + format.bytes)))
      (writeSize scope index marks name format expr) (scope.writeSize progress name format expr)
      buffer := by
  have kept := tracks.pending_mono (Nat.le_add_right buffer.position format.bytes)
  unfold writeSize Scope.writeSize
  by_cases measured : expr.isMeasured = true
  · rw [if_pos measured, if_pos measured]
    refine Follows.bind (.of_eq (leaveGap_eq room address)) fun found gap after same ran => ?_
    rw [WriteBuffer.leaveGap_ok room] at ran
    cases ran
    subst same
    exact .pure (List.rel_append kept (.cons ⟨declared, rfl, rfl, Nat.le_refl _⟩ .nil))
  · rw [if_neg measured, if_neg measured, tracks.spans]
    have told := tells_of_not_isMeasured sound (List.mem_of_getElem? declared) rfl
      (Bool.not_eq_true _ ▸ measured) progress.spans
    refine told.bind_follows fun value => ?_
    rw [toWord_eq, lift_ok_bind]
    exact Follows.bind (.of_eq (writeInt_eq _ room address)) fun _ _ _ _ _ => .pure kept

/-- **One member in the first pass.** -/
theorem writeMember_follows {marks : Marks} {progress : Progress} (sound : scope.Sound)
    (declared : scope.fields[index]? = some field) (shaped : member.Shaped field.layout)
    (safe : member.WritesSafely field.layout)
    (tracks : Tracks scope.fields buffer.position marks progress)
    (room : buffer.position + member.size field.layout ≤ buffer.bytes.size)
    (address : buffer.position + member.size field.layout < Address.limit) :
    Follows (List.Forall₂ (Waits scope.fields (buffer.position + member.size field.layout)))
      (writeMember scope index marks field member) (scope.writeMember progress field member)
      buffer := by
  obtain ⟨name, layout⟩ := field
  cases layout with
  | derived format expr =>
      cases shaped
      exact writeSize_follows sound declared tracks room address
  | _ =>
      refine Follows.bind (.of_eq (safe name buffer room address)) fun _ _ _ _ _ => .pure ?_
      exact tracks.pending_mono (Nat.le_add_right _ _)

/-- **The first pass** comes equally far on words and in the library. The induction is on the fields
that remain; the index says where among the fields of the struct they start. -/
theorem writeMembers_follows {fields : List Field} {members : List Draft} {marks : Marks}
    {progress : Progress} (sound : scope.Sound) (remaining : scope.fields.drop index = fields)
    (each : ∀ pair ∈ fields.zip members, pair.2.Shaped pair.1.layout)
    (safe : ∀ pair ∈ fields.zip members, pair.2.WritesSafely pair.1.layout)
    (tracks : Tracks scope.fields buffer.position marks progress)
    (room : buffer.position + membersSize fields members ≤ buffer.bytes.size)
    (address : buffer.position + membersSize fields members < Address.limit) :
    Follows (Tracks scope.fields (buffer.position + membersSize fields members))
      (writeMembers scope index fields members marks)
      (RecordLayout.writeMembers scope fields members progress) buffer := by
  induction fields generalizing members index marks progress buffer with
  | nil => cases members <;> exact .pure tracks
  | cons field fields ih =>
      obtain ⟨name, layout⟩ := field
      cases members with
      | nil => exact .pure tracks
      | cons member members =>
          rw [List.zip_cons_cons, List.forall_mem_cons] at each safe
          rw [membersSize] at room address ⊢
          have declared : scope.fields[index]? = some ⟨name, layout⟩ := by
            rw [← List.head?_drop, remaining, List.head?_cons]
          have rest : scope.fields.drop (index + 1) = fields := by
            rw [← List.tail_drop, remaining, List.tail_cons]
          have shaped : member.Shaped layout := each.1
          have fits : buffer.position + member.size layout ≤ buffer.bytes.size := by omega
          have below : buffer.position + member.size layout < Address.limit := by omega
          have begun := writeMember_follows sound declared shaped safe.1 tracks fits below
          unfold Follows
          rw [writeMembers_cons, RecordLayout.writeMembers_cons]
          refine begun.bind fun noted pending after waits ran => ?_
          obtain ⟨kept, moved, -⟩ : _ ∧ after.position = buffer.position + member.size layout ∧ _ :=
            Scope.takes_writeMember progress shaped (Draft.takes_write shaped name) _ _ _ ran
          have stop : buffer.position + (member.size layout + membersSize fields members) =
              after.position + membersSize fields members := by omega
          rw [stop]
          refine ih rest each.2 safe.2 ⟨?_, ?_⟩ (by omega) (by omega)
          · rw [tracks.spans]
          · rwa [moved]

/-- A size is evaluated once the members have been written. -/
theorem tells_of_spansFrom {format : IntFormat} {expr : SizeExpr Nat} {lengths : List Nat}
    {start : Nat} (sound : scope.Sound) (inside : field ∈ scope.fields)
    (derived : field.layout = .derived format expr) (whole : lengths.length = scope.fields.length)
    (address : start + lengths.sum < Address.limit) :
    Tells (evaluate scope (spansFrom start lengths) field.name format expr)
      (scope.evaluate (spansFrom start lengths) field.name format expr) := by
  refine evaluate_tells _ _ (fun term among => ?_) (sound.short field inside format expr derived)
  exact Operand.ready_of_spansFrom sound.shaped
    (sound.references field inside format expr derived term among) whole address

/-- **A size that has waited is filled in.** -/
theorem fillSize_follows {noted : Nat × Gap} {size : PendingSize} {lengths : List Nat}
    {start stop : Nat} (sound : scope.Sound) (waits : Waits scope.fields stop noted size)
    (whole : lengths.length = scope.fields.length) (address : start + lengths.sum < Address.limit)
    (room : stop ≤ buffer.bytes.size) (below : stop < Address.limit) :
    Follows Eq (fillSize scope (spansFrom start lengths) noted)
      (scope.fillSize (spansFrom start lengths) size) buffer := by
  have told := tells_of_spansFrom sound (List.mem_of_getElem? waits.declared) rfl whole address
  have inside := waits.inside
  rw [fillSize, entry_eq waits.declared, lift_ok_bind]
  refine told.bind_follows fun value => ?_
  rw [toWord_eq, lift_ok_bind, waits.gap]
  exact .of_eq (fillGap_eq _ waits.whole (by omega) (by omega))

/-- **The second pass.** -/
theorem fillSizes_follow {noted : List (Nat × Gap)} {pending : List PendingSize}
    {lengths : List Nat} {start stop : Nat} (sound : scope.Sound)
    (waiting : List.Forall₂ (Waits scope.fields stop) noted pending)
    (whole : lengths.length = scope.fields.length) (address : start + lengths.sum < Address.limit)
    (room : stop ≤ buffer.bytes.size) (below : stop < Address.limit) :
    Follows Eq (noted.forM (fillSize scope (spansFrom start lengths)))
      (pending.forM (scope.fillSize (spansFrom start lengths))) buffer := by
  induction waiting generalizing buffer with
  | nil => exact .pure rfl
  | @cons _ size _ _ waits _ ih =>
      refine Follows.bind (fillSize_follows sound waits whole address room below)
        fun _ _ after _ ran => ?_
      obtain ⟨kept, -⟩ := scope.takes_fillSize _ size _ _ _ ran
      exact ih (by omega)

/-- **A struct is written** when its members are. -/
theorem struct_writesSafely {fields : List Field} {members : List Draft}
    (valid : (Layout.struct fields).Valid) (sound : Scope.Sound ⟨fields, members⟩)
    (safe : ∀ pair ∈ fields.zip members, pair.2.WritesSafely pair.1.layout) :
    (Draft.struct members).WritesSafely (.struct fields) := by
  intro name buffer room address
  rw [Draft.size] at room address
  have shaped : (Draft.struct members).Shaped (.struct fields) := sound.shaped
  cases shaped with
  | struct whole each =>
      apply Follows.eq
      rw [write, Draft.write]
      have start : Tracks fields buffer.position ⟨[], []⟩ ⟨[], []⟩ := ⟨rfl, .nil⟩
      have begun := writeMembers_follows sound List.drop_zero each safe start room address
      refine begun.bind fun marks progress after tracks ran => ?_
      -- the second pass finds the spans of all members, in a buffer of the same size
      obtain ⟨parts, found, spans⟩ := Scope.spans_of_writeMembers valid sound.shaped room ran
      have lengths : parts.map List.length = memberSizes fields members :=
        map_eq_of_forall₂ found fun pair inside part => Scope.length_part (each pair inside)
      have counted : (memberSizes fields members).length = fields.length := by
        simp [memberSizes, whole]
      obtain ⟨kept, -⟩ := takes_writeMembers _ each
        (fun pair inside => Draft.takes_write (each pair inside) pair.1.name) _ _ _ ran
      rw [tracks.spans, spans, lengths]
      refine fillSizes_follow sound tracks.pending counted ?_ (by rwa [kept]) address
      rwa [membersSize_eq_sum] at address

end Passes

/-! ### Drafts -/

theorem writeCount_eq {length : ArrayLength IntFormat} {count : Nat} {buffer : WriteBuffer}
    (room : buffer.position + length.counterWidth ≤ buffer.bytes.size)
    (address : buffer.position + length.counterWidth < Address.limit) :
    writeCount length count buffer = .ok (length.writeCount count buffer) := by
  cases length with
  | fixed _ => rfl
  | bounded _ counter => exact writeInt_eq _ room address

/-- **Elements are written** one after the other. -/
theorem writeElements_follows {element : Layout} {name : String} {elements : List Draft}
    {buffer : WriteBuffer} (each : ∀ draft ∈ elements, draft.Shaped element)
    (safe : ∀ draft ∈ elements, draft.WritesSafely element)
    (room : buffer.position + elementsSize element elements ≤ buffer.bytes.size)
    (address : buffer.position + elementsSize element elements < Address.limit) :
    Follows Eq (writeElements element name elements)
      (RecordLayout.writeElements element name elements) buffer := by
  induction elements generalizing buffer with
  | nil => exact .pure rfl
  | cons draft rest ih =>
      rw [List.forall_mem_cons] at each safe
      rw [elementsSize] at room address
      have first := safe.1 name buffer (by omega) (by omega)
      refine Follows.bind (.of_eq first) fun _ _ after _ ran => ?_
      obtain ⟨kept, moved, -⟩ := Draft.takes_write each.1 name _ _ _ ran
      exact ih each.2 safe.2 (by omega) (by omega)

theorem mask_writesSafely {mask : Mask} {bytes : Bytes} (whole : bytes.length = mask.width)
    (short : mask.width ≤ MaskSpec.maxWidth.toNat) :
    (Draft.mask bytes).WritesSafely (.mask mask) := by
  intro name buffer room address
  rw [Draft.size, ← whole] at room address
  rw [write, maskBytes_eq whole short, lift_ok_bind]
  exact writeBytes_eq room address

theorem array_writesSafely {element : Layout} {length : ArrayLength IntFormat}
    {elements : List Draft} (each : ∀ draft ∈ elements, draft.Shaped element)
    (safe : ∀ draft ∈ elements, draft.WritesSafely element) :
    (Draft.array elements).WritesSafely (.array element length) := by
  intro name buffer room address
  rw [Draft.size] at room address
  apply Follows.eq
  rw [write, Draft.write]
  refine Follows.bind (.of_eq (writeCount_eq (by omega) (by omega))) fun _ _ after _ ran => ?_
  obtain ⟨kept, moved, -⟩ := length.takes_writeCount elements.length _ _ _ ran
  exact writeElements_follows each safe (by omega) (by omega)

theorem view_writesSafely {key : IntFormat} {variants : List Variant} {index : Nat}
    {variant : Variant} {payload : Draft} (selected : variants[index]? = some variant)
    (safe : payload.WritesSafely variant.layout) :
    (Draft.view (some (index, payload))).WritesSafely (.view key variants) := by
  intro name buffer room address
  simp only [Draft.size, selected] at room address
  apply Follows.eq
  rw [write, entry_eq selected, lift_ok_bind]
  simp only [Draft.write, selected]
  refine Follows.bind (.of_eq (writeInt_eq _ (by omega) (by omega))) fun _ _ after _ ran => ?_
  obtain ⟨kept, moved, -⟩ := takes_writeInt key variant.key _ _ _ ran
  exact .of_eq (safe variant.name after (by omega) (by omega))

end Machine

/-- No size expression of the layout has `2 ^ 62` terms or more. -/
def Layout.HasShortSizes (layout : Layout) : Prop :=
  ∀ format expr, layout.Contains (.derived format expr) → expr.length < 2 ^ 62

theorem Layout.HasShortSizes.part {layout part : Layout} (short : layout.HasShortSizes)
    (inside : layout.Contains part) : part.HasShortSizes :=
  fun format expr deeper => short format expr (inside.trans deeper)

/-- Compiling has checked the width of a mask. -/
theorem Layout.Compiled.width_le_maxWidth {mask : Mask} (compiled : (Layout.mask mask).Compiled) :
    mask.width ≤ MaskSpec.maxWidth.toNat := by
  obtain ⟨spec, name, siblings, order, compiled⟩ := compiled
  cases spec with
  | mask spec =>
      simp only [LayoutSpec.compile, bind_eq_ok_iff, pure_eq_ok_iff] at compiled
      obtain ⟨_, accepted, same⟩ := compiled
      cases same
      obtain ⟨⟨-, small⟩, -, -, width, -⟩ := MaskSpec.compile_eq_ok_iff.mp accepted
      exact width ▸ UInt64.le_iff_toNat_le.mp small
  | derived =>
      cases siblings with
      | none => cases compiled
      | some siblings =>
          simp only [LayoutSpec.compile, bind_eq_ok_iff, pure_eq_ok_iff, reduceCtorEq, and_false,
            exists_false] at compiled
  | _ =>
      simp only [LayoutSpec.compile, bind_eq_ok_iff, guard_eq_ok_iff, raise_eq_ok_iff,
        pure_eq_ok_iff, reduceCtorEq, and_false, exists_false] at compiled

/-- **Drafts are written on words as by the library.** -/
theorem Draft.Shaped.writesSafely {layout : Layout} {draft : Draft} (shaped : draft.Shaped layout)
    (compiled : layout.Compiled) (short : layout.HasShortSizes) : draft.WritesSafely layout := by
  induction shaped with
  | @int _ stored _ | @enum _ stored _ =>
      intro name buffer room address
      cases stored with
      | none => rfl
      | some word => exact Machine.writeInt_eq word room address
  | mask whole => exact Machine.mask_writesSafely whole compiled.width_le_maxWidth
  | @struct fields members whole each ih =>
      cases compiled.valid with
      | struct _ references _ =>
          refine Machine.struct_writesSafely compiled.valid ⟨.struct whole each, references, ?_⟩ ?_
          · intro field inside format expr derived
            exact short format expr (derived ▸ .member inside (.refl _))
          · intro pair inside
            have declared := (List.of_mem_zip inside).1
            exact ih pair inside (compiled.member declared)
              (short.part (.member declared (.refl _)))
  | array counted each ih =>
      exact Machine.array_writesSafely each fun draft inside =>
        ih draft inside compiled.element (short.part (.element (.refl _)))
  | view selected _ ih =>
      have declared := List.mem_of_getElem? selected
      exact Machine.view_writesSafely selected
        (ih (compiled.payload declared) (short.part (.payload declared (.refl _))))
  | unselected | derived => exact fun _ _ _ _ => rfl
  | constant => exact fun _ _ room address => Machine.writeInt_eq _ room address

/-! ### Records -/

section Records

variable {layout : Layout} {draft : Draft}

theorem Machine.writeTo_eq (shaped : draft.Shaped layout) (safe : draft.WritesSafely layout)
    (small : draft.size layout < Address.limit) (buffer : Buffer) :
    Machine.writeTo layout draft buffer = .ok (draft.writeTo layout buffer) := by
  rw [Machine.writeTo, Machine.size_eq shaped small, ok_bind, Draft.writeTo]
  by_cases short : buffer.size < draft.size layout
  · rw [if_pos short, if_pos short]
    rfl
  · have room : 0 + draft.size layout ≤ buffer.size := by omega
    have address : 0 + draft.size layout < Address.limit := by omega
    rw [if_neg short, if_neg short, safe "" (WriteBuffer.ofBuffer buffer) room address, ok_bind]
    cases draft.write layout "" (WriteBuffer.ofBuffer buffer) <;> rfl

theorem Machine.toBuffer_eq (shaped : draft.Shaped layout) (safe : draft.WritesSafely layout)
    (small : draft.size layout < Address.limit) :
    Machine.toBuffer layout draft = .ok (draft.toBuffer layout) := by
  rw [Machine.toBuffer, Machine.size_eq shaped small, ok_bind, Machine.writeTo_eq shaped safe small,
    ok_bind, Draft.toBuffer]
  obtain ⟨outcome, buffer⟩ := draft.writeTo layout (Array.replicate (draft.size layout) 0)
  cases outcome <;> rfl

end Records

/-- **Writing never traps.** A struct of a record that operations have built is written on machine
words exactly as the library writes it, into any buffer and into one of its own: the run ends with
bytes or with an error of the library. Only its size must be a word, and its size expressions must
have fewer than `2 ^ 62` terms. -/
theorem Schema.writing_never_traps {specs : List FieldSpec} {order : ByteOrder} {schema : Schema}
    (compiled : Schema.compile specs order = .ok schema) (operations : List Operation)
    {place : Reader.Path} {fields : List Field} {members : List Draft}
    (reached : (schema.build operations).at? schema.root place =
      some (.struct fields, .struct members))
    (small : (Draft.struct members).size (.struct fields) < Address.limit)
    (short : (Layout.struct fields).HasShortSizes) :
    let layout := Layout.struct fields
    let draft := Draft.struct members
    (∀ buffer, Machine.writeTo layout draft buffer = .ok (draft.writeTo layout buffer)) ∧
      Machine.toBuffer layout draft = .ok (draft.toBuffer layout) := by
  intro layout draft
  obtain ⟨whole, shaped⟩ : layout.Compiled ∧ draft.Shaped layout :=
    (schema.shaped_build operations).everywhere Layout.Compiled.of_contains (compiled_root compiled)
      place _ _ reached
  have safe : draft.WritesSafely layout := shaped.writesSafely whole short
  exact ⟨Machine.writeTo_eq shaped safe small, Machine.toBuffer_eq shaped safe small⟩

theorem hasShortSizes_sampleFrame : (Layout.struct sampleFrameFields).HasShortSizes := by
  intro format expr inside
  cases inside with
  | member inside rest =>
      simp only [sampleFrameFields, List.mem_cons, List.not_mem_nil, or_false] at inside
      rcases inside with rfl | rfl | rfl | rfl | rfl | rfl
      · cases rest
        decide
      · cases rest
      · cases rest with
        | element rest => cases rest
      · cases rest with
        | payload inside rest =>
            simp only [List.mem_cons, List.not_mem_nil, or_false] at inside
            rcases inside with rfl | rfl <;> cases rest
      · cases rest
        decide
      · cases rest with
        | element rest => cases rest

/-- The frame, whose length is filled in over two members and a view, is written with an item; without
one a size is over its limits, and that is an error and not a trap. -/
theorem Schema.writing_never_traps_sampleFrame :
    let schema : Schema := ⟨sampleFrameFields⟩
    let layout := Layout.struct sampleFrameFields
    let withItem := sampleFrameRun ++ [⟨[.member "items"], some (.pushValue 8)⟩]
    let slots := Draft.array [.scalar (some 5)]
    let body := Draft.view (some (1, .computed))
    let bare := Draft.struct [.computed, .computed, slots, body, .computed, .array []]
    let full := Draft.struct [.computed, .computed, slots, body, .computed,
      .array [.scalar (some 8)]]
    Schema.compile sampleFrame .big = .ok schema ∧ layout.HasShortSizes ∧
      schema.build sampleFrameRun = bare ∧ bare.size layout = 9 ∧
      schema.build withItem = full ∧ full.size layout = 10 ∧
      Machine.toBuffer layout full = .ok (.ok #[6, 0, 7, 5, 2, 0, 9, 0, 1, 8]) ∧
      Machine.toBuffer layout bare = .ok (.error (.overflow "last" (-1) 0 255)) := by
  intro schema layout withItem slots body bare full
  have compiled : Schema.compile sampleFrame .big = .ok schema := rfl
  have bareBuilt : schema.build sampleFrameRun = bare := rfl
  have fullBuilt : schema.build withItem = full := rfl
  have bareReached : (schema.build sampleFrameRun).at? schema.root [] = some (layout, bare) := by
    rw [bareBuilt]
    rfl
  have fullReached : (schema.build withItem).at? schema.root [] = some (layout, full) := by
    rw [fullBuilt]
    rfl
  have bareSize : bare.size layout = 9 := rfl
  have fullSize : full.size layout = 10 := rfl
  have bareSmall : bare.size layout < Address.limit := by
    rw [bareSize]
    decide
  have fullSmall : full.size layout < Address.limit := by
    rw [fullSize]
    decide
  obtain ⟨-, bareWritten⟩ :=
    writing_never_traps compiled _ bareReached bareSmall hasShortSizes_sampleFrame
  obtain ⟨-, fullWritten⟩ :=
    writing_never_traps compiled _ fullReached fullSmall hasShortSizes_sampleFrame
  have bytes : full.toBuffer layout = .ok #[6, 0, 7, 5, 2, 0, 9, 0, 1, 8] := by decide +kernel
  have misfit : bare.toBuffer layout = .error (.overflow "last" (-1) 0 255) := by decide +kernel
  exact ⟨compiled, hasShortSizes_sampleFrame, bareBuilt, bareSize, fullBuilt, fullSize,
    fullWritten.trans (congrArg Except.ok bytes), bareWritten.trans (congrArg Except.ok misfit)⟩

/-- A layout that was not compiled can trap: here a size counts the elements of a field that is not
there. -/
example : Machine.toBuffer
    (.struct [⟨"size", .derived ⟨.one, false, .big⟩ [⟨false, .countOf 1⟩]⟩])
    (.struct [.computed]) = .error (.trap .index) := rfl

/-- A range that runs backwards has a length below zero. -/
example : Machine.toBuffer
    (.struct [⟨"size", .derived ⟨.one, false, .big⟩ [⟨false, .sizeOf 3 1⟩]⟩,
      ⟨"magic", .constant ⟨.two, false, .big⟩ 7⟩, ⟨"end", .constant ⟨.two, false, .big⟩ 9⟩,
      ⟨"last", .constant ⟨.two, false, .big⟩ 9⟩])
    (.struct [.computed, .computed, .computed, .computed]) = .error (.trap .underflow) := rfl

end RecordLayout
