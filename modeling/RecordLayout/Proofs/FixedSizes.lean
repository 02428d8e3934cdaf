/-
**A size that the layout fixes has that value when it is written.**

Compiling evaluates a size expression with what the siblings of the field fix: constants, the lengths
of fixed arrays, the widths of ranges (`SizeExpr.fixedValue?`). Writing evaluates it again, with what
the draft holds and with the spans of the members that have been written. Where the first evaluation
has a value, the second one finds the same.

* `Field.Fills`: members of fixed width take up their width.
* `Scope.evaluateBy_of_fixedValue?`: a value that the layout fixes is found, and it fits.
* `Takes`: what a run that succeeds has taken from the buffer. A first pass that succeeds had room for
  all members (`Scope.room_of_writeMembers`), so its spans are known (`Scope.spans_of_writeMembers`).
* `Draft.exists_openMisfit_of_encode`: a size that does not fit is one that the layout leaves open.
* `Schema.fixedValue?_agrees`: all of it, for every struct of a record that operations build.
-/

import RecordLayout.Proofs.Completeness
import RecordLayout.Proofs.SizeReferences

namespace RecordLayout

/-! ### Members of fixed width -/

/-- The lengths of members are the widths of their fields, where these are fixed. -/
def Field.Fills (fields : List Field) (lengths : List Nat) : Prop :=
  List.Forall₂ (fun field length => ∀ width, field.layout.width? = some width → length = width)
    fields lengths

namespace Field.Fills

variable {fields : List Field} {lengths : List Nat}

theorem sum_eq {total : Nat} (fills : Field.Fills fields lengths)
    (fixed : totalWidth? (fieldWidths fields) = some total) : lengths.sum = total := by
  induction fills generalizing total with
  | nil =>
      cases fixed
      rfl
  | cons head _ ih =>
      rw [fieldWidths_eq_map, List.map_cons, ← fieldWidths_eq_map] at fixed
      obtain ⟨width, known, rest, others, rfl⟩ := totalWidth?_cons_eq_some.mp fixed
      rw [List.sum_cons, head width known, ih others]

/-- **A range of fixed width** takes up its width. -/
theorem rangeLength_eq {first last total : Nat} (fills : Field.Fills fields lengths)
    (fixed : totalWidth? (fieldWidths (fieldRange fields first last)) = some total) :
    rangeLength lengths first last = total := by
  have range : Field.Fills (fieldRange fields first last)
      ((lengths.take (last + 1)).drop first) :=
    List.forall₂_drop first (List.forall₂_take (last + 1) fills)
  exact range.sum_eq fixed

end Field.Fills

namespace Scope

variable {scope : Scope} {fields : List Field} {members : List Draft}

theorem length_part_of_width? {field : Field} {member : Draft} {part : Bytes} {width : Nat}
    (shaped : member.Shaped field.layout) (found : scope.part field member = .ok part)
    (fixed : field.layout.width? = some width) : part.length = width := by
  unfold Scope.part at found
  split at found
  · rename_i format expr derived
    rw [derived] at fixed
    cases fixed
    split at found
    · cases found
      exact List.length_replicate
    · exact length_encodeSize found
  · exact Draft.length_encode_of_width? shaped found fixed

theorem fills_of_pairs {pairs : List (Field × Draft)} {parts : List Bytes}
    (each : ∀ pair ∈ pairs, pair.2.Shaped pair.1.layout)
    (found : List.Forall₂ (fun pair part => scope.part pair.1 pair.2 = .ok part) pairs parts) :
    Field.Fills (pairs.map Prod.fst) (parts.map List.length) := by
  induction found with
  | nil => exact .nil
  | cons head _ ih =>
      rw [List.forall_mem_cons] at each
      exact .cons (fun _ => length_part_of_width? each.1 head) (ih each.2)

/-- **The parts of members take up the widths of their fields.** -/
theorem fills_of_parts {parts : List Bytes} (shaped : (Draft.struct members).Shaped (.struct fields))
    (found : List.Forall₂ (fun pair part => scope.part pair.1 pair.2 = .ok part)
      (fields.zip members) parts) :
    Field.Fills fields (parts.map List.length) := by
  cases shaped with
  | struct whole each =>
      have fills := fills_of_pairs each found
      rwa [List.map_fst_zip (Nat.le_of_eq whole.symm)] at fills

theorem fills_of_memberLengths {lengths : List Nat}
    (shaped : (Draft.struct members).Shaped (.struct fields))
    (found : memberLengths ⟨fields, members⟩ fields members = .ok lengths) :
    Field.Fills fields lengths := by
  simp only [memberLengths_eq_mapM, bind_eq_ok_iff, mapM_eq_ok_iff, pure_eq_ok_iff] at found
  obtain ⟨parts, found, rfl⟩ := found
  exact fills_of_parts shaped found

/-! ### Quantities and sums -/

/-- **A quantity that the layout fixes is found in the draft.** Only the measure of a range asks for
the lengths of members. -/
theorem quantityBy_of_fixedQuantity? {operand : Operand Nat} {quantity : Int} {lengths : List Nat}
    (shaped : (Draft.struct members).Shaped (.struct fields))
    (fills : operand.isMeasure = true → Field.Fills fields lengths)
    (fixed : fixedQuantity? fields operand = some quantity) :
    Scope.quantityBy ⟨fields, members⟩ lengths operand = .ok quantity := by
  cases shaped with
  | struct whole each =>
      cases operand with
      | const value =>
          cases fixed
          rfl
      | valueOf index =>
          cases declared : fields[index]? with
          | none => simp [fixedQuantity?, declared] at fixed
          | some field =>
              obtain ⟨value, ⟨format, constant⟩, rfl⟩ :=
                (fixedQuantity?_valueOf declared).mp fixed
              obtain ⟨member, there, paired⟩ := Field.exists_member whole declared
              have shaped : member.Shaped field.layout := each _ (List.mem_of_getElem? paired)
              rw [constant] at shaped
              cases shaped
              simp only [quantityBy, valueOf, declared, there, constant, Draft.number?]
      | countOf index =>
          cases declared : fields[index]? with
          | none => simp [fixedQuantity?, declared] at fixed
          | some field =>
              obtain ⟨count, ⟨element, array⟩, rfl⟩ :=
                (fixedQuantity?_countOf declared).mp fixed
              obtain ⟨member, there, paired⟩ := Field.exists_member whole declared
              have shaped : member.Shaped field.layout := each _ (List.mem_of_getElem? paired)
              rw [array] at shaped
              cases shaped with
              | array counted _ =>
                  have counted : _ = count.toNat := counted
                  simp only [quantityBy, countOf, there, Draft.count, counted]
      | sizeOf first last =>
          obtain ⟨total, known, rfl⟩ := Option.map_eq_some_iff.mp fixed
          exact congrArg (fun length : Nat => Except.ok (length : Int))
            ((fills rfl).rangeLength_eq known)

/-- **A value that the layout fixes is the value of the size.** -/
theorem evaluateBy_of_fixedValue? {lengths : List Nat} {format : IntFormat} {expr : SizeExpr Nat}
    {value : Int} (name : String) (shaped : (Draft.struct members).Shaped (.struct fields))
    (fills : expr.isMeasured = true → Field.Fills fields lengths)
    (fixed : expr.fixedValue? fields = some value) (fits : format.fits value = true) :
    Scope.evaluateBy ⟨fields, members⟩ lengths name format expr = .ok value := by
  refine evaluateBy_eq_ok_iff.mpr ⟨?_, fits⟩
  obtain ⟨quantities, found, total⟩ := (SizeExpr.evaluate_yields
    (fun (outcome : Option Int) result => outcome = some result)
    (fun _ _ => Option.some_inj) fun _ _ _ => Option.bind_eq_some_iff).mp fixed
  have measures : ∀ term ∈ expr, term.operand.isMeasure = true → Field.Fills fields lengths :=
    fun term inside measure => fills (List.any_eq_true.mpr ⟨term, inside, measure⟩)
  apply (SizeExpr.evaluate_yields
    (fun (outcome : Except WriteError Int) result => outcome = .ok result)
    (fun _ _ => pure_eq_ok_iff) fun _ _ _ => bind_eq_ok_iff).mpr
  refine ⟨quantities, ?_, total⟩
  refine ((List.forall₂_and_left _ _).mpr ⟨measures, found⟩).imp fun term quantity both => ?_
  exact quantityBy_of_fixedQuantity? shaped both.1 both.2

/-- Evaluating a size goes over its limits only at the last step. -/
theorem overflow_of_evaluateBy {lengths : List Nat} {name label : String} {format : IntFormat}
    {expr : SizeExpr Nat} {value low high : Int}
    (failed : scope.evaluateBy lengths name format expr = .error (.overflow label value low high)) :
    label = name ∧ low = format.min ∧ high = format.max := by
  simp only [Scope.evaluateBy, bind_eq_error_iff] at failed
  obtain unresolved | ⟨found, -, misfit⟩ := failed
  · obtain ⟨⟨negate, operand⟩, -, failed⟩ := SizeExpr.exists_of_evaluate_eq_error unresolved
    cases operand with
    | valueOf index =>
        simp only [Scope.quantityBy, Scope.valueOf] at failed
        split at failed
        · split at failed <;> cases failed
        · cases failed
    | _ => cases failed
  · split at misfit
    · cases misfit
      exact ⟨rfl, rfl, rfl⟩
    · cases misfit

end Scope

/-- Compiling has checked the sizes that the layout fixes. -/
theorem Layout.Compiled.fits_fixedValue? {fields : List Field} {field : Field} {format : IntFormat}
    {expr : SizeExpr Nat} {value : Int} (compiled : (Layout.struct fields).Compiled)
    (inside : field ∈ fields) (derived : field.layout = .derived format expr)
    (fixed : expr.fixedValue? fields = some value) : format.fits value = true := by
  obtain ⟨spec, name, siblings, order, compiled⟩ := compiled
  cases spec with
  | struct specs own =>
      simp only [LayoutSpec.compile, bind_eq_ok_iff, pure_eq_ok_iff] at compiled
      obtain ⟨_, assembled, same⟩ := compiled
      cases same
      obtain ⟨-, -, sizes, -⟩ := assembleStruct_eq_ok_iff.mp assembled
      exact Field.sizeFault?_eq_none_iff.mp (sizes field inside) format expr derived value fixed
  | derived =>
      cases siblings with
      | none => cases compiled
      | some siblings =>
          simp only [LayoutSpec.compile, bind_eq_ok_iff, pure_eq_ok_iff, reduceCtorEq, and_false,
            exists_false] at compiled
  | _ =>
      simp only [LayoutSpec.compile, bind_eq_ok_iff, guard_eq_ok_iff, raise_eq_ok_iff,
        pure_eq_ok_iff, reduceCtorEq, and_false, exists_false] at compiled

/-- The spans of members and their lengths give a size the same value. -/
theorem Layout.Compiled.evaluate_spansFrom {fields : List Field} {members : List Draft} {field : Field}
    {format : IntFormat} {expr : SizeExpr Nat} {lengths : List Nat}
    (compiled : (Layout.struct fields).Compiled) (inside : field ∈ fields)
    (derived : field.layout = .derived format expr) (fills : Field.Fills fields lengths)
    (start : Nat) :
    Scope.evaluate ⟨fields, members⟩ (spansFrom start lengths) field.name format expr =
      Scope.evaluateBy ⟨fields, members⟩ lengths field.name format expr := by
  cases compiled.valid with
  | struct _ references _ =>
      exact Scope.evaluate_spansFrom start _ _ fills.length_eq.symm
        (references field inside format expr derived)

/-! ### What a run takes from the buffer -/

/-- **A run that succeeds has taken `size` bytes** of the buffer, and they were there. -/
def Takes {α : Type} (run : Write α) (size : Nat) : Prop :=
  ∀ buffer value after, run buffer = .ok value after →
    after.bytes.size = buffer.bytes.size ∧ after.position = buffer.position + size ∧
      (0 < size → after.position ≤ after.bytes.size)

section Takes

variable {α β : Type} {size size' : Nat}

theorem Takes.bind {first : Write α} {rest : α → Write β} (before : Takes first size)
    (behind : ∀ value, Takes (rest value) size') : Takes (first >>= rest) (size + size') := by
  intro buffer value after ran
  have step : (first >>= rest) buffer = EStateM.bind first rest buffer := rfl
  rw [step, EStateM.bind] at ran
  cases begun : first buffer with
  | error cause next =>
      rw [begun] at ran
      cases ran
  | ok found next =>
      rw [begun] at ran
      obtain ⟨kept, moved, inside⟩ := before buffer found next begun
      obtain ⟨keptToo, movedToo, insideToo⟩ := behind found next value after ran
      omega

theorem takes_pure (value : α) : Takes (pure value : Write α) 0 := by
  intro buffer result after ran
  cases ran
  exact ⟨rfl, rfl, nofun⟩

theorem takes_refusal (cause : WriteError) (size : Nat) : Takes (throw cause : Write α) size :=
  fun _ _ _ ran => by cases ran

theorem takes_ofExcept (outcome : Except WriteError α) : Takes (Write.ofExcept outcome) 0 := by
  cases outcome with
  | ok value => exact takes_pure value
  | error cause => exact takes_refusal cause 0

theorem takes_allot (length : Nat) : Takes (WriteBuffer.allot length) length := by
  intro buffer start after ran
  unfold WriteBuffer.allot at ran
  split at ran
  · cases ran
    exact ⟨rfl, rfl, fun _ => by assumption⟩
  · cases ran

theorem takes_put (start : Nat) (chunk : Bytes) : Takes (WriteBuffer.put start chunk) 0 := by
  intro buffer value after ran
  cases ran
  exact ⟨size_overwrite .., rfl, nofun⟩

theorem takes_chunk (chunk : Bytes) : Takes (WriteBuffer.write chunk) chunk.length :=
  (takes_allot _).bind fun _ => takes_put _ _

theorem takes_writeInt (format : IntFormat) (word : UInt64) :
    Takes (WriteBuffer.writeInt format word) format.bytes :=
  (takes_allot _).bind fun _ => takes_put _ _

theorem takes_leaveGap (length : Nat) : Takes (WriteBuffer.leaveGap length) length :=
  (takes_allot _).bind fun _ => (takes_put _ _).bind fun _ => takes_pure _

theorem Scope.takes_fillSize (scope : Scope) (spans : List Span) (size : PendingSize) :
    Takes (scope.fillSize spans size) 0 :=
  (takes_ofExcept _).bind fun _ => takes_put _ _

theorem Scope.takes_fillSizes (scope : Scope) (spans : List Span) (pending : List PendingSize) :
    Takes (pending.forM (scope.fillSize spans)) 0 := by
  induction pending with
  | nil => exact takes_pure ()
  | cons size rest ih => exact (scope.takes_fillSize spans size).bind fun _ => ih

theorem ArrayLength.takes_writeCount (length : ArrayLength IntFormat) (count : Nat) :
    Takes (length.writeCount count) length.counterWidth := by
  cases length with
  | fixed _ => exact takes_pure ()
  | bounded _ counter => exact takes_writeInt counter _

theorem Scope.takes_writeMember {scope : Scope} {field : Field} {member : Draft}
    (progress : Progress) (shaped : member.Shaped field.layout)
    (law : Takes (member.write field.layout field.name) (member.size field.layout)) :
    Takes (scope.writeMember progress field member) (member.size field.layout) := by
  obtain ⟨name, layout⟩ := field
  cases layout with
  | derived format expr =>
      cases shaped
      show Takes (scope.writeSize progress name format expr) format.bytes
      unfold Scope.writeSize
      split
      · exact (takes_leaveGap _).bind fun _ => takes_pure _
      · have both := (takes_ofExcept (scope.evaluate progress.spans name format expr)).bind
          fun value => (takes_writeInt format (format.toWord value)).bind
            fun _ => takes_pure progress.pending
        rwa [Nat.zero_add] at both
  | _ => exact law.bind fun _ => takes_pure _

theorem takes_writeMembers {scope : Scope} {fields : List Field} {members : List Draft}
    (progress : Progress) (each : ∀ pair ∈ fields.zip members, pair.2.Shaped pair.1.layout)
    (laws : ∀ pair ∈ fields.zip members,
      Takes (pair.2.write pair.1.layout pair.1.name) (pair.2.size pair.1.layout)) :
    Takes (writeMembers scope fields members progress) (membersSize fields members) := by
  induction fields generalizing members progress with
  | nil => cases members <;> exact takes_pure progress
  | cons field fields ih =>
      obtain ⟨name, layout⟩ := field
      cases members with
      | nil => exact takes_pure progress
      | cons member members =>
          rw [List.zip_cons_cons, List.forall_mem_cons] at each laws
          intro buffer value after ran
          rw [writeMembers_cons] at ran
          have first : Takes (scope.writeMember progress ⟨name, layout⟩ member) _ :=
            Scope.takes_writeMember progress each.1 laws.1
          refine first.bind (fun pending next => ?_) buffer value after ran
          exact ih _ each.2 laws.2 next

theorem takes_writeElements {element : Layout} {name : String} {elements : List Draft}
    (laws : ∀ draft ∈ elements, Takes (draft.write element name) (draft.size element)) :
    Takes (writeElements element name elements) (elementsSize element elements) := by
  induction elements with
  | nil => exact takes_pure ()
  | cons draft rest ih =>
      rw [List.forall_mem_cons] at laws
      exact laws.1.bind fun _ => ih laws.2

/-- **Writing a draft takes its size.** -/
theorem Draft.takes_write {layout : Layout} {draft : Draft} (shaped : draft.Shaped layout)
    (name : String) : Takes (draft.write layout name) (draft.size layout) := by
  induction shaped generalizing name with
  | @int format stored _ =>
      cases stored with
      | none => exact takes_refusal _ _
      | some word => exact takes_writeInt format word
  | @enum enumeration stored _ =>
      cases stored with
      | none => exact takes_refusal _ _
      | some word => exact takes_writeInt enumeration.format word
  | @mask mask bytes whole =>
      have law := takes_chunk bytes
      rwa [whole] at law
  | @struct fields members whole each ih =>
      rw [Draft.write]
      exact (takes_writeMembers _ each fun pair inside => ih pair inside pair.1.name).bind
        fun progress => Scope.takes_fillSizes _ _ _
  | @array element length elements counted each ih =>
      exact (length.takes_writeCount elements.length).bind fun _ =>
        takes_writeElements fun draft inside => ih draft inside name
  | unselected => exact takes_refusal _ _
  | @view key variants index variant payload selected inside ih =>
      simp only [Draft.write, Draft.size, selected]
      exact (takes_writeInt key variant.key).bind fun _ => ih variant.name
  | @constant format value => exact takes_writeInt format value
  | derived => exact takes_refusal _ _

end Takes

/-- A struct with a size field is not empty. -/
theorem membersSize_pos {fields : List Field} {members : List Draft} {field : Field}
    {format : IntFormat} {expr : SizeExpr Nat}
    (shaped : (Draft.struct members).Shaped (.struct fields)) (inside : field ∈ fields)
    (derived : field.layout = .derived format expr) : 0 < membersSize fields members := by
  cases shaped with
  | struct whole each =>
      obtain ⟨index, declared⟩ := List.mem_iff_getElem?.mp inside
      obtain ⟨member, -, paired⟩ := Field.exists_member whole declared
      have paired := List.mem_of_getElem? paired
      have size : member.size field.layout = format.bytes := by
        have shaped : member.Shaped field.layout := each _ paired
        rw [derived] at shaped ⊢
        cases shaped
        rfl
      rw [membersSize_eq_sum, List.sum_pos_iff_exists_pos_nat]
      refine ⟨_, List.mem_map_of_mem paired, ?_⟩
      rw [size]
      exact format.width.bytes_pos

/-- **The spans of a first pass that succeeds** are those of the parts of the members. -/
theorem Scope.spans_of_writeMembers {fields : List Field} {members : List Draft}
    {buffer after : WriteBuffer} {progress : Progress} (valid : (Layout.struct fields).Valid)
    (shaped : (Draft.struct members).Shaped (.struct fields))
    (room : buffer.position + membersSize fields members ≤ buffer.bytes.size)
    (ran : writeMembers ⟨fields, members⟩ fields members ⟨[], []⟩ buffer = .ok progress after) :
    ∃ parts, List.Forall₂ (fun pair part => Scope.part ⟨fields, members⟩ pair.1 pair.2 = .ok part)
        (fields.zip members) parts ∧
      progress.spans = spansFrom buffer.position (parts.map List.length) := by
  cases shaped with
  | struct whole each =>
      cases valid with
      | struct names references layouts =>
          have law : Appends (writeMembers ⟨fields, members⟩ fields members ⟨[], []⟩) buffer _ _ :=
            writeMembers_run _ each (fun pair inside => Draft.writes_encode
              (layouts _ (List.of_mem_zip inside).1) (each pair inside) _) room
          cases found : (fields.zip members).mapM fun pair =>
              Scope.part ⟨fields, members⟩ pair.1 pair.2 with
          | error cause =>
              rw [found] at law
              obtain ⟨chunk, -, failed⟩ := law
              rw [ran] at failed
              cases failed
          | ok parts =>
              rw [found] at law
              obtain ⟨-, done⟩ := law
              rw [ran] at done
              cases done
              exact ⟨parts, mapM_eq_ok_iff.mp found, rfl⟩

/-- A first pass over a struct with a size field is not told that there is room, but if it succeeds it
has found it. -/
theorem Scope.room_of_writeMembers {scope : Scope} {fields : List Field} {members : List Draft}
    {field : Field} {format : IntFormat} {expr : SizeExpr Nat} {buffer after : WriteBuffer}
    {progress start : Progress} (shaped : (Draft.struct members).Shaped (.struct fields))
    (inside : field ∈ fields) (derived : field.layout = .derived format expr)
    (ran : writeMembers scope fields members start buffer = .ok progress after) :
    buffer.position + membersSize fields members ≤ buffer.bytes.size := by
  have nonempty := membersSize_pos shaped inside derived
  cases shaped with
  | struct whole each =>
      have laws (pair : Field × Draft) (inside : pair ∈ fields.zip members) :=
        Draft.takes_write (each pair inside) pair.1.name
      obtain ⟨kept, moved, reached⟩ :=
        takes_writeMembers start each laws buffer progress after ran
      rw [← moved, ← kept]
      exact reached nonempty

/-- **A size that the layout fixes is found after the first pass.** -/
theorem Scope.evaluate_of_writeMembers {fields : List Field} {members : List Draft} {field : Field}
    {format : IntFormat} {expr : SizeExpr Nat} {value : Int} {buffer after : WriteBuffer}
    {progress : Progress} (compiled : (Layout.struct fields).Compiled)
    (shaped : (Draft.struct members).Shaped (.struct fields)) (inside : field ∈ fields)
    (derived : field.layout = .derived format expr) (fixed : expr.fixedValue? fields = some value)
    (ran : writeMembers ⟨fields, members⟩ fields members ⟨[], []⟩ buffer = .ok progress after) :
    Scope.evaluate ⟨fields, members⟩ progress.spans field.name format expr = .ok value := by
  have room := Scope.room_of_writeMembers shaped inside derived ran
  obtain ⟨parts, found, spans⟩ := Scope.spans_of_writeMembers compiled.valid shaped room ran
  have fills := Scope.fills_of_parts shaped found
  rw [spans, compiled.evaluate_spansFrom inside derived fills]
  exact Scope.evaluateBy_of_fixedValue? _ shaped (fun _ => fills) fixed
    (compiled.fits_fixedValue? inside derived fixed)

/-! ### Sizes that do not fit -/

namespace Draft

/-- A size of the record whose value the layout leaves open, and whose evaluation there finds a value
that the format cannot hold. If it measures a range, the lengths of all members of its struct are known
by then, and the spans are those of the members, wherever the struct is written. -/
def OpenMisfit (layout : Layout) (draft : Draft) (name : String) (format : IntFormat) (value : Int) :
    Prop :=
  ∃ place fields members, draft.at? layout place = some (.struct fields, .struct members) ∧
    ∃ field ∈ fields, field.name = name ∧ ∃ expr, field.layout = .derived format expr ∧
      expr.fixedValue? fields = none ∧
      ∃ lengths, (expr.isMeasured = true →
          memberLengths ⟨fields, members⟩ fields members = .ok lengths) ∧
        ∀ start, Scope.evaluate ⟨fields, members⟩ (spansFrom start lengths) name format expr =
          .error (.overflow name value format.min format.max)

variable {layout inner : Layout} {draft part : Draft} {name label : String} {value low high : Int}

theorem OpenMisfit.of_part {step : Reader.Step} {format : IntFormat}
    (found : draft.part? layout step = some (inner, part))
    (misfit : part.OpenMisfit inner name format value) :
    draft.OpenMisfit layout name format value := by
  obtain ⟨place, fields, members, there, openSize⟩ := misfit
  refine ⟨step :: place, fields, members, ?_, openSize⟩
  rw [at?, found]
  exact there

/-- A size of a struct that is over its limits, although its ranges have been measured, is open. -/
theorem openMisfit_of_encodeSize {fields : List Field} {members : List Draft} {field : Field}
    {format : IntFormat} {expr : SizeExpr Nat} {lengths : List Nat}
    (compiled : (Layout.struct fields).Compiled)
    (shaped : (Draft.struct members).Shaped (.struct fields)) (inside : field ∈ fields)
    (derived : field.layout = .derived format expr)
    (measures : expr.isMeasured = true →
      memberLengths ⟨fields, members⟩ fields members = .ok lengths)
    (failed : Scope.encodeSize ⟨fields, members⟩ lengths field.name format expr =
      .error (.overflow label value low high)) :
    ∃ format, (Draft.struct members).OpenMisfit (.struct fields) label format value ∧
      low = format.min ∧ high = format.max := by
  have fills (measured : expr.isMeasured = true) : Field.Fills fields lengths :=
    Scope.fills_of_memberLengths shaped (measures measured)
  obtain failed | ⟨_, -, impossible⟩ := bind_eq_error_iff.mp failed
  · obtain ⟨rfl, rfl, rfl⟩ := Scope.overflow_of_evaluateBy failed
    have unknown : expr.fixedValue? fields = none := by
      cases fixed : expr.fixedValue? fields with
      | none => rfl
      | some known =>
          have fits := compiled.fits_fixedValue? inside derived fixed
          rw [Scope.evaluateBy_of_fixedValue? field.name shaped fills fixed fits] at failed
          cases failed
    refine ⟨format, ⟨[], fields, members, rfl, field, inside, rfl, expr, derived, unknown, lengths,
      measures, fun start => Eq.trans ?_ failed⟩, rfl, rfl⟩
    cases measured : expr.isMeasured with
    | false => exact Scope.evaluate_of_not_isMeasured measured _ _ _ _
    | true => exact compiled.evaluate_spansFrom inside derived (fills measured) start
  · cases impossible

/-- **A size over its limits is one that the layout leaves open.** -/
theorem exists_openMisfit_of_encode (compiled : layout.Compiled) (shaped : draft.Shaped layout)
    (failed : draft.encode layout name = .error (.overflow label value low high)) :
    ∃ format, draft.OpenMisfit layout label format value ∧
      low = format.min ∧ high = format.max := by
  induction shaped generalizing name with
  | @int _ stored _ | @enum _ stored _ => cases stored <;> cases failed
  | mask _ | unselected | constant | derived => cases failed
  | @struct fields members whole each ih =>
      have shaped : (Draft.struct members).Shaped (.struct fields) := .struct whole each
      cases compiled.valid with
      | struct names _ _ =>
          -- a member that fails passes its failure on
          have inner {pair : Field × Draft} (inside : pair ∈ fields.zip members)
              (failed : pair.2.encode pair.1.layout pair.1.name =
                .error (.overflow label value low high)) :
              ∃ format, (Draft.struct members).OpenMisfit (.struct fields) label format value ∧
                low = format.min ∧ high = format.max := by
            obtain ⟨format, misfit, limits⟩ :=
              ih pair inside (compiled.member (List.of_mem_zip inside).1) failed
            exact ⟨format, misfit.of_part (part?_member names inside), limits⟩
          simp only [encode_struct, bind_eq_error_iff, mapM_eq_ok_iff] at failed
          obtain parts | ⟨parts, found, chunks | ⟨_, -, impossible⟩⟩ := failed
          · obtain ⟨pair, inside, failed⟩ := exists_of_mapM_eq_error parts
            unfold Scope.part at failed
            split at failed
            · rename_i format expr derived
              split at failed
              · cases failed
              · rename_i measured
                exact openMisfit_of_encodeSize compiled shaped (List.of_mem_zip inside).1 derived
                  (fun impossible => absurd impossible measured) failed
            · exact inner inside failed
          · obtain ⟨pair, inside, failed⟩ := exists_of_mapM_eq_error chunks
            have lengths : memberLengths ⟨fields, members⟩ fields members =
                .ok (parts.map List.length) := by
              rw [memberLengths_eq_mapM, mapM_eq_ok_iff.mpr found]
              rfl
            unfold Scope.encodeMember at failed
            split at failed
            · rename_i format expr derived
              exact openMisfit_of_encodeSize compiled shaped (List.of_mem_zip inside).1 derived
                (fun _ => lengths) failed
            · exact inner inside failed
          · cases impossible
  | @array element length elements counted each ih =>
      simp only [Draft.encode, bind_eq_error_iff, encodeElements_eq_mapM] at failed
      obtain chunks | ⟨_, -, impossible⟩ := failed
      · obtain ⟨draft, inside, failed⟩ := exists_of_mapM_eq_error chunks
        obtain ⟨step, found⟩ := exists_part?_element inside
        obtain ⟨format, misfit, limits⟩ := ih draft inside compiled.element failed
        exact ⟨format, misfit.of_part found, limits⟩
      · cases impossible
  | @view key variants index variant payload selected inside ih =>
      simp only [Draft.encode, selected, bind_eq_error_iff] at failed
      obtain failed | ⟨_, -, impossible⟩ := failed
      · obtain ⟨format, misfit, limits⟩ :=
          ih (compiled.payload (List.mem_of_getElem? selected)) failed
        exact ⟨format, misfit.of_part (part?_active selected), limits⟩
      · cases impossible

end Draft

/-! ### Records -/

theorem eq_error_of_map {ε α β : Type} {outcome : Except ε α} {change : α → β} {cause : ε}
    (failed : outcome.map change = .error cause) : outcome = .error cause := by
  cases outcome <;> cases failed
  rfl

/-- **A size that the layout fixes has that value when it is written.** In every struct of a record
that operations build, a size that measures no range evaluates to the value that its siblings fix,
whenever it is evaluated; and one that does evaluates to it once the members have been written. So a
size over its limits, wherever in the struct it is, is one that the layout leaves open. -/
theorem Schema.fixedValue?_agrees {specs : List FieldSpec} {order : ByteOrder} {schema : Schema}
    (compiled : Schema.compile specs order = .ok schema) (operations : List Operation)
    {place : Reader.Path} {fields : List Field} {members : List Draft}
    (reached : (schema.build operations).at? schema.root place =
      some (.struct fields, .struct members)) :
    let scope : Scope := ⟨fields, members⟩
    let layout := Layout.struct fields
    let draft := Draft.struct members
    (∀ field ∈ fields, ∀ format expr value, field.layout = .derived format expr →
      expr.fixedValue? fields = some value →
      (expr.isMeasured = false →
        ∀ spans, scope.evaluate spans field.name format expr = .ok value) ∧
      ∀ buffer progress after,
        writeMembers scope fields members ⟨[], []⟩ buffer = .ok progress after →
        scope.evaluate progress.spans field.name format expr = .ok value) ∧
    ∀ name value low high,
      ((∃ buffer, (draft.writeTo layout buffer).1 = .error (.overflow name value low high)) ∨
        draft.toBuffer layout = .error (.overflow name value low high)) →
      ∃ format, draft.OpenMisfit layout name format value ∧
        low = format.min ∧ high = format.max := by
  intro scope layout draft
  obtain ⟨whole, shaped⟩ : layout.Compiled ∧ draft.Shaped layout :=
    (schema.shaped_build operations).everywhere Layout.Compiled.of_contains (compiled_root compiled)
      place _ _ reached
  refine ⟨fun field inside format expr value derived fixed => ?_, fun name value low high => ?_⟩
  · have fits := whole.fits_fixedValue? inside derived fixed
    refine ⟨fun unmeasured spans => ?_, fun buffer progress after ran => ?_⟩
    · rw [Scope.evaluate_of_not_isMeasured unmeasured spans []]
      refine Scope.evaluateBy_of_fixedValue? _ shaped (fun measured => ?_) fixed fits
      rw [unmeasured] at measured
      cases measured
    · exact Scope.evaluate_of_writeMembers whole shaped inside derived fixed ran
  · rintro (⟨buffer, failed⟩ | failed)
    · rw [Draft.writeTo_outcome whole.valid shaped] at failed
      split at failed
      · cases failed
      · exact Draft.exists_openMisfit_of_encode whole shaped (eq_error_of_map failed)
    · rw [Draft.toBuffer_eq whole.valid shaped] at failed
      exact Draft.exists_openMisfit_of_encode whole shaped (eq_error_of_map failed)

/-- A frame whose length is fixed although one of its members is a view, and a list behind it that
counts from zero. -/
def sampleFrame : List FieldSpec :=
  let byte : IntSpec := ⟨1, false, none⟩
  let short : IntSpec := ⟨2, false, none⟩
  [⟨"length", .derived byte [⟨false, .sizeOf "magic" "body"⟩, ⟨false, .countOf "slots"⟩,
      ⟨true, .const 1⟩]⟩,
    ⟨"magic", .constant short 7⟩,
    ⟨"slots", .array (.int byte) (.fixed 1)⟩,
    ⟨"body", .view byte [⟨"ping", 1, .int short⟩, ⟨"pong", 2, .constant short 9⟩]⟩,
    ⟨"last", .derived byte [⟨false, .countOf "items"⟩, ⟨true, .const 1⟩]⟩,
    ⟨"items", .array (.int byte) (.bounded 4 byte)⟩]

/-- The layout of the frame. -/
def sampleFrameFields : List Field :=
  let byte : IntFormat := ⟨.one, false, .big⟩
  let short : IntFormat := ⟨.two, false, .big⟩
  [⟨"length", .derived byte [⟨false, .sizeOf 1 3⟩, ⟨false, .countOf 2⟩, ⟨true, .const 1⟩]⟩,
    ⟨"magic", .constant short 7⟩,
    ⟨"slots", .array (.int byte) (.fixed 1)⟩,
    ⟨"body", .view byte [⟨"ping", 1, .int short⟩, ⟨"pong", 2, .constant short 9⟩]⟩,
    ⟨"last", .derived byte [⟨false, .countOf 5⟩, ⟨true, .const 1⟩]⟩,
    ⟨"items", .array (.int byte) (.bounded 4 byte)⟩]

/-- The frame with everything but its items. -/
def sampleFrameRun : List Operation :=
  [⟨[.member "slots", .element 0], some (.set 5)⟩, ⟨[.member "body", .key 2], none⟩]

/-- The length is fixed, and it is found once there is an item; without one, the size that is over its
limits is the open one. -/
theorem Schema.fixedValue?_agrees_sampleFrame :
    let schema : Schema := ⟨sampleFrameFields⟩
    let byte : IntFormat := ⟨.one, false, .big⟩
    let length : SizeExpr Nat := [⟨false, .sizeOf 1 3⟩, ⟨false, .countOf 2⟩, ⟨true, .const 1⟩]
    let slots := Draft.array [.scalar (some 5)]
    let body := Draft.view (some (1, .computed))
    let bare := [.computed, .computed, slots, body, .computed, .array []]
    let full := [.computed, .computed, slots, body, .computed, .array [.scalar (some 8)]]
    Schema.compile sampleFrame .big = .ok schema ∧
      schema.build sampleFrameRun = .struct bare ∧
      schema.build (sampleFrameRun ++ [⟨[.member "items"], some (.pushValue 8)⟩]) = .struct full ∧
      length.fixedValue? sampleFrameFields = some 6 ∧
      (∃ buffer progress after,
        writeMembers ⟨sampleFrameFields, full⟩ sampleFrameFields full ⟨[], []⟩ buffer =
          .ok progress after ∧
        Scope.evaluate ⟨sampleFrameFields, full⟩ progress.spans "length" byte length = .ok 6) ∧
      (Draft.struct bare).toBuffer schema.root = .error (.overflow "last" (-1) 0 255) ∧
      ∃ format, (Draft.struct bare).OpenMisfit schema.root "last" format (-1) := by
  intro schema byte length slots body bare full
  have compiled : Schema.compile sampleFrame .big = .ok schema := rfl
  have bareBuilt : schema.build sampleFrameRun = .struct bare := rfl
  have fullBuilt : schema.build (sampleFrameRun ++ [⟨[.member "items"], some (.pushValue 8)⟩]) =
      .struct full := rfl
  have failed : (Draft.struct bare).toBuffer schema.root = .error (.overflow "last" (-1) 0 255) :=
    by decide +kernel
  have fixed : length.fixedValue? sampleFrameFields = some 6 := by decide +kernel
  have bareReached : (schema.build sampleFrameRun).at? schema.root [] =
      some (.struct sampleFrameFields, .struct bare) := by rw [bareBuilt]; rfl
  have fullReached : (schema.build
      (sampleFrameRun ++ [⟨[.member "items"], some (.pushValue 8)⟩])).at? schema.root [] =
      some (.struct sampleFrameFields, .struct full) := by rw [fullBuilt]; rfl
  obtain ⟨agrees, -⟩ := fixedValue?_agrees compiled _ fullReached
  obtain ⟨-, blamed⟩ := fixedValue?_agrees compiled _ bareReached
  obtain ⟨format, misfit, -⟩ := blamed _ _ _ _ (.inr failed)
  obtain ⟨-, measured⟩ := agrees _ List.mem_cons_self byte length 6 rfl fixed
  obtain ⟨progress, after, ran⟩ : ∃ progress after, writeMembers ⟨sampleFrameFields, full⟩
      sampleFrameFields full ⟨[], []⟩ (WriteBuffer.ofBuffer (Array.replicate 10 0)) =
        .ok progress after := ⟨_, _, rfl⟩
  exact ⟨compiled, bareBuilt, fullBuilt, fixed, ⟨_, progress, after, ran, measured _ _ _ ran⟩,
    failed, format, misfit⟩

end RecordLayout
