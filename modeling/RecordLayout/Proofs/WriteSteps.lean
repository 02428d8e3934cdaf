/-
**Steps of writing that do not trap.**

The steps that writing is made of, on machine words and in the library side by side. The library
cannot trap; a run on words follows it (`Follows`) when it ends as the library does, with the same
buffer. Runs that follow compose (`Follows.bind`), so what is left is each step under the condition
that keeps it from trapping: that there is room in the buffer, below the last address, and that what
an index refers to is there.

* `Machine.encode_eq`: a word is taken apart by shifts of less than its width.
* `Machine.writeBytes_eq`, `Machine.writeInt_eq`, `Machine.leaveGap_eq`, `Machine.fillGap_eq`: steps on
  a buffer.
* `Operand.Ready`: what a size expression refers to is there. The members of a struct are from the
  start (`Operand.ready_of_not_isMeasure`), the spans once all members have been written
  (`Operand.ready_of_spansFrom`).
* `Machine.evaluate_tells`: size expressions, whose sums stay within 128 bits.
-/

import RecordLayout.Proofs.MachineWriting
import RecordLayout.Proofs.SafeReading
import RecordLayout.Proofs.WriteRun

namespace RecordLayout

/-! ### Runs that follow the library -/

section Follows

variable {α β γ δ : Type} {related : α → β → Prop} {related' : γ → δ → Prop} {buffer : WriteBuffer}

/-- Two runs have ended alike: with one buffer, and with one failure or with related results. -/
inductive EndsAlike (related : α → β → Prop) :
    EStateM.Result WriteError WriteBuffer α → EStateM.Result WriteError WriteBuffer β → Prop where
  | ok {found : α} {value : β} {after : WriteBuffer} (same : related found value) :
      EndsAlike related (.ok found after) (.ok value after)
  | error {cause : WriteError} {after : WriteBuffer} :
      EndsAlike related (.error cause after) (.error cause after)

/-- **A run follows the library** at a buffer: it does not trap, and ends as the library does. -/
def Follows (related : α → β → Prop) (run : CheckedWrite α) (library : Write β)
    (buffer : WriteBuffer) : Prop :=
  ∃ result, run buffer = .ok result ∧ EndsAlike related result (library buffer)

namespace CheckedWrite

theorem bind_of_ok {run : CheckedWrite α} {next : α → CheckedWrite γ} {value : α}
    {after : WriteBuffer} (ran : run buffer = .ok (.ok value after)) :
    (run >>= next) buffer = next value after := by
  show (run buffer >>= _) = _
  rw [ran]
  rfl

theorem bind_of_error {run : CheckedWrite α} {next : α → CheckedWrite γ} {cause : WriteError}
    {after : WriteBuffer} (ran : run buffer = .ok (.error cause after)) :
    (run >>= next) buffer = .ok (.error cause after) := by
  show (run buffer >>= _) = _
  rw [ran]
  rfl

theorem lift_ok_bind (value : α) (next : α → CheckedWrite γ) :
    (lift (.ok value) >>= next) = next value := rfl

end CheckedWrite

theorem Follows.of_eq {run : CheckedWrite α} {library : Write α}
    (same : run buffer = .ok (library buffer)) : Follows Eq run library buffer := by
  refine ⟨_, same, ?_⟩
  cases library buffer with
  | ok value after => exact .ok rfl
  | error cause after => exact .error

theorem Follows.eq {run : CheckedWrite α} {library : Write α}
    (follows : Follows Eq run library buffer) : run buffer = .ok (library buffer) := by
  obtain ⟨result, ran, alike⟩ := follows
  rw [ran]
  generalize library buffer = outcome at alike
  cases alike with
  | ok same => rw [same]
  | error => rfl

theorem Follows.pure {found : α} {value : β} (same : related found value) :
    Follows related (pure found) (Pure.pure value) buffer :=
  ⟨_, rfl, .ok same⟩

/-- **Runs that follow the library compose.** -/
theorem Follows.bind {first : CheckedWrite α} {first' : Write β} {rest : α → CheckedWrite γ}
    {rest' : β → Write δ} (begun : Follows related first first' buffer)
    (next : ∀ found value after, related found value → first' buffer = .ok value after →
      Follows related' (rest found) (rest' value) after) :
    Follows related' (first >>= rest) (first' >>= rest') buffer := by
  obtain ⟨result, ran, alike⟩ := begun
  have step : (first' >>= rest') buffer = EStateM.bind first' rest' buffer := rfl
  rw [EStateM.bind] at step
  unfold Follows
  rw [step]
  generalize outcome : first' buffer = library at alike
  cases alike with
  | ok same =>
      rw [CheckedWrite.bind_of_ok ran]
      exact next _ _ _ same outcome
  | error => exact ⟨_, CheckedWrite.bind_of_error ran, .error⟩

/-- A run that tells an outcome of the library and leaves every buffer alone. -/
def Tells (run : CheckedWrite α) (outcome : Except WriteError α) : Prop :=
  ∀ buffer, run buffer = .ok (Write.ofExcept outcome buffer)

theorem Tells.bind {run : CheckedWrite α} {outcome : Except WriteError α}
    {next : α → CheckedWrite γ} {after : α → Except WriteError γ} (told : Tells run outcome)
    (rest : ∀ value, outcome = .ok value → Tells (next value) (after value)) :
    Tells (run >>= next) (outcome >>= after) := by
  intro buffer
  have ran := told buffer
  cases outcome with
  | error cause => exact CheckedWrite.bind_of_error ran
  | ok value => exact (CheckedWrite.bind_of_ok ran).trans (rest value rfl buffer)

theorem tells_pure (value : α) : Tells (pure value) (.ok value) := fun _ => rfl

theorem tells_fail (cause : WriteError) : Tells (CheckedWrite.fail cause : CheckedWrite α)
    (.error cause) := fun _ => rfl

/-- What is told leaves the buffer to the steps that use it. -/
theorem Tells.bind_follows {run : CheckedWrite α} {outcome : Except WriteError α}
    {rest : α → CheckedWrite γ} {rest' : α → Write δ} (told : Tells run outcome)
    (next : ∀ value, Follows related' (rest value) (rest' value) buffer) :
    Follows related' (run >>= rest) (Write.ofExcept outcome >>= rest') buffer := by
  refine Follows.bind (.of_eq (told buffer)) fun found value after same ran => ?_
  cases outcome with
  | error cause => cases ran
  | ok _ =>
      cases ran
      exact same ▸ next value

end Follows

namespace Machine

open CheckedWrite

/-! ### Numbers and words -/

section Numbers

theorem wide_eq {value : Int} (low : -2 ^ 127 ≤ value) (high : value < 2 ^ 127) :
    wide value = .ok value :=
  if_pos ⟨low, high⟩

theorem largest_eq (format : IntFormat) : largest format = .ok format.max := by
  obtain ⟨width, signed, order⟩ := format
  cases width <;> cases signed <;> cases order <;> decide +kernel

theorem smallest_eq (format : IntFormat) : smallest format = .ok format.min := by
  obtain ⟨width, signed, order⟩ := format
  cases width <;> cases signed <;> cases order <;> decide +kernel

theorem fits_eq (format : IntFormat) (value : Int) : fits format value = .ok (format.fits value) := by
  rw [fits, smallest_eq, ok_bind, IntFormat.fits]
  by_cases low : format.min ≤ value
  · rw [if_pos low, largest_eq, decide_eq_true low, Bool.true_and]
    rfl
  · rw [if_neg low, decide_eq_false low, Bool.false_and]
    rfl

theorem mask_eq (width : IntWidth) : mask width.bytes = .ok width.mask := by
  cases width <;> decide +kernel

theorem toWord_eq (format : IntFormat) (value : Int) :
    toWord format value = .ok (format.toWord value) := by
  rw [toWord, IntFormat.bytes, mask_eq]
  rfl

theorem shiftDown_eq {amount : Nat} (short : amount < 64) (word : UInt64) :
    shiftDown word amount = .ok (word >>> UInt64.ofNat amount) :=
  if_pos short

/-- **Taking a word apart** shifts it by less than its width. -/
theorem encode_eq {width : Nat} (short : width ≤ ByteOrder.wordBytes) (order : ByteOrder)
    (word : UInt64) : encode order width word = .ok (order.encode width word) := by
  have bytes : ByteOrder.wordBytes = 8 := rfl
  have limit : Address.limit = 2 ^ 64 := rfl
  have digit {index amount : Nat} (inside : amount = 8 * index) (low : index < 8) :
      (do return (← shiftDown word amount).toUInt8) = Except.ok (ByteOrder.digit word index) := by
    rw [inside, shiftDown_eq (by omega)]
    rfl
  rw [encode, mapM_eq_ok_iff]
  cases order with
  | big =>
      rw [ByteOrder.encode, List.forall₂_map_right_iff, List.forall₂_same]
      intro index inside
      rw [List.mem_range] at inside
      rw [distance, sub_eq (by omega), ok_bind, sub_eq (by omega), ok_bind, mul_eq (by omega), ok_bind]
      exact digit (Nat.mul_comm _ _) (by omega)
  | little =>
      rw [ByteOrder.encode, List.forall₂_map_right_iff, List.forall₂_same]
      intro index inside
      rw [List.mem_range] at inside
      rw [distance, mul_eq (by omega), ok_bind]
      exact digit (Nat.mul_comm _ _) (by omega)

theorem maskBytes_eq {width : Nat} {bytes : Bytes} (whole : bytes.length = width)
    (short : width ≤ MaskSpec.maxWidth.toNat) : maskBytes width bytes = .ok bytes := by
  rw [maskBytes, range_eq (Nat.zero_le _) (by simp; omega), List.drop_zero, List.take_take,
    Nat.min_eq_left short, ← whole, List.take_left]

end Numbers

/-! ### Steps on a buffer -/

section Steps

variable {buffer : WriteBuffer}

theorem claim_eq {length : Nat} (room : buffer.position + length ≤ buffer.bytes.size)
    (address : buffer.position + length < Address.limit) :
    claim length buffer =
      .ok (.ok buffer.position { buffer with position := buffer.position + length }) := by
  rw [claim, add_eq address, ok_bind, if_neg (Nat.not_lt.mpr room)]
  rfl

theorem store_eq {bytes : Buffer} {start stop : Nat} {chunk : Bytes}
    (whole : start + chunk.length = stop) (inside : stop ≤ bytes.size) (position : Nat) :
    store start stop chunk ⟨bytes, position⟩ =
      .ok (.ok () ⟨overwrite bytes start chunk, position⟩) :=
  if_pos ⟨by omega, inside, by omega⟩

theorem storeWord_eq {bytes : Buffer} {start : Nat} {format : IntFormat} (word : UInt64)
    (inside : start + format.bytes ≤ bytes.size) (position : Nat) :
    storeWord start (start + format.bytes) format.order word ⟨bytes, position⟩ =
      .ok (.ok () ⟨overwrite bytes start (format.encode word), position⟩) := by
  have short : format.bytes ≤ ByteOrder.wordBytes := format.width.bytes_le
  rw [storeWord, Nat.add_sub_cancel_left, encode_eq short, lift_ok_bind]
  exact store_eq (by rw [ByteOrder.length_encode]) inside position

theorem writeBytes_eq {chunk : Bytes} (room : buffer.position + chunk.length ≤ buffer.bytes.size)
    (address : buffer.position + chunk.length < Address.limit) :
    writeBytes chunk buffer = .ok (WriteBuffer.write chunk buffer) := by
  rw [writeBytes, bind_of_ok (claim_eq room address), add_eq address, lift_ok_bind,
    store_eq rfl room, WriteBuffer.write_ok room, WriteBuffer.append]

theorem writeInt_eq {format : IntFormat} (word : UInt64)
    (room : buffer.position + format.bytes ≤ buffer.bytes.size)
    (address : buffer.position + format.bytes < Address.limit) :
    writeInt format word buffer = .ok (WriteBuffer.writeInt format word buffer) := by
  rw [writeInt, bind_of_ok (claim_eq room address), add_eq address, lift_ok_bind,
    storeWord_eq word room, WriteBuffer.writeInt_ok word room, WriteBuffer.append,
    format.length_encode]

theorem leaveGap_eq {length : Nat} (room : buffer.position + length ≤ buffer.bytes.size)
    (address : buffer.position + length < Address.limit) :
    leaveGap length buffer = .ok (WriteBuffer.leaveGap length buffer) := by
  rw [leaveGap, bind_of_ok (claim_eq room address), add_eq address, lift_ok_bind,
    Nat.add_sub_cancel_left, bind_of_ok (store_eq (by rw [List.length_replicate]) room _),
    WriteBuffer.leaveGap_ok room, WriteBuffer.append, List.length_replicate]
  rfl

theorem fillGap_eq {gap : Gap} {format : IntFormat} (word : UInt64)
    (whole : gap.length = format.bytes) (inside : gap.start + format.bytes ≤ buffer.bytes.size)
    (address : gap.start + format.bytes < Address.limit) :
    fillGap gap format word buffer = .ok (WriteBuffer.fillGap gap format word buffer) := by
  obtain ⟨start, length⟩ := gap
  obtain ⟨bytes, position⟩ := buffer
  subst whole
  rw [fillGap, Nat.min_self, add_eq address, lift_ok_bind, storeWord_eq word inside,
    WriteBuffer.fillGap_ok]

end Steps

end Machine

/-! ### Size expressions -/

/-- **What the operand asks for is there**: the member with its field, or spans in the right order. -/
def Operand.Ready (scope : Scope) (spans : List Span) : Operand Nat → Prop
  | .const _ => True
  | .valueOf index => ∃ field member,
      scope.fields[index]? = some field ∧ scope.members[index]? = some member
  | .countOf index => ∃ member, scope.members[index]? = some member ∧ member.count < Address.limit
  | .sizeOf first last => ∃ start stop, spans[first]? = some start ∧ spans[last]? = some stop ∧
      start.start ≤ stop.stop ∧ stop.stop < Address.limit

theorem Draft.Shaped.count_lt {layout : Layout} {draft : Draft} (shaped : draft.Shaped layout) :
    draft.count < Address.limit := by
  cases shaped with
  | @array _ length elements counted _ =>
      show elements.length < Address.limit
      cases length with
      | fixed count =>
          have counted : elements.length = count.toNat := counted
          exact counted ▸ count.toNat_lt
      | bounded capacity _ => exact Nat.lt_of_le_of_lt counted capacity.toNat_lt
  | _ => exact Nat.two_pow_pos 64

namespace Operand

variable {fields : List Field} {members : List Draft} {operand : Operand Nat}

/-- **Members are there from the start**: only the measure of a range waits for spans. -/
theorem ready_of_not_isMeasure (shaped : (Draft.struct members).Shaped (.struct fields))
    (refers : operand.RefersTo fields) (unmeasured : operand.isMeasure = false) (spans : List Span) :
    operand.Ready ⟨fields, members⟩ spans := by
  cases shaped with
  | struct whole each =>
      cases operand with
      | const value => exact trivial
      | valueOf index =>
          obtain ⟨field, declared, -⟩ := refers
          obtain ⟨member, there, -⟩ := Field.exists_member whole declared
          exact ⟨field, member, declared, there⟩
      | countOf index =>
          obtain ⟨field, declared, -⟩ := refers
          obtain ⟨member, there, paired⟩ := Field.exists_member whole declared
          exact ⟨member, there, (each _ (List.mem_of_getElem? paired)).count_lt⟩
      | sizeOf first last => cases unmeasured

/-- **The spans of all members are in order**, and lie below the address that the last one ends at. -/
theorem ready_of_spansFrom {lengths : List Nat} {start : Nat}
    (shaped : (Draft.struct members).Shaped (.struct fields)) (refers : operand.RefersTo fields)
    (whole : lengths.length = fields.length) (room : start + lengths.sum < Address.limit) :
    operand.Ready ⟨fields, members⟩ (spansFrom start lengths) := by
  cases operand with
  | sizeOf first last =>
      obtain ⟨forward, inside⟩ := refers
      have range := @sum_take_add_rangeLength lengths first last forward
      have below : (lengths.take (last + 1)).sum + (lengths.drop (last + 1)).sum = lengths.sum := by
        rw [← List.sum_append, List.take_append_drop]
      refine ⟨_, _, getElem?_spansFrom start (by omega), getElem?_spansFrom start (by omega), ?_, ?_⟩
      · show start + _ ≤ start + _
        omega
      · show start + _ < _
        omega
  | _ => exact ready_of_not_isMeasure shaped refers rfl _

end Operand

namespace Machine

open CheckedWrite

section Expressions

variable {scope : Scope} {spans : List Span}

theorem numeric_eq (layout : Layout) (draft : Draft) :
    numeric layout draft = .ok (draft.number? layout) := by
  fun_cases Draft.number? layout draft with
  | case1 format word =>
      rw [numeric, ofWord_eq]
      rfl
  | case2 => rfl
  | case3 => rfl
  | case4 => rw [numeric] <;> assumption

/-- **A quantity that is there is found.** -/
theorem quantity_tells {operand : Operand Nat} (ready : operand.Ready scope spans) :
    Tells (quantity scope spans operand) (scope.quantity spans operand) := by
  cases operand with
  | const value => exact tells_pure _
  | valueOf index =>
      obtain ⟨field, member, declared, there⟩ := ready
      rw [quantity, entry_eq there, lift_ok_bind, entry_eq declared, lift_ok_bind, numeric_eq,
        lift_ok_bind]
      simp only [Scope.quantity, Scope.valueOf, declared, there]
      cases member.number? field.layout with
      | some value => exact tells_pure value
      | none => exact tells_fail _
  | countOf index =>
      obtain ⟨member, there, -⟩ := ready
      rw [quantity, entry_eq there, lift_ok_bind]
      simp only [Scope.quantity, Scope.countOf, there]
      exact tells_pure _
  | sizeOf first last =>
      obtain ⟨start, stop, front, back, ordered, -⟩ := ready
      rw [quantity, entry_eq back, lift_ok_bind, entry_eq front, lift_ok_bind, sub_eq ordered,
        lift_ok_bind]
      simp only [Scope.quantity, Scope.sizeOf, front, back, ← Int.ofNat_sub ordered]
      exact tells_pure _

theorem natAbs_ofWord_lt (format : IntFormat) (word : UInt64) :
    (format.ofWord word).natAbs < 2 ^ 64 := by
  have small := word.toNat_lt
  by_cases signed : format.signed = true
  · have kept := signed?_ofWord signed word
    have low : Int64.minValue.toInt = -2 ^ 63 := rfl
    have high : Int64.maxValue.toInt = 2 ^ 63 - 1 := rfl
    unfold signed? at kept
    split at kept
    · omega
    · cases kept
  · rw [IntFormat.ofWord, if_neg signed]
    omega

theorem natAbs_number?_lt {layout : Layout} {draft : Draft} {value : Int}
    (held : draft.number? layout = some value) : value.natAbs < 2 ^ 64 := by
  unfold Draft.number? at held
  split at held <;> cases held
  · exact natAbs_ofWord_lt _ _
  · exact UInt64.toNat_lt _
  · exact UInt64.toNat_lt _

/-- **A quantity is smaller than the words are many.** -/
theorem natAbs_quantity_lt {operand : Operand Nat} {value : Int} (ready : operand.Ready scope spans)
    (found : scope.quantity spans operand = .ok value) : value.natAbs < 2 ^ 64 := by
  cases operand with
  | const value =>
      cases found
      exact value.toNat_lt
  | valueOf index =>
      obtain ⟨field, member, declared, there⟩ := ready
      simp only [Scope.quantity, Scope.valueOf, declared, there] at found
      split at found
      · rename_i held
        cases found
        exact natAbs_number?_lt held
      · cases found
  | countOf index =>
      obtain ⟨member, there, few⟩ := ready
      simp only [Scope.quantity, Scope.countOf, there] at found
      cases found
      exact few
  | sizeOf first last =>
      obtain ⟨start, stop, front, back, ordered, few⟩ := ready
      have limit : Address.limit = 2 ^ 64 := rfl
      simp only [Scope.quantity, Scope.sizeOf, front, back] at found
      cases found
      omega

/-- **A term is added** to a sum that leaves room for it. -/
theorem addTerm_tells {term : Term Nat} {total : Int} (ready : term.operand.Ready scope spans)
    (room : total.natAbs + 2 ^ 64 < 2 ^ 126) :
    Tells (addTerm scope spans total term) (do
      let value ← scope.quantity spans term.operand
      return if term.negate then total - value else total + value) := by
  refine (quantity_tells ready).bind fun value found => ?_
  have small := natAbs_quantity_lt ready found
  by_cases negated : term.negate = true
  · rw [if_pos negated, wide_eq (by omega) (by omega)]
    exact tells_pure _
  · rw [if_neg negated, wide_eq (by omega) (by omega)]
    exact tells_pure _

/-- The sum of the remaining terms, when it leaves room for all of them. -/
theorem addTerms_tell {terms : SizeExpr Nat} {total : Int}
    (ready : ∀ term ∈ terms, term.operand.Ready scope spans)
    (room : total.natAbs + terms.length * 2 ^ 64 < 2 ^ 126) :
    Tells (terms.foldlM (addTerm scope spans) total) (terms.foldlM (fun total term => do
      let value ← scope.quantity spans term.operand
      return if term.negate then total - value else total + value) total) := by
  induction terms generalizing total with
  | nil => exact tells_pure total
  | cons term rest ih =>
      rw [List.forall_mem_cons] at ready
      rw [List.length_cons] at room
      rw [List.foldlM_cons, List.foldlM_cons]
      refine (addTerm_tells ready.1 (by omega)).bind fun next added => ?_
      obtain ⟨value, found, same⟩ := bind_eq_ok_iff.mp added
      have small := natAbs_quantity_lt ready.1 found
      have grown : next.natAbs ≤ total.natAbs + 2 ^ 64 := by
        cases same
        split <;> omega
      exact ih ready.2 (by omega)

/-- **A size expression is evaluated** on words when all it refers to is there. -/
theorem evaluate_tells {expr : SizeExpr Nat} (name : String) (format : IntFormat)
    (ready : ∀ term ∈ expr, term.operand.Ready scope spans) (few : expr.length < 2 ^ 62) :
    Tells (evaluate scope spans name format expr) (scope.evaluate spans name format expr) := by
  refine (addTerms_tell ready (by omega)).bind fun value _ => ?_
  rw [fits_eq, lift_ok_bind, smallest_eq, lift_ok_bind, largest_eq, lift_ok_bind]
  by_cases fits : format.fits value = true
  · rw [fits]
    exact tells_pure value
  · rw [Bool.not_eq_true] at fits
    rw [fits]
    exact tells_fail _

end Expressions

end Machine

end RecordLayout
