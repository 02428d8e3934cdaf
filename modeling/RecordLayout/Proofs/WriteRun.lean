/-
**What a run of the writer leaves in the buffer.**

The writer goes through a draft front to back, leaves gaps for the sizes that measure a range of
members and fills them when the struct is complete. `Writes run size outcome` is the law of such
a run: on every buffer with room for `size` bytes at its position, it appends the chunk of the
outcome, or it fails with the cause of the outcome and has appended at most `size` bytes. The
outcome does not depend on the buffer. Runs compose (`Writes.seq`).

* `overwrite_patch`: a chunk written over a stretch of the same length replaces that stretch and
  nothing else.
* `writeMembers_run`: the first pass over a struct appends the parts of the members and notes
  their spans and gaps.
* `fillSizes_run`: the second pass turns each gap into the encoding of its size.
* `Draft.writes_encode`: writing a draft appends its encoding, or fails for the reason the encoding
  fails.
-/

import RecordLayout.Proofs.Encode

namespace RecordLayout

/-! ### Overwriting -/

theorem overwrite_append (buffer : Buffer) (start : Nat) (first second : Bytes) :
    overwrite buffer start (first ++ second) =
      overwrite (overwrite buffer start first) (start + first.length) second := by
  induction first generalizing buffer start with
  | nil => rfl
  | cons byte rest ih =>
      rw [List.cons_append, overwrite, ih, overwrite, List.length_cons, Nat.add_right_comm,
        ← Nat.add_assoc]

theorem getElem?_overwrite (buffer : Buffer) (start : Nat) (chunk : Bytes) (index : Nat) :
    (overwrite buffer start chunk)[index]? =
      if start ≤ index ∧ index < start + chunk.length ∧ index < buffer.size then
        chunk[index - start]?
      else buffer[index]? := by
  induction chunk generalizing buffer start with
  | nil =>
      rw [overwrite, if_neg (by simp; omega)]
  | cons byte rest ih =>
      rw [overwrite, ih, Array.size_setIfInBounds, List.length_cons, Array.getElem?_setIfInBounds]
      by_cases here : start = index
      · subst here
        by_cases inside : start < buffer.size
        · simp [inside]
        · simp [inside]
      · by_cases later : start + 1 ≤ index ∧ index < start + 1 + rest.length ∧ index < buffer.size
        · rw [if_pos later, if_pos (by omega),
            show index - start = (index - (start + 1)) + 1 by omega, List.getElem?_cons_succ]
        · rw [if_neg later, if_neg here, if_neg (by omega)]

/-- **A patch replaces the stretch it covers**, and nothing else. -/
theorem overwrite_patch (buffer : Buffer) (start : Nat) (before old new after : Bytes)
    (same : new.length = old.length) :
    overwrite (overwrite buffer start (before ++ old ++ after)) (start + before.length) new =
      overwrite buffer start (before ++ new ++ after) := by
  apply Array.ext_getElem?
  intro index
  rw [getElem?_overwrite, getElem?_overwrite, getElem?_overwrite, size_overwrite]
  simp only [List.length_append, same]
  by_cases inside : start ≤ index ∧ index < start + (before.length + old.length + after.length) ∧
      index < buffer.size
  · rw [if_pos inside, if_pos inside]
    by_cases patched : start + before.length ≤ index ∧
        index < start + before.length + old.length ∧ index < buffer.size
    · rw [if_pos patched, List.append_assoc, List.getElem?_append_right (by omega),
        List.getElem?_append_left (by omega)]
      congr 1
      omega
    · rw [if_neg patched]
      by_cases early : index - start < before.length
      · rw [List.append_assoc, List.append_assoc, List.getElem?_append_left early,
          List.getElem?_append_left early]
      · rw [List.getElem?_append_right (by simp; omega),
          List.getElem?_append_right (by simp; omega)]
        simp [same]
  · rw [if_neg inside, if_neg inside, if_neg (by omega)]

/-- The buffer with a chunk written at its position. -/
def WriteBuffer.append (buffer : WriteBuffer) (chunk : Bytes) : WriteBuffer :=
  ⟨overwrite buffer.bytes buffer.position chunk, buffer.position + chunk.length⟩

namespace WriteBuffer

theorem append_nil (buffer : WriteBuffer) : buffer.append [] = buffer := rfl

theorem append_append (buffer : WriteBuffer) (first second : Bytes) :
    (buffer.append first).append second = buffer.append (first ++ second) := by
  simp only [append, overwrite_append, List.length_append, Nat.add_assoc]

theorem size_append (buffer : WriteBuffer) (chunk : Bytes) :
    (buffer.append chunk).bytes.size = buffer.bytes.size :=
  size_overwrite ..

theorem position_append (buffer : WriteBuffer) (chunk : Bytes) :
    (buffer.append chunk).position = buffer.position + chunk.length := rfl

/-! ### Single steps -/

theorem allot_ok {buffer : WriteBuffer} {length : Nat}
    (room : buffer.position + length ≤ buffer.bytes.size) :
    allot length buffer =
      .ok buffer.position { buffer with position := buffer.position + length } :=
  if_pos room

theorem write_ok {buffer : WriteBuffer} {chunk : Bytes}
    (room : buffer.position + chunk.length ≤ buffer.bytes.size) :
    write chunk buffer = .ok () (buffer.append chunk) := by
  show EStateM.bind (allot chunk.length) (fun start => put start chunk) buffer = _
  rw [EStateM.bind, allot_ok room]
  rfl

theorem writeInt_ok {buffer : WriteBuffer} {format : IntFormat} (word : UInt64)
    (room : buffer.position + format.bytes ≤ buffer.bytes.size) :
    writeInt format word buffer = .ok () (buffer.append (format.encode word)) := by
  show EStateM.bind (allot format.bytes) (fun start => put start (format.encode word)) buffer = _
  rw [EStateM.bind, allot_ok room, append, format.length_encode]
  rfl

theorem leaveGap_ok {buffer : WriteBuffer} {length : Nat}
    (room : buffer.position + length ≤ buffer.bytes.size) :
    leaveGap length buffer =
      .ok ⟨buffer.position, length⟩ (buffer.append (List.replicate length 0)) := by
  show EStateM.bind (allot length) (fun start => do
    put start (List.replicate length 0)
    return (⟨start, length⟩ : Gap)) buffer = _
  rw [EStateM.bind, allot_ok room, append, List.length_replicate]
  rfl

theorem fillGap_ok (buffer : WriteBuffer) (start : Nat) (format : IntFormat) (word : UInt64) :
    fillGap ⟨start, format.bytes⟩ format word buffer =
      .ok () { buffer with bytes := overwrite buffer.bytes start (format.encode word) } := by
  rw [fillGap, Nat.min_self]
  rfl

end WriteBuffer

/-! ### The law of a run -/

section Law

variable {α β : Type} {buffer : WriteBuffer} {size size' : Nat}

/-- **The law of a run** at a buffer: it appends the chunk of the outcome, which has `size` bytes,
or it fails for the reason of the outcome and has appended at most `size` bytes. -/
def Appends (run : Write α) (buffer : WriteBuffer) (size : Nat)
    (outcome : Except WriteError (α × Bytes)) : Prop :=
  match outcome with
  | .ok (value, chunk) => chunk.length = size ∧ run buffer = .ok value (buffer.append chunk)
  | .error cause => ∃ chunk : Bytes, chunk.length ≤ size ∧
      run buffer = .error cause (buffer.append chunk)

/-- The law of a run on every buffer that has room for it. -/
def Writes (run : Write Unit) (size : Nat) (outcome : Except WriteError Bytes) : Prop :=
  ∀ buffer : WriteBuffer, buffer.position + size ≤ buffer.bytes.size →
    Appends run buffer size (do return ((), ← outcome))

/-- **Runs compose**: the chunks are concatenated, and the first failure ends the run. -/
theorem Appends.bind {first : Write α} {rest : α → Write β}
    {outcome : Except WriteError (α × Bytes)} {outcome' : α → Bytes → Except WriteError (β × Bytes)}
    (ran : Appends first buffer size outcome)
    (next : ∀ value chunk, outcome = .ok (value, chunk) → chunk.length = size →
      Appends (rest value) (buffer.append chunk) size' (outcome' value chunk)) :
    Appends (first >>= rest) buffer (size + size') (do
      let (value, chunk) ← outcome
      let (result, chunk') ← outcome' value chunk
      return (result, chunk ++ chunk')) := by
  have step : (first >>= rest) buffer = EStateM.bind first rest buffer := rfl
  rw [EStateM.bind] at step
  match outcome, ran, next with
  | .error cause, ⟨chunk, short, ran⟩, _ =>
      rw [ran] at step
      exact ⟨chunk, by omega, step⟩
  | .ok (value, chunk), ⟨whole, ran⟩, next =>
      rw [ran] at step
      have later := next value chunk rfl whole
      show Appends _ buffer _ (do
        let (result, chunk') ← outcome' value chunk
        return (result, chunk ++ chunk'))
      generalize outcome' value chunk = second at later
      match second, later with
      | .error cause, ⟨chunk', short, ran'⟩ =>
          refine ⟨chunk ++ chunk', by rw [List.length_append]; omega, ?_⟩
          rw [step, ← buffer.append_append]
          exact ran'
      | .ok (result, chunk'), ⟨whole', ran'⟩ =>
          refine ⟨by rw [List.length_append, whole, whole'], ?_⟩
          rw [step, ← buffer.append_append]
          exact ran'

theorem Appends.congr {run run' : Write α} {outcome : Except WriteError (α × Bytes)}
    (same : run buffer = run' buffer) (ran : Appends run' buffer size outcome) :
    Appends run buffer size outcome := by
  unfold Appends at ran ⊢
  rw [same]
  exact ran

/-- A run whose result is only changed afterwards. -/
theorem Appends.map {run : Write α} {outcome : Except WriteError (α × Bytes)} (change : α → β)
    (ran : Appends run buffer size outcome) :
    Appends (do return change (← run)) buffer size (do
      let (value, chunk) ← outcome
      return (change value, chunk)) := by
  have step : (do return change (← run) : Write β) buffer =
      EStateM.bind run (fun value => pure (change value)) buffer := rfl
  rw [EStateM.bind] at step
  match outcome, ran with
  | .error cause, ⟨chunk, short, ran⟩ =>
      rw [ran] at step
      exact ⟨chunk, short, step⟩
  | .ok (value, chunk), ⟨whole, ran⟩ =>
      rw [ran] at step
      exact ⟨whole, step⟩

theorem Appends.room (room : buffer.position + (size + size') ≤ buffer.bytes.size) {chunk : Bytes}
    (whole : chunk.length = size) :
    (buffer.append chunk).position + size' ≤ (buffer.append chunk).bytes.size := by
  rw [buffer.size_append, buffer.position_append]
  omega

/-- Two runs, one after the other. -/
theorem Writes.seq {first second : Write Unit} {outcome outcome' : Except WriteError Bytes}
    (before : Writes first size outcome) (after : Writes second size' outcome') :
    Writes (do first; second) (size + size') (do return (← outcome) ++ (← outcome')) := by
  intro buffer room
  have both : Appends (do first; second) buffer (size + size') (do
      let (_, chunk) ← (do return ((), ← outcome) : Except WriteError (Unit × Bytes))
      let (result, chunk') ← (do return ((), ← outcome') : Except WriteError (Unit × Bytes))
      return (result, chunk ++ chunk')) :=
    (before buffer (by omega)).bind fun _ _ _ whole => after _ (Appends.room room whole)
  cases outcome <;> cases outcome' <;> exact both

theorem Writes.congr {run : Write Unit} {outcome outcome' : Except WriteError Bytes}
    (law : Writes run size outcome) (sizes : size' = size) (same : outcome' = outcome) :
    Writes run size' outcome' := by
  rw [sizes, same]
  exact law

theorem writes_nothing : Writes (pure ()) 0 (.ok []) :=
  fun _ _ => ⟨rfl, rfl⟩

theorem writes_refusal (size : Nat) (cause : WriteError) :
    Writes (throw cause) size (.error cause) :=
  fun _ _ => ⟨[], Nat.zero_le _, rfl⟩

theorem writes_writeInt (format : IntFormat) (word : UInt64) :
    Writes (WriteBuffer.writeInt format word) format.bytes (.ok (format.encode word)) :=
  fun _ room => ⟨format.length_encode word, WriteBuffer.writeInt_ok word room⟩

theorem writes_write (chunk : Bytes) :
    Writes (WriteBuffer.write chunk) chunk.length (.ok chunk) :=
  fun _ room => ⟨rfl, WriteBuffer.write_ok room⟩

theorem ArrayLength.writes_writeCount (length : ArrayLength IntFormat) (count : Nat) :
    Writes (length.writeCount count) length.counterWidth (.ok (length.encodeCount count)) := by
  cases length with
  | fixed _ => exact writes_nothing
  | bounded _ counter => exact writes_writeInt counter _

end Law

/-! ### Spans and gaps -/

/-- The size that a field leaves as a gap at `start`, if it measures a range. -/
def Field.pendingAt (start : Nat) (field : Field) : List PendingSize :=
  match field.layout with
  | .derived format expr =>
      if expr.isMeasured then [⟨field.name, format, expr, ⟨start, format.bytes⟩⟩] else []
  | _ => []

/-- Where members of the given lengths stand, the first at `start`. -/
def spansFrom : (start : Nat) → (lengths : List Nat) → List Span
  | _, [] => []
  | start, length :: lengths => ⟨start, start + length⟩ :: spansFrom (start + length) lengths

/-- The sizes that are left as gaps, for members of the given lengths, the first at `start`. -/
def pendingFrom : (start : Nat) → List (Field × Draft) → (lengths : List Nat) → List PendingSize
  | start, (field, _) :: pairs, length :: lengths =>
      field.pendingAt start ++ pendingFrom (start + length) pairs lengths
  | _, _, _ => []

theorem getElem?_spansFrom {lengths : List Nat} {index : Nat} (start : Nat)
    (inside : index < lengths.length) :
    (spansFrom start lengths)[index]? =
      some ⟨start + (lengths.take index).sum, start + (lengths.take (index + 1)).sum⟩ := by
  induction lengths generalizing start index with
  | nil => cases inside
  | cons length lengths ih =>
      cases index with
      | zero => simp [spansFrom]
      | succ index =>
          rw [spansFrom, List.getElem?_cons_succ, ih _ (Nat.lt_of_succ_lt_succ inside)]
          simp [Nat.add_assoc]

/-- The written stretch from one member to another has the sum of their lengths. -/
theorem Scope.sizeOf_spansFrom {lengths : List Nat} {first last : Nat} (start : Nat)
    (forward : first ≤ last) (inside : last < lengths.length) :
    Scope.sizeOf (spansFrom start lengths) first last = rangeLength lengths first last := by
  have total := @sum_take_add_rangeLength lengths first last forward
  rw [Scope.sizeOf, getElem?_spansFrom start (by omega), getElem?_spansFrom start inside]
  simp only
  omega

theorem SizeExpr.evaluate_congr {quantity quantity' : Operand Nat → Except WriteError Int}
    {expr : SizeExpr Nat}
    (same : ∀ term ∈ expr, quantity term.operand = quantity' term.operand) :
    expr.evaluate quantity = expr.evaluate quantity' := by
  unfold SizeExpr.evaluate
  generalize (0 : Int) = total
  induction expr generalizing total with
  | nil => rfl
  | cons term rest ih =>
      rw [List.forall_mem_cons] at same
      rw [List.foldlM_cons, List.foldlM_cons, same.1]
      congr 1
      funext next
      exact ih same.2 next

namespace Scope

variable {scope : Scope} {expr : SizeExpr Nat}

/-- **The spans measure what the lengths sum up to.** -/
theorem evaluate_spansFrom {lengths : List Nat} (start : Nat) (name : String) (format : IntFormat)
    (whole : lengths.length = scope.fields.length)
    (references : ∀ term ∈ expr, term.operand.RefersTo scope.fields) :
    scope.evaluate (spansFrom start lengths) name format expr =
      scope.evaluateBy lengths name format expr := by
  have same : expr.evaluate (scope.quantity (spansFrom start lengths)) =
      expr.evaluate (scope.quantityBy lengths) := by
    apply SizeExpr.evaluate_congr
    intro term inside
    have refers := references term inside
    generalize term.operand = operand at refers
    cases operand with
    | sizeOf first last =>
        obtain ⟨forward, bounded⟩ := refers
        exact congrArg Except.ok (sizeOf_spansFrom start forward (whole ▸ bounded))
    | _ => rfl
  rw [evaluate, same]
  rfl

theorem isMeasure_of_isMeasured (unmeasured : expr.isMeasured = false) :
    ∀ term ∈ expr, term.operand.isMeasure = false := by
  intro term inside
  simpa using List.any_eq_false.mp unmeasured term inside

/-- A size that measures nothing does not depend on the spans. -/
theorem evaluate_of_not_isMeasured (unmeasured : expr.isMeasured = false) (spans : List Span)
    (lengths : List Nat) (name : String) (format : IntFormat) :
    scope.evaluate spans name format expr = scope.evaluateBy lengths name format expr := by
  have same : expr.evaluate (scope.quantity spans) = expr.evaluate (scope.quantityBy lengths) := by
    apply SizeExpr.evaluate_congr
    intro term inside
    have unmeasured := isMeasure_of_isMeasured unmeasured term inside
    generalize term.operand = operand at unmeasured
    cases operand with
    | sizeOf first last => cases unmeasured
    | _ => rfl
  rw [evaluate, same]
  rfl

theorem encodeSize_of_not_isMeasured (unmeasured : expr.isMeasured = false)
    (lengths lengths' : List Nat) (name : String) (format : IntFormat) :
    scope.encodeSize lengths name format expr = scope.encodeSize lengths' name format expr := by
  rw [encodeSize, ← evaluate_of_not_isMeasured unmeasured [] lengths,
    evaluate_of_not_isMeasured unmeasured [] lengths']
  rfl

end Scope

/-! ### The first pass over a struct -/

namespace Scope

variable {scope : Scope} {field : Field} {member : Draft}

/-- Writes a member, or leaves a gap for it; yields the sizes that wait. -/
def writeMember (scope : Scope) (progress : Progress) (field : Field) (member : Draft) :
    Write (List PendingSize) :=
  match field.layout with
  | .derived format expr => scope.writeSize progress field.name format expr
  | layout => do
      member.write layout field.name
      pure progress.pending

/-- The parts of a member other than a measured size are its encoding. -/
theorem encodeMember_of_part {chunk : Bytes} {start : Nat} (lengths : List Nat)
    (found : scope.part field member = .ok chunk) (settled : field.pendingAt start = []) :
    scope.encodeMember lengths field member = .ok chunk := by
  unfold part at found
  unfold Field.pendingAt at settled
  unfold encodeMember
  split at found
  · rename_i format expr derived
    simp only [derived] at settled ⊢
    split_ifs at settled found with measured
    rw [encodeSize_of_not_isMeasured (by simpa using measured) lengths []]
    exact found
  · exact found

/-- **One member of the first pass.** -/
theorem appends_writeMember {buffer : WriteBuffer} (progress : Progress)
    (shaped : member.Shaped field.layout)
    (law : Writes (member.write field.layout field.name) (member.size field.layout)
      (member.encode field.layout field.name))
    (room : buffer.position + member.size field.layout ≤ buffer.bytes.size) :
    Appends (scope.writeMember progress field member) buffer (member.size field.layout) (do
      return (progress.pending ++ field.pendingAt buffer.position, ← scope.part field member)) := by
  obtain ⟨name, layout⟩ := field
  cases layout with
  | derived format expr =>
      cases shaped
      have room : buffer.position + format.bytes ≤ buffer.bytes.size := room
      show Appends (scope.writeSize progress name format expr) buffer format.bytes _
      unfold writeSize part Field.pendingAt
      simp only
      split
      · -- the gap is blank until the second pass
        have gap : Appends (WriteBuffer.leaveGap format.bytes) buffer format.bytes
            (.ok (⟨buffer.position, format.bytes⟩, List.replicate format.bytes 0)) :=
          ⟨List.length_replicate, WriteBuffer.leaveGap_ok room⟩
        exact gap.map fun gap => progress.pending ++ [⟨name, format, expr, gap⟩]
      · rename_i unmeasured
        rw [List.append_nil, encodeSize,
          evaluate_of_not_isMeasured (by simpa using unmeasured) progress.spans []]
        cases scope.evaluateBy [] name format expr with
        | error cause => exact ⟨[], Nat.zero_le _, rfl⟩
        | ok value =>
            exact ((writes_writeInt format (format.toWord value)) buffer room).map
              fun _ => progress.pending
  | _ =>
      have ran := (law buffer room).map fun _ => progress.pending
      show Appends (do member.write _ name; pure progress.pending) buffer _ (do
        return (progress.pending ++ [], ← member.encode _ name))
      rw [List.append_nil]
      cases verdict : member.encode _ name <;> rw [verdict] at ran <;> exact ran

end Scope

theorem Write.bind_assoc {α β γ : Type} (first : Write α) (second : α → Write β)
    (third : β → Write γ) (buffer : WriteBuffer) :
    ((first >>= second) >>= third) buffer =
      (first >>= fun value => second value >>= third) buffer := by
  show EStateM.bind (EStateM.bind first second) third buffer =
    EStateM.bind first (fun value => EStateM.bind (second value) third) buffer
  unfold EStateM.bind
  cases first buffer <;> rfl

theorem writeMembers_cons (scope : Scope) (field : Field) (fields : List Field) (member : Draft)
    (members : List Draft) (progress : Progress) (buffer : WriteBuffer) :
    writeMembers scope (field :: fields) (member :: members) progress buffer =
      (scope.writeMember progress field member >>= fun pending next =>
        writeMembers scope fields members
          ⟨progress.spans ++ [⟨buffer.position, next.position⟩], pending⟩ next) buffer := by
  obtain ⟨name, layout⟩ := field
  cases layout with
  | derived format expr => rfl
  | _ =>
      simp only [writeMembers, Scope.writeMember]
      exact (Write.bind_assoc _ _ _ buffer).symm

/-- **The first pass** appends the parts of the members and notes where they stand. -/
theorem writeMembers_run {scope : Scope} {fields : List Field} {members : List Draft}
    {buffer : WriteBuffer} (progress : Progress)
    (shaped : ∀ pair ∈ fields.zip members, pair.2.Shaped pair.1.layout)
    (laws : ∀ pair ∈ fields.zip members, Writes (pair.2.write pair.1.layout pair.1.name)
      (pair.2.size pair.1.layout) (pair.2.encode pair.1.layout pair.1.name))
    (room : buffer.position + membersSize fields members ≤ buffer.bytes.size) :
    Appends (writeMembers scope fields members progress) buffer (membersSize fields members) (do
      let parts ← (fields.zip members).mapM fun pair => scope.part pair.1 pair.2
      let lengths := parts.map List.length
      return (⟨progress.spans ++ spansFrom buffer.position lengths,
        progress.pending ++ pendingFrom buffer.position (fields.zip members) lengths⟩,
        parts.flatten)) := by
  induction fields generalizing members buffer progress with
  | nil =>
      refine ⟨by cases members <;> rfl, ?_⟩
      cases members <;> simp [writeMembers, spansFrom, pendingFrom, WriteBuffer.append_nil] <;> rfl
  | cons field fields ih =>
      cases members with
      | nil =>
          have none : membersSize (field :: fields) [] = 0 := by
            cases field
            rfl
          refine ⟨none.symm, ?_⟩
          simp [writeMembers, spansFrom, pendingFrom, WriteBuffer.append_nil]
          rfl
      | cons member members =>
          rw [List.zip_cons_cons, List.forall_mem_cons] at shaped laws
          have size : membersSize (field :: fields) (member :: members) =
              member.size field.layout + membersSize fields members := by
            obtain ⟨name, layout⟩ := field
            rfl
          rw [size] at room ⊢
          have first : Appends (scope.writeMember progress field member) buffer _ _ :=
            scope.appends_writeMember progress shaped.1 laws.1
              (show _ + member.size field.layout ≤ _ by omega)
          have both := first.bind fun pending chunk _ whole =>
            show Appends (fun next => writeMembers scope fields members
                ⟨progress.spans ++ [⟨buffer.position, next.position⟩], pending⟩ next) _ _ _ from
              ih ⟨progress.spans ++ [⟨buffer.position, (buffer.append chunk).position⟩], pending⟩
                shaped.2 laws.2 (Appends.room room whole)
          unfold Appends at both ⊢
          rw [writeMembers_cons, List.zip_cons_cons, List.mapM_cons]
          revert both
          cases scope.part field member with
          | error cause => exact id
          | ok part =>
              cases (fields.zip members).mapM fun pair => scope.part pair.1 pair.2 with
              | error cause => exact id
              | ok parts =>
                  rintro ⟨whole, ran⟩
                  refine ⟨whole, ran.trans ?_⟩
                  simp [spansFrom, pendingFrom, WriteBuffer.position_append]

/-! ### The second pass over a struct -/

theorem Field.pendingAt_cases (field : Field) (start : Nat) :
    field.pendingAt start = [] ∨
      ∃ format expr, field.layout = .derived format expr ∧ expr.isMeasured = true ∧
        field.pendingAt start = [⟨field.name, format, expr, ⟨start, format.bytes⟩⟩] := by
  unfold Field.pendingAt
  split
  · rename_i format expr derived
    split
    · rename_i measured
      exact .inr ⟨format, expr, derived, measured, rfl⟩
    · exact .inl rfl
  · exact .inl rfl

namespace Scope

variable {scope : Scope} {spans : List Span} {lengths : List Nat} {buffer : WriteBuffer}

/-- Filling one gap, in a buffer that was appended to, replaces the blank that stood for it. -/
theorem fillSize_run {name : String} {format : IntFormat} {expr : SizeExpr Nat}
    (agree : scope.evaluate spans name format expr = scope.evaluateBy lengths name format expr)
    (before after : Bytes) :
    scope.fillSize spans ⟨name, format, expr, ⟨buffer.position + before.length, format.bytes⟩⟩
        (buffer.append (before ++ List.replicate format.bytes 0 ++ after)) =
      match scope.encodeSize lengths name format expr with
      | .ok chunk => .ok () (buffer.append (before ++ chunk ++ after))
      | .error cause =>
          .error cause (buffer.append (before ++ List.replicate format.bytes 0 ++ after)) := by
  show EStateM.bind (Write.ofExcept (scope.evaluate spans name format expr)) (fun value =>
    WriteBuffer.fillGap ⟨buffer.position + before.length, format.bytes⟩ format
      (format.toWord value)) _ = _
  rw [agree, encodeSize]
  cases scope.evaluateBy lengths name format expr with
  | error cause => rfl
  | ok value =>
      have same : (format.encode (format.toWord value)).length =
          (List.replicate format.bytes (0 : UInt8)).length := by
        rw [format.length_encode, List.length_replicate]
      show WriteBuffer.fillGap _ format (format.toWord value) _ =
        .ok () (buffer.append (before ++ format.encode (format.toWord value) ++ after))
      rw [WriteBuffer.fillGap_ok]
      simp only [WriteBuffer.append, overwrite_patch _ _ _ _ _ _ same, List.length_append, same]

/-- **The second pass** turns the parts of the members into their encodings. `done` is what stands
before the members that are still to be visited. -/
theorem fillSizes_run {pairs : List (Field × Draft)} {parts : List Bytes}
    (agree : ∀ pair ∈ pairs, ∀ format expr, pair.1.layout = .derived format expr →
      scope.evaluate spans pair.1.name format expr =
        scope.evaluateBy lengths pair.1.name format expr)
    (each : List.Forall₂ (fun pair part => scope.part pair.1 pair.2 = .ok part) pairs parts)
    (done : Bytes) :
    Appends (fun next =>
        (pendingFrom (buffer.position + done.length) pairs (parts.map List.length)).forM
          (scope.fillSize spans) (next.append (done ++ parts.flatten)))
      buffer (done ++ parts.flatten).length (do
        let chunks ← pairs.mapM fun pair => scope.encodeMember lengths pair.1 pair.2
        return ((), done ++ chunks.flatten)) := by
  induction each generalizing done with
  | nil => exact ⟨rfl, rfl⟩
  | @cons pair part pairs parts found _ ih =>
      obtain ⟨field, member⟩ := pair
      rw [List.forall_mem_cons] at agree
      rw [List.mapM_cons]
      obtain settled | ⟨format, expr, derived, measured, waits⟩ :=
        field.pendingAt_cases (buffer.position + done.length)
      · -- nothing waits, so the part is final
        have later := ih agree.2 (done ++ part)
        have final : scope.encodeMember lengths field member = .ok part :=
          encodeMember_of_part lengths found settled
        simp only [List.map_cons, pendingFrom, settled, List.nil_append, List.flatten_cons, final]
        simp only [List.length_append, ← Nat.add_assoc, List.append_assoc] at later ⊢
        revert later
        cases pairs.mapM fun pair => scope.encodeMember lengths pair.1 pair.2 <;> exact id
      · have blank : part = List.replicate format.bytes 0 := by
          simp only [Scope.part, derived, measured, if_true] at found
          exact (Except.ok.inj found).symm
        subst blank
        have first := @fillSize_run scope spans lengths buffer field.name format expr
          (agree.1 format expr derived) done parts.flatten
        have final : scope.encodeMember lengths field member =
            scope.encodeSize lengths field.name format expr := by
          simp only [encodeMember, derived]
        simp only [List.map_cons, pendingFrom, waits, List.flatten_cons, final]
        cases size : scope.encodeSize lengths field.name format expr with
        | error cause =>
            simp only [size, List.append_assoc] at first
            refine ⟨_, Nat.le_refl _, ?_⟩
            show EStateM.bind (scope.fillSize spans _) _ _ = _
            rw [EStateM.bind, first]
        | ok chunk =>
            simp only [size, List.append_assoc] at first
            have whole : (List.replicate format.bytes (0 : UInt8)).length = chunk.length := by
              rw [length_encodeSize size, List.length_replicate]
            have step (rest : Write Unit) : EStateM.bind
                (scope.fillSize spans ⟨field.name, format, expr,
                  ⟨buffer.position + done.length, format.bytes⟩⟩) (fun _ => rest)
                (buffer.append (done ++ (List.replicate format.bytes 0 ++ parts.flatten))) =
                rest (buffer.append (done ++ (chunk ++ parts.flatten))) := by
              rw [EStateM.bind, first]
            have later := ih agree.2 (done ++ chunk)
            simp only [List.length_append, ← Nat.add_assoc, whole, List.append_assoc] at later ⊢
            revert later
            cases pairs.mapM fun pair => scope.encodeMember lengths pair.1 pair.2 <;>
              exact Appends.congr (step _)

end Scope

/-! ### Whole drafts -/

/-- **A struct is written** as its encoding when its members are. -/
theorem writes_struct {fields : List Field} {members : List Draft} (name : String)
    (whole : members.length = fields.length)
    (references : ∀ field ∈ fields, field.RefersTo fields)
    (shaped : ∀ pair ∈ fields.zip members, pair.2.Shaped pair.1.layout)
    (laws : ∀ pair ∈ fields.zip members, Writes (pair.2.write pair.1.layout pair.1.name)
      (pair.2.size pair.1.layout) (pair.2.encode pair.1.layout pair.1.name)) :
    Writes (Draft.write (.struct fields) name (.struct members)) (membersSize fields members)
      (Draft.encode (.struct fields) name (.struct members)) := by
  intro buffer room
  let scope : Scope := ⟨fields, members⟩
  have first : Appends (writeMembers scope fields members ⟨[], []⟩) buffer _ _ :=
    writeMembers_run _ shaped laws room
  have run : Draft.write (.struct fields) name (.struct members) buffer =
      EStateM.bind (writeMembers scope fields members ⟨[], []⟩)
        (fun progress => progress.pending.forM (scope.fillSize progress.spans)) buffer := by
    rw [Draft.write]
    rfl
  rw [EStateM.bind] at run
  rw [Draft.encode_struct]
  cases found : (fields.zip members).mapM fun pair => scope.part pair.1 pair.2 with
  | error cause =>
      rw [found] at first
      obtain ⟨chunk, short, ran⟩ := first
      rw [ran] at run
      exact ⟨chunk, short, run⟩
  | ok parts =>
      rw [found] at first
      obtain ⟨size, ran⟩ := first
      rw [ran] at run
      have counted : (parts.map List.length).length = fields.length := by
        rw [List.length_map, ← (mapM_eq_ok_iff.mp found).length_eq, List.length_zip, whole,
          Nat.min_self]
      have agree : ∀ pair ∈ fields.zip members, ∀ format expr,
          pair.1.layout = .derived format expr →
          scope.evaluate (spansFrom buffer.position (parts.map List.length)) pair.1.name format
              expr =
            scope.evaluateBy (parts.map List.length) pair.1.name format expr :=
        fun pair inside format expr derived => Scope.evaluate_spansFrom _ _ _ counted
          (references _ (List.of_mem_zip inside).1 format expr derived)
      have second := @Scope.fillSizes_run scope _ _ buffer _ _ agree (mapM_eq_ok_iff.mp found) []
      rw [← size]
      show Appends _ buffer _ ((do
        let chunks ← (fields.zip members).mapM fun pair =>
          scope.encodeMember (parts.map List.length) pair.1 pair.2
        return chunks.flatten) >>= fun chunk => pure ((), chunk))
      revert second
      cases (fields.zip members).mapM fun pair =>
        scope.encodeMember (parts.map List.length) pair.1 pair.2 <;>
        exact Appends.congr run

theorem writes_elements {element : Layout} {name : String} {elements : List Draft}
    (laws : ∀ draft ∈ elements, Writes (draft.write element name) (draft.size element)
      (draft.encode element name)) :
    Writes (writeElements element name elements) (elementsSize element elements)
      (do return (← encodeElements element name elements).flatten) := by
  induction elements with
  | nil => exact writes_nothing
  | cons draft rest ih =>
      rw [List.forall_mem_cons] at laws
      refine (laws.1.seq (ih laws.2)).congr rfl ?_
      rw [encodeElements]
      cases draft.encode element name <;> cases encodeElements element name rest <;> rfl

/-- **Writing a draft appends its encoding**, or fails for the reason that the encoding fails, at
any place of any buffer with room for it. -/
theorem Draft.writes_encode {layout : Layout} {draft : Draft} (valid : layout.Valid)
    (shaped : draft.Shaped layout) (name : String) :
    Writes (draft.write layout name) (draft.size layout) (draft.encode layout name) := by
  induction shaped generalizing name with
  | @int format stored _ =>
      cases stored with
      | none => exact writes_refusal _ _
      | some word => exact writes_writeInt format word
  | @enum enumeration stored _ =>
      cases stored with
      | none => exact writes_refusal _ _
      | some word => exact writes_writeInt enumeration.format word
  | @mask mask bytes whole => exact (writes_write bytes).congr whole.symm rfl
  | @struct fields members whole each ih =>
      cases valid with
      | struct names references layouts =>
          exact writes_struct name whole references each fun pair inside =>
            ih pair inside (layouts _ (List.of_mem_zip inside).1) _
  | @array element length elements counted each ih =>
      cases valid with
      | array counts valid =>
          have rest := writes_elements fun draft inside => ih draft inside valid name
          refine ((length.writes_writeCount elements.length).seq rest).congr rfl ?_
          rw [Draft.encode]
          cases encodeElements element name elements <;> rfl
  | unselected => exact writes_refusal _ _
  | @view key variants index variant payload selected inside ih =>
      cases valid with
      | view names keys fits payloads =>
          have rest := ih (payloads _ (List.mem_of_getElem? selected)) variant.name
          simp only [Draft.write, Draft.encode, Draft.size, selected]
          refine ((writes_writeInt key variant.key).seq rest).congr rfl ?_
          cases payload.encode variant.layout variant.name <;> rfl
  | @constant format value => exact writes_writeInt format value
  | derived => exact writes_refusal _ _

end RecordLayout
