/-
**Writing a draft into a buffer.**

The values of a draft are written in the order of the layout. A derived size that measures a range
of fields cannot be known before the range is written, so its bytes are left as a gap and filled in
after the last member of its struct; every other derived size is computed from the draft at once. A
leaf without a value, a view without a selection and a size that does not fit its format end the
run.

`Draft.writeTo` asks for room for the whole draft before it touches the buffer. After that the
buffer may be left partly written by a failure.
-/

import RecordLayout.Draft
import RecordLayout.WriteBuffer

namespace RecordLayout

/-- Where a written value starts and ends. -/
structure Span where
  start : Nat
  stop : Nat
  deriving DecidableEq, Repr

/-- What the size expressions of a struct refer to: its fields and their drafts. -/
structure Scope where
  fields : List Field
  members : List Draft

namespace Scope

/-- The value of the member at `index`. -/
def valueOf (scope : Scope) (index : Nat) : Except WriteError Int :=
  match scope.fields[index]?, scope.members[index]? with
  | some field, some member =>
      match member.number? field.layout with
      | some value => .ok value
      | none => .error (.notSet field.name)
  | _, _ => .error (.notSet "")

/-- The number of elements of the member at `index`. -/
def countOf (scope : Scope) (index : Nat) : Nat :=
  match scope.members[index]? with
  | some member => member.count
  | none => 0

/-- The length of the members from `first` to `last`, as written. -/
def sizeOf (spans : List Span) (first last : Nat) : Int :=
  match spans[first]?, spans[last]? with
  | some start, some stop => (stop.stop : Int) - start.start
  | _, _ => 0

/-- A quantity of a size expression; `spans` are those of the members written so far. -/
def quantity (scope : Scope) (spans : List Span) : Operand Nat → Except WriteError Int
  | .const value => .ok value.toNat
  | .valueOf index => scope.valueOf index
  | .countOf index => .ok (scope.countOf index)
  | .sizeOf first last => .ok (sizeOf spans first last)

/-- The value of the size field `name`, which must fit its format. -/
def evaluate (scope : Scope) (spans : List Span) (name : String) (format : IntFormat)
    (expr : SizeExpr Nat) : Except WriteError Int := do
  let value ← expr.evaluate (scope.quantity spans)
  if !format.fits value then throw (.overflow name value format.min format.max)
  return value

end Scope

/-- A size field whose bytes are still a gap. -/
structure PendingSize where
  name : String
  format : IntFormat
  expr : SizeExpr Nat
  gap : Gap

/-- How far the members of a struct are written. -/
structure Progress where
  /-- The spans of the members written so far. -/
  spans : List Span
  /-- The size fields that wait for the remaining members. -/
  pending : List PendingSize

/-- Takes over an outcome that does not concern the buffer. -/
def Write.ofExcept {α : Type} (outcome : Except WriteError α) : Write α := fun buffer =>
  match outcome with
  | .ok value => .ok value buffer
  | .error cause => .error cause buffer

/-- Writes the size field `name`, or leaves a gap for it if it measures a range of fields; yields
the size fields that wait for the remaining members. -/
def Scope.writeSize (scope : Scope) (progress : Progress) (name : String) (format : IntFormat)
    (expr : SizeExpr Nat) : Write (List PendingSize) :=
  if expr.isMeasured then do
    let gap ← WriteBuffer.leaveGap format.bytes
    return progress.pending ++ [⟨name, format, expr, gap⟩]
  else do
    let value ← Write.ofExcept (scope.evaluate progress.spans name format expr)
    WriteBuffer.writeInt format (format.toWord value)
    return progress.pending

/-- Fills in a size field once all members are written. -/
def Scope.fillSize (scope : Scope) (spans : List Span) (size : PendingSize) : Write Unit := do
  let value ← Write.ofExcept (scope.evaluate spans size.name size.format size.expr)
  WriteBuffer.fillGap size.gap size.format (size.format.toWord value)

/-- Writes the number of elements in front of a bounded array. -/
def ArrayLength.writeCount (length : ArrayLength IntFormat) (count : Nat) : Write Unit :=
  match length with
  | .fixed _ => pure ()
  | .bounded _ counter => WriteBuffer.writeInt counter (UInt64.ofNat count)

mutual

/-- Writes the draft of the field `name`. -/
def Draft.write : Layout → (name : String) → Draft → Write Unit
  | .int format, _, .scalar (some word) => WriteBuffer.writeInt format word
  | .enum enumeration, _, .scalar (some word) => WriteBuffer.writeInt enumeration.format word
  | .mask _, _, .mask bytes => WriteBuffer.write bytes
  | .struct fields, _, .struct members => do
      let scope : Scope := ⟨fields, members⟩
      let progress ← writeMembers scope fields members ⟨[], []⟩
      progress.pending.forM (scope.fillSize progress.spans)
  | .array element length, name, .array elements => do
      length.writeCount elements.length
      writeElements element name elements
  | .view key variants, name, .view (some (index, payload)) =>
      match variants[index]? with
      | some variant => do
          WriteBuffer.writeInt key variant.key
          payload.write variant.layout variant.name
      | none => throw (.notSet name)
  | .constant format value, _, .computed => WriteBuffer.writeInt format value
  | _, name, _ => throw (.notSet name)

/-- Writes the members of a struct, up to the size fields that are left pending. -/
def writeMembers (scope : Scope) : List Field → List Draft → Progress → Write Progress
  | ⟨name, layout⟩ :: fields, member :: members, progress => do
      let start := (← get).position
      let pending ← match layout with
        | .derived format expr => scope.writeSize progress name format expr
        | layout => do
            member.write layout name
            pure progress.pending
      let stop := (← get).position
      writeMembers scope fields members ⟨progress.spans ++ [⟨start, stop⟩], pending⟩
  | _, _, progress => pure progress

/-- Writes the elements of the array `name`. -/
def writeElements (element : Layout) (name : String) : List Draft → Write Unit
  | [] => pure ()
  | draft :: rest => do
      draft.write element name
      writeElements element name rest

end

namespace Draft

/-- Writes a draft to the front of a buffer. Yields the number of bytes written, or why it failed,
and the buffer as the run left it. -/
def writeTo (layout : Layout) (draft : Draft) (buffer : Buffer) : Except WriteError Nat × Buffer :=
  let needed := draft.size layout
  if buffer.size < needed then (.error (.writeFailed needed buffer.size), buffer)
  else
    match draft.write layout "" (WriteBuffer.ofBuffer buffer) with
    | .ok _ done => (.ok done.position, done.bytes)
    | .error cause done => (.error cause, done.bytes)

/-- The bytes of a draft. -/
def toBuffer (layout : Layout) (draft : Draft) : Except WriteError Buffer :=
  match draft.writeTo layout (Array.replicate (draft.size layout) 0) with
  | (.ok written, buffer) => .ok (buffer.take written)
  | (.error cause, _) => .error cause

end Draft

end RecordLayout
