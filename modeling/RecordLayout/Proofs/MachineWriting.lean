/-
**Writing on machine words.**

The writing half of the library, written out once more on machine words, where an operation can trap:
besides the operations on 64-bit words there are the sums of size expressions on signed 128-bit words
(`wide`), the shifts that take a word apart, and the stretches of the buffer that are written to
(`store`). A failure of the library is not a trap: it is an answer, and keeps the buffer as it is.

* `CheckedWrite`: a run of steps on a buffer that can trap.
* `claim`, `store` and the steps on a buffer made of them.
* `quantity`, `evaluate`: size expressions. What they refer to is looked up by index, among the
  members of a struct and among the spans of those that have been written.
* `size`, `write`: whole drafts. A size that waits is noted by the index of its field, and the field
  is looked up again when the gap is filled.
* `writeTo`, `toBuffer`: writing a record.
-/

import Mathlib.Algebra.Ring.Int.Defs
import RecordLayout.Draft.Write
import RecordLayout.Mask.Compile
import RecordLayout.Proofs.Machine

namespace RecordLayout

/-- A run of steps on a buffer. It stops at a trap, or ends with a result or a failure and the buffer
as it has left it. -/
def CheckedWrite (α : Type) : Type :=
  WriteBuffer → Run (EStateM.Result WriteError WriteBuffer α)

namespace CheckedWrite

variable {α : Type}

instance : Monad CheckedWrite where
  pure value := fun buffer => .ok (.ok value buffer)
  bind run next := fun buffer => do
    match ← run buffer with
    | .ok value after => next value after
    | .error cause after => return .error cause after

/-- A computation that does not concern the buffer. -/
def lift (run : Run α) : CheckedWrite α := fun buffer => do return .ok (← run) buffer

/-- Ends with a failure of the library. -/
def fail (cause : WriteError) : CheckedWrite α := fun buffer => .ok (.error cause buffer)

/-- The number of bytes written so far. -/
def position : CheckedWrite Nat := fun buffer => .ok (.ok buffer.position buffer)

end CheckedWrite

namespace Machine

open CheckedWrite

/-! ### Wide numbers -/

/-- A sum or difference of signed 128-bit words. -/
def wide (value : Int) : Run Int :=
  if -2 ^ 127 ≤ value ∧ value < 2 ^ 127 then .ok value else .error (.trap .overflow)

/-- The signed 128-bit word with a single bit. -/
def bit (amount : Nat) : Run Int :=
  if amount < 128 then .ok (1#128 <<< amount).toInt else .error (.trap .shift)

/-- The largest number of a format. -/
def largest (format : IntFormat) : Run Int := do
  let bits ← mul format.bytes 8
  if format.signed then wide ((← bit (← sub bits 1)) - 1) else wide ((← bit bits) - 1)

/-- The smallest number of a format. -/
def smallest (format : IntFormat) : Run Int := do
  if format.signed then wide (-(← bit (← sub (← mul format.bytes 8) 1))) else return 0

/-- Whether a number lies between the limits of a format. -/
def fits (format : IntFormat) (value : Int) : Run Bool := do
  if (← smallest format) ≤ value then return value ≤ (← largest format) else return false

/-! ### Words and bytes -/

def subWord (first second : UInt64) : Run UInt64 :=
  if second ≤ first then .ok (first - second) else .error (.trap .underflow)

def shiftDown (word : UInt64) (amount : Nat) : Run UInt64 :=
  if amount < 64 then .ok (word >>> UInt64.ofNat amount) else .error (.trap .shift)

/-- The word whose low bytes, `width` of them, have all their bits set. -/
def mask (width : Nat) : Run UInt64 := do
  if 8 ≤ width then return UInt64.ofNat (UInt64.size - 1)
  else subWord (← shiftLeft 1 (← mul width 8)) 1

/-- The word of a number, cut to the width of a format. -/
def toWord (format : IntFormat) (value : Int) : Run UInt64 := do
  return UInt64.ofInt value &&& (← mask format.bytes)

/-- How far a word is shifted for its byte at `index`, of `width` bytes. -/
def distance (order : ByteOrder) (width index : Nat) : Run Nat :=
  match order with
  | .big => do mul (← sub (← sub width 1) index) 8
  | .little => mul index 8

/-- The low `width` bytes of a word. -/
def encode (order : ByteOrder) (width : Nat) (word : UInt64) : Run Bytes :=
  (List.range width).mapM fun index => do
    return (← shiftDown word (← distance order width index)).toUInt8

/-- The bytes of a mask, from the front of the room that there is for the largest one. -/
def maskBytes (width : Nat) (bytes : Bytes) : Run Bytes :=
  let room := MaskSpec.maxWidth.toNat
  range ((bytes ++ List.replicate room 0).take room) 0 width

/-! ### Steps on a buffer -/

/-- Allots the next `length` bytes and returns where they start. -/
def claim (length : Nat) : CheckedWrite Nat := fun buffer => do
  let stop ← add buffer.position length
  if buffer.bytes.size < stop then return .error (.writeFailed stop buffer.bytes.size) buffer
  else return .ok buffer.position { buffer with position := stop }

/-- Copies a chunk to the stretch from `start` up to `stop`, which must have its length. -/
def store (start stop : Nat) (chunk : Bytes) : CheckedWrite Unit := fun buffer =>
  if start ≤ stop ∧ stop ≤ buffer.bytes.size ∧ chunk.length = stop - start then
    .ok (.ok () { buffer with bytes := overwrite buffer.bytes start chunk })
  else .error (.trap .index)

/-- Fills the stretch from `start` up to `stop` with the low bytes of a word. -/
def storeWord (start stop : Nat) (order : ByteOrder) (word : UInt64) : CheckedWrite Unit := do
  store start stop (← lift (encode order (stop - start) word))

/-- Writes a string of bytes. -/
def writeBytes (chunk : Bytes) : CheckedWrite Unit := do
  let start ← claim chunk.length
  let stop ← lift (add start chunk.length)
  store start stop chunk

/-- Writes a word in an integer format. -/
def writeInt (format : IntFormat) (word : UInt64) : CheckedWrite Unit := do
  let start ← claim format.bytes
  let stop ← lift (add start format.bytes)
  storeWord start stop format.order word

/-- Allots `length` bytes and leaves them zero. -/
def leaveGap (length : Nat) : CheckedWrite Gap := do
  let start ← claim length
  let stop ← lift (add start length)
  store start stop (List.replicate (stop - start) 0)
  return ⟨start, length⟩

/-- Fills a gap with the low bytes of a word, as many as both it and the format have. -/
def fillGap (gap : Gap) (format : IntFormat) (word : UInt64) : CheckedWrite Unit := do
  let stop ← lift (add gap.start (min gap.length format.bytes))
  storeWord gap.start stop format.order word

/-! ### Size expressions -/

/-- The number that a draft holds. -/
def numeric : Layout → Draft → Run (Option Int)
  | .int format, .scalar (some word) => do return some (← ofWord format word)
  | .enum _, .scalar (some word) => .ok (some word.toNat)
  | .constant _ value, .computed => .ok (some value.toNat)
  | _, _ => .ok none

/-- A quantity of a size expression; `spans` are those of the members written so far. -/
def quantity (scope : Scope) (spans : List Span) : Operand Nat → CheckedWrite Int
  | .const value => pure value.toNat
  | .valueOf index => do
      let member ← lift (entry scope.members index)
      let field ← lift (entry scope.fields index)
      match ← lift (numeric field.layout member) with
      | some value => pure value
      | none => fail (.notSet field.name)
  | .countOf index => do return (← lift (entry scope.members index)).count
  | .sizeOf first last => do
      let stop ← lift (entry spans last)
      let start ← lift (entry spans first)
      return (← lift (sub stop.stop start.start) : Nat)

/-- Adds a term to the sum of the terms before it, or subtracts it. -/
def addTerm (scope : Scope) (spans : List Span) (total : Int) (term : Term Nat) :
    CheckedWrite Int := do
  let value ← quantity scope spans term.operand
  lift (wide (if term.negate then total - value else total + value))

/-- The value of the size field `name`, which must fit its format. -/
def evaluate (scope : Scope) (spans : List Span) (name : String) (format : IntFormat)
    (expr : SizeExpr Nat) : CheckedWrite Int := do
  let value ← expr.foldlM (addTerm scope spans) 0
  if ← lift (fits format value) then return value
  else fail (.overflow name value (← lift (smallest format)) (← lift (largest format)))

/-! ### Drafts -/

mutual

/-- The encoded length of a draft as it stands. -/
def size : Layout → Draft → Run Nat
  | .mask mask, .mask _ => .ok mask.width
  | .struct fields, .struct members => addMembers 0 fields members
  | .array element length, .array elements => do
      add length.counterWidth (← addElements element 0 elements)
  | .view key _, .view none => add key.bytes 0
  | .view key variants, .view (some (index, payload)) =>
      match variants[index]? with
      | some variant => do add key.bytes (← size variant.layout payload)
      | none => add key.bytes 0
  | layout, _ => do return (← fixedWidth layout).getD 0

/-- The encoded length of the members of a struct, added to `total`. -/
def addMembers : (total : Nat) → List Field → List Draft → Run Nat
  | total, ⟨_, layout⟩ :: fields, member :: members => do
      addMembers (← add total (← size layout member)) fields members
  | total, _, _ => .ok total

/-- The encoded length of the elements of an array, added to `total`. -/
def addElements (element : Layout) : (total : Nat) → List Draft → Run Nat
  | total, [] => .ok total
  | total, draft :: rest => do addElements element (← add total (← size element draft)) rest

end

/-- How far the members of a struct are written. -/
structure Marks where
  /-- The spans of the members written so far. -/
  spans : List Span
  /-- The size fields that wait for the remaining members, by the indices of their fields. -/
  pending : List (Nat × Gap)

/-- Writes the size field at `index`, or leaves a gap for it if it measures a range of fields. -/
def writeSize (scope : Scope) (index : Nat) (marks : Marks) (name : String) (format : IntFormat)
    (expr : SizeExpr Nat) : CheckedWrite (List (Nat × Gap)) :=
  if expr.isMeasured then do
    let gap ← leaveGap format.bytes
    return marks.pending ++ [(index, gap)]
  else do
    let value ← evaluate scope marks.spans name format expr
    writeInt format (← lift (toWord format value))
    return marks.pending

/-- Fills in a size field once all members are written. -/
def fillSize (scope : Scope) (spans : List Span) (size : Nat × Gap) : CheckedWrite Unit := do
  let field ← lift (entry scope.fields size.1)
  match field.layout with
  | .derived format expr => do
      let value ← evaluate scope spans field.name format expr
      fillGap size.2 format (← lift (toWord format value))
  | _ => return ()

/-- Writes the number of elements in front of a bounded array. -/
def writeCount (length : ArrayLength IntFormat) (count : Nat) : CheckedWrite Unit :=
  match length with
  | .fixed _ => pure ()
  | .bounded _ counter => writeInt counter (UInt64.ofNat count)

mutual

/-- Writes the draft of the field `name`. -/
def write : Layout → (name : String) → Draft → CheckedWrite Unit
  | .int format, _, .scalar (some word) => writeInt format word
  | .enum enumeration, _, .scalar (some word) => writeInt enumeration.format word
  | .mask mask, _, .mask bytes => do writeBytes (← lift (maskBytes mask.width bytes))
  | .struct fields, _, .struct members => do
      let marks ← writeMembers ⟨fields, members⟩ 0 fields members ⟨[], []⟩
      marks.pending.forM (fillSize ⟨fields, members⟩ marks.spans)
  | .array element length, name, .array elements => do
      writeCount length elements.length
      writeElements element name elements
  | .view key variants, _, .view (some (index, payload)) => do
      let variant ← lift (entry variants index)
      writeInt key variant.key
      write variant.layout variant.name payload
  | .constant format value, _, .computed => writeInt format value
  | _, name, _ => fail (.notSet name)

/-- Writes the members of a struct, the first of which has the given index, up to the size fields
that are left pending. -/
def writeMembers (scope : Scope) :
    (index : Nat) → List Field → List Draft → Marks → CheckedWrite Marks
  | index, ⟨name, layout⟩ :: fields, member :: members, marks => do
      let start ← position
      let pending ← (match layout with
        | .derived format expr => writeSize scope index marks name format expr
        | layout => do
            write layout name member
            return marks.pending)
      let stop ← position
      writeMembers scope (index + 1) fields members ⟨marks.spans ++ [⟨start, stop⟩], pending⟩
  | _, _, _, marks => pure marks

/-- Writes the elements of the array `name`. -/
def writeElements (element : Layout) (name : String) : List Draft → CheckedWrite Unit
  | [] => pure ()
  | draft :: rest => do
      write element name draft
      writeElements element name rest

end

/-- Writes a draft to the front of a buffer. -/
def writeTo (layout : Layout) (draft : Draft) (buffer : Buffer) :
    Run (Except WriteError Nat × Buffer) := do
  let needed ← size layout draft
  if buffer.size < needed then return (.error (.writeFailed needed buffer.size), buffer)
  else
    match ← write layout "" draft (WriteBuffer.ofBuffer buffer) with
    | .ok _ done => return (.ok done.position, done.bytes)
    | .error cause done => return (.error cause, done.bytes)

/-- The bytes of a draft. -/
def toBuffer (layout : Layout) (draft : Draft) : Run (Except WriteError Buffer) := do
  let written ← writeTo layout draft (Array.replicate (← size layout draft) 0)
  return written.1.map fun length => written.2.take length

end Machine

end RecordLayout
