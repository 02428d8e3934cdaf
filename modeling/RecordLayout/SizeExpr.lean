/-
**Size expressions.**

The value of a derived field is a signed sum. A term adds or subtracts a constant, the value of a
sibling field, the number of elements of a sibling array, or the encoded length of a range of
siblings. Descriptions refer to siblings by name, layouts by index.

An expression that measures a range of bytes (`isMeasured`) has a value only when the range has
been laid out; every other expression can be evaluated from the draft alone.
-/

namespace RecordLayout

/-- A quantity that a size expression can use; `ρ` refers to a sibling field. -/
inductive Operand (ρ : Type) where
  | const (value : UInt64)
  /-- Value of an integer, enumeration or constant. -/
  | valueOf (field : ρ)
  /-- Number of elements of an array. -/
  | countOf (field : ρ)
  /-- Encoded length of the fields from `first` to `last`, both included. -/
  | sizeOf (first last : ρ)
  deriving DecidableEq, Repr

/-- A quantity with its sign. -/
structure Term (ρ : Type) where
  /-- Whether the quantity is subtracted. -/
  negate : Bool
  operand : Operand ρ
  deriving DecidableEq, Repr

/-- A signed sum. -/
abbrev SizeExpr (ρ : Type) := List (Term ρ)

/-- Whether the quantity is the length of a range of fields. -/
def Operand.isMeasure {ρ : Type} : Operand ρ → Bool
  | .sizeOf _ _ => true
  | _ => false

namespace SizeExpr

variable {ρ : Type}

/-- Whether the expression needs the encoded length of some fields. -/
def isMeasured (expr : SizeExpr ρ) : Bool := expr.any (·.operand.isMeasure)

/-- The sum of the terms, from left to right, with the quantities that `quantity` finds. -/
def evaluate {m : Type → Type} [Monad m] (quantity : Operand ρ → m Int) (expr : SizeExpr ρ) :
    m Int :=
  expr.foldlM (fun total term => do
    let value ← quantity term.operand
    return if term.negate then total - value else total + value) 0

end SizeExpr

end RecordLayout
