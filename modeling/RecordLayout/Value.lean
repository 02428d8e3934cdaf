/-
**Decoded values.**

A record that has been decoded in full is a tree of values. The members of a struct and the flags
of a mask stand in the order of declaration.
-/

namespace RecordLayout

/-- A decoded value. -/
inductive Value where
  | signed (value : Int)
  | unsigned (value : UInt64)
  /-- The name of the stored value of an enumeration. -/
  | enum (variant : String)
  /-- Every declared flag with its bit. -/
  | mask (flags : List (String × Bool))
  | struct (members : List (String × Value))
  | array (elements : List Value)
  /-- The stored key of a view, the variant it selects, and the payload. -/
  | view (key : UInt64) (variant : String) (payload : Value)

/-- A number as a 64-bit word, if it is one. -/
def unsigned? (value : Int) : Option UInt64 :=
  if 0 ≤ value ∧ value < UInt64.size then some (UInt64.ofNat value.toNat) else none

/-- A number, if it is in the range of a signed 64-bit word. -/
def signed? (value : Int) : Option Int :=
  if Int64.minValue.toInt ≤ value ∧ value ≤ Int64.maxValue.toInt then some value else none

namespace Value

/-- The member of a struct with a name. -/
def get? (value : Value) (name : String) : Option Value :=
  match value with
  | .struct members => members.lookup name
  | _ => none

/-- A number, if it is not negative. -/
def asUnsigned? : Value → Option UInt64
  | .unsigned value => some value
  | .signed value => unsigned? value
  | _ => none

/-- A number, if it is in the range of a signed 64-bit word. -/
def asSigned? : Value → Option Int
  | .signed value => some value
  | .unsigned value => signed? value.toNat
  | _ => none

end Value

end RecordLayout
