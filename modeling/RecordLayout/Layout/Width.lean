/-
**Fixed widths and known offsets.**

The width of a layout is fixed when it does not depend on the data: a struct's when every member's
is, an array's when the count and the element's width are fixed, a view's when all its variants
have payloads of one fixed width. A member that only fixed-width members precede has a known
offset, the sum of their widths.

* `fieldWidths_eq_map`, `variantWidths_eq_map`: the recursion lists the widths of the parts.
* `length_offsetsFrom`: there is one offset for each member.
-/

import RecordLayout.Layout

namespace RecordLayout

/-- The sum of fixed widths; one that is not fixed leaves none. -/
def totalWidth? (widths : List (Option Nat)) : Option Nat :=
  widths.foldr (fun width total => do return (← width) + (← total)) (some 0)

/-- The width that all of a list share, if they are all fixed. -/
def commonWidth? : List (Option Nat) → Option Nat
  | some width :: rest => if rest.all (· == some width) then some width else none
  | _ => none

/-- The bytes in front of an array's elements. -/
def ArrayLength.counterWidth : ArrayLength IntFormat → Nat
  | .fixed _ => 0
  | .bounded _ counter => counter.bytes

/-- The most elements an array can have. -/
def ArrayLength.capacity {φ : Type} : ArrayLength φ → UInt64
  | .fixed count => count
  | .bounded capacity _ => capacity

mutual

/-- The encoded length of every value of a layout, if it does not depend on the value. -/
def Layout.width? : Layout → Option Nat
  | .int format => some format.bytes
  | .enum enumeration => some enumeration.format.bytes
  | .mask mask => some mask.width
  | .struct fields => totalWidth? (fieldWidths fields)
  | .array element (.fixed count) => element.width?.map (· * count.toNat)
  | .array _ (.bounded _ _) => none
  | .view key variants => (commonWidth? (variantWidths variants)).map (key.bytes + ·)
  | .constant format _ => some format.bytes
  | .derived format _ => some format.bytes

/-- The fixed widths of a list of fields. -/
def fieldWidths : List Field → List (Option Nat)
  | [] => []
  | ⟨_, layout⟩ :: rest => layout.width? :: fieldWidths rest

/-- The fixed widths of the payloads of a list of variants. -/
def variantWidths : List Variant → List (Option Nat)
  | [] => []
  | ⟨_, _, layout⟩ :: rest => layout.width? :: variantWidths rest

end

theorem fieldWidths_eq_map (fields : List Field) :
    fieldWidths fields = fields.map (·.layout.width?) := by
  induction fields with
  | nil => rfl
  | cons field rest ih =>
      cases field
      rw [fieldWidths, ih, List.map_cons]

theorem variantWidths_eq_map (variants : List Variant) :
    variantWidths variants = variants.map (·.layout.width?) := by
  induction variants with
  | nil => rfl
  | cons variant rest ih =>
      cases variant
      rw [variantWidths, ih, List.map_cons]

/-- The width that the payloads of all variants share. -/
def payloadWidth? (variants : List Variant) : Option Nat := commonWidth? (variantWidths variants)

/-! ### Offsets -/

/-- The offset at which each of a run of values starts, when the first starts at `next`: known as
long as every width before it is. -/
def offsetsFrom : (next : Option Nat) → (widths : List (Option Nat)) → List (Option Nat)
  | _, [] => []
  | next, width :: rest => next :: offsetsFrom (do return (← next) + (← width)) rest

theorem length_offsetsFrom (next : Option Nat) (widths : List (Option Nat)) :
    (offsetsFrom next widths).length = widths.length := by
  induction widths generalizing next with
  | nil => rfl
  | cons width rest ih => rw [offsetsFrom, List.length_cons, ih, List.length_cons]

/-- The offset of each field of a struct from the start of the struct, where it is known. -/
def knownOffsets (fields : List Field) : List (Option Nat) :=
  offsetsFrom (some 0) (fieldWidths fields)

/-- The first of a run of fields, the first at `next`, that does not end at an address. -/
def beyondLimit? : (next : Nat) → List Field → Option String
  | _, [] => none
  | next, field :: rest =>
      match field.layout.width? with
      | some width =>
          if next + width < Address.limit then beyondLimit? (next + width) rest
          else some field.name
      | none => none

end RecordLayout
