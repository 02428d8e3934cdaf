/-
**Descriptions that describe a record.**

`LayoutSpec.WellFormed` says what a description has to satisfy, level by level and without compiling
anything. The conditions are about the description alone: byte orders play no part, siblings are
known by their names, and sizes are unbounded numbers.

* `IntSpec.Supported`, `IntSpec.InRange`: the widths of integers, and the numbers that fit them.
* `MaskSpec.Implies`, `MaskSpec.Excludes`: the relations between the flags of a mask, by name.
* `LayoutSpec.width?`: the number of bytes of every value of a description, if it is always the same.
* `Operand.RefersIn`, `Operand.FixedTo`: what a size expression may refer to, and the quantities that
  the descriptions of the siblings fix.

A size expression is the signed sum of its quantities (`SizeExpr.evaluate_yields`), whatever way the
quantities are found.
-/

import Mathlib.Algebra.Ring.Int.Defs
import Mathlib.Data.List.Forall2
import Mathlib.Logic.Relation
import RecordLayout.Compile

namespace RecordLayout

/-! ### Integers and enumerations -/

namespace IntSpec

/-- The width is one that integers can have. -/
def Supported (spec : IntSpec) : Prop := spec.width ∈ ([1, 2, 3, 4, 8] : List UInt64)

/-- The number fits the described integer. -/
def InRange (spec : IntSpec) (value : Int) : Prop :=
  if spec.signed then
    -2 ^ (8 * spec.width.toNat - 1) ≤ value ∧ value < 2 ^ (8 * spec.width.toNat - 1)
  else 0 ≤ value ∧ value < 2 ^ (8 * spec.width.toNat)

end IntSpec

/-- The named values are distinct and fit the integer that stores them. -/
structure EnumSpec.WellFormed (spec : EnumSpec) : Prop where
  width : spec.format.Supported
  nonempty : spec.variants ≠ []
  named : ∀ variant ∈ spec.variants, variant.name ≠ ""
  names : (spec.variants.map (·.name)).Nodup
  values : (spec.variants.map (·.value)).Nodup
  fits : ∀ variant ∈ spec.variants, spec.format.InRange variant.value.toNat

/-! ### Masks -/

namespace MaskSpec

/-- A flag with the first name implies the one with the second name directly. -/
def Implies (spec : MaskSpec) (first second : String) : Prop :=
  ∃ flag ∈ spec.flags, flag.name = first ∧ second ∈ flag.implies

/-- A flag with the first name excludes the one with the second name directly. -/
def Excludes (spec : MaskSpec) (first second : String) : Prop :=
  ∃ flag ∈ spec.flags, flag.name = first ∧ second ∈ flag.excludes

/-- One flag leads to another, through any number of implications. -/
def LeadsTo (spec : MaskSpec) : String → String → Prop := Relation.ReflTransGen spec.Implies

/-- **The flags of a mask are told apart and do not contradict each other.** -/
structure WellFormed (spec : MaskSpec) : Prop where
  width : 1 ≤ spec.width ∧ spec.width ≤ 8
  named : ∀ flag ∈ spec.flags, flag.name ≠ ""
  names : (spec.flags.map (·.name)).Nodup
  bits : (spec.flags.map (·.bit)).Nodup
  inside : ∀ flag ∈ spec.flags, flag.bit.toNat < 8 * spec.width.toNat
  resolved : ∀ flag ∈ spec.flags, ∀ name ∈ flag.implies ++ flag.excludes,
    ∃ other ∈ spec.flags, other.name = name
  acyclic : ∀ name, ¬Relation.TransGen spec.Implies name name
  consistent : ∀ flag ∈ spec.flags, ∀ first second, spec.LeadsTo flag.name first →
    spec.LeadsTo flag.name second → ¬spec.Excludes first second

end MaskSpec

/-! ### Widths -/

mutual

/-- The number of bytes of every value of a description, if it does not depend on the value. -/
def LayoutSpec.width? : LayoutSpec → Option Nat
  | .int spec => some spec.width.toNat
  | .enum spec => some spec.format.width.toNat
  | .mask spec => some spec.width.toNat
  | .struct fields _ => totalWidth? (memberWidths fields)
  | .array element (.fixed count) => element.width?.map (· * count.toNat)
  | .array _ (.bounded _ _) => none
  | .view key variants => (commonWidth? (payloadWidths variants)).map (key.width.toNat + ·)
  | .constant format _ => some format.width.toNat
  | .derived format _ => some format.width.toNat

/-- The widths of a list of described fields. -/
def memberWidths : List FieldSpec → List (Option Nat)
  | [] => []
  | ⟨_, kind⟩ :: rest => kind.width? :: memberWidths rest

/-- The widths of the payloads of a list of described variants. -/
def payloadWidths : List VariantSpec → List (Option Nat)
  | [] => []
  | ⟨_, _, kind⟩ :: rest => kind.width? :: payloadWidths rest

end

theorem memberWidths_eq_map (fields : List FieldSpec) :
    memberWidths fields = fields.map (·.kind.width?) := by
  induction fields with
  | nil => rfl
  | cons field rest ih =>
      cases field
      rw [memberWidths, ih, List.map_cons]

theorem payloadWidths_eq_map (variants : List VariantSpec) :
    payloadWidths variants = variants.map (·.kind.width?) := by
  induction variants with
  | nil => rfl
  | cons variant rest ih =>
      cases variant
      rw [payloadWidths, ih, List.map_cons]

/-! ### Size expressions -/

/-- A quantity with the sign of its term. -/
def Term.signed {ρ : Type} (term : Term ρ) (quantity : Int) : Int :=
  if term.negate then -quantity else quantity

/-- The signed sum of an expression, given a quantity for each term. -/
def SizeExpr.total {ρ : Type} (expr : SizeExpr ρ) (quantities : List Int) : Int :=
  (List.zipWith Term.signed expr quantities).sum

/-- **An expression is the signed sum of its quantities.** The way in which quantities are found may
fail; `yields` says that it does not, and what it finds. -/
theorem SizeExpr.evaluate_yields {ρ : Type} {m : Type → Type} [Monad m]
    (yields : m Int → Int → Prop)
    (yields_pure : ∀ value result, yields (pure value) result ↔ value = result)
    (yields_bind : ∀ outcome (next : Int → m Int) result,
      yields (outcome >>= next) result ↔
        ∃ value, yields outcome value ∧ yields (next value) result)
    {quantity : Operand ρ → m Int} {expr : SizeExpr ρ} {value : Int} :
    yields (expr.evaluate quantity) value ↔
      ∃ quantities, List.Forall₂ (fun term found => yields (quantity term.operand) found) expr
        quantities ∧ expr.total quantities = value := by
  -- the sum so far stays quantified
  have from_sum (terms : SizeExpr ρ) (start : Int) :
      yields (terms.foldlM (fun total term => do
        let value ← quantity term.operand
        return if term.negate then total - value else total + value) start) value ↔
      ∃ quantities, List.Forall₂ (fun term found => yields (quantity term.operand) found) terms
        quantities ∧ start + SizeExpr.total terms quantities = value := by
    induction terms generalizing start with
    | nil =>
        rw [List.foldlM_nil, yields_pure]
        simp [SizeExpr.total]
    | cons term rest ih =>
        have sum (found : Int) (others : List Int) :
            start + SizeExpr.total (term :: rest) (found :: others) =
              (if term.negate then start - found else start + found) +
                SizeExpr.total rest others := by
          simp only [SizeExpr.total, List.zipWith_cons_cons, List.sum_cons, Term.signed]
          split <;> omega
        rw [List.foldlM_cons, yields_bind]
        simp only [yields_bind, yields_pure, ih]
        constructor
        · rintro ⟨_, ⟨found, here, rfl⟩, others, each, same⟩
          exact ⟨found :: others, .cons here each, by rw [sum, same]⟩
        · rintro ⟨_, _ | ⟨here, each⟩, same⟩
          rw [sum] at same
          exact ⟨_, ⟨_, here, rfl⟩, _, each, same⟩
  rw [SizeExpr.evaluate, from_sum]
  simp only [Int.zero_add]

/-- The siblings from the one named `first` to the one named `last`, both included. -/
structure FieldSpec.Range (siblings : List FieldSpec) (first last : String)
    (range : List FieldSpec) : Prop where
  inside : range <:+: siblings
  starts : range.head?.map (·.name) = some first
  stops : range.getLast?.map (·.name) = some last

namespace Operand

/-- The operand refers to siblings that have the quantity it asks for. -/
def RefersIn (siblings : List FieldSpec) : Operand String → Prop
  | .const _ => True
  | .valueOf name => ∃ field ∈ siblings, field.name = name ∧ field.kind.hasValue
  | .countOf name => ∃ field ∈ siblings, field.name = name ∧ field.kind.isArray
  | .sizeOf first last => ∃ range, FieldSpec.Range siblings first last range

/-- **The descriptions of the siblings fix the quantity**: a constant, the value of a constant
sibling, the length of a fixed array, the size of a range of siblings of fixed width. -/
def FixedTo (siblings : List FieldSpec) : Operand String → Int → Prop
  | .const value, quantity => quantity = value.toNat
  | .valueOf name, quantity => ∃ field ∈ siblings, field.name = name ∧
      ∃ format value, field.kind = .constant format value ∧ quantity = value.toNat
  | .countOf name, quantity => ∃ field ∈ siblings, field.name = name ∧
      ∃ element count, field.kind = .array element (.fixed count) ∧ quantity = count.toNat
  | .sizeOf first last, quantity => ∃ range, FieldSpec.Range siblings first last range ∧
      ∃ width, totalWidth? (range.map (·.kind.width?)) = some width ∧ quantity = width

end Operand

/-- The descriptions of the siblings fix the value of the expression. -/
def SizeExpr.FixedTo (siblings : List FieldSpec) (expr : SizeExpr String) (value : Int) : Prop :=
  ∃ quantities, List.Forall₂ (fun term quantity => term.operand.FixedTo siblings quantity) expr
    quantities ∧ expr.total quantities = value

/-- A size field refers to its siblings, and a value that they fix fits it. -/
structure SizeExpr.WellFormed (siblings : List FieldSpec) (format : IntSpec)
    (expr : SizeExpr String) : Prop where
  width : format.Supported
  references : ∀ term ∈ expr, term.operand.RefersIn siblings
  fits : ∀ value, expr.FixedTo siblings value → format.InRange value

/-! ### Whole descriptions -/

/-- An array has room for an element, and every count fits the integer that stores it. -/
def ArrayLength.WellFormed : ArrayLength IntSpec → Prop
  | .fixed count => count ≠ 0
  | .bounded capacity counter =>
      capacity ≠ 0 ∧ counter.Supported ∧ counter.InRange capacity.toNat

/-- **The description describes a layout**, at every level. A size is described only as a member of
a struct, so it has no rule of its own. -/
inductive LayoutSpec.WellFormed : LayoutSpec → Prop where
  | int {spec : IntSpec} (width : spec.Supported) : WellFormed (.int spec)
  | enum {spec : EnumSpec} (variants : spec.WellFormed) : WellFormed (.enum spec)
  | mask {spec : MaskSpec} (flags : spec.WellFormed) : WellFormed (.mask spec)
  | struct {fields : List FieldSpec} {order : Option ByteOrder}
      (named : ∀ field ∈ fields, field.name ≠ "") (names : (fields.map (·.name)).Nodup)
      (members : ∀ field ∈ fields, (∀ format expr, field.kind ≠ .derived format expr) →
        WellFormed field.kind)
      (sizes : ∀ field ∈ fields, ∀ format expr, field.kind = .derived format expr →
        SizeExpr.WellFormed fields format expr)
      (room : ∀ front, front <+: fields → ∀ width,
        totalWidth? (front.map (·.kind.width?)) = some width → width < Address.limit) :
      WellFormed (.struct fields order)
  | array {element : LayoutSpec} {length : ArrayLength IntSpec} (counts : length.WellFormed)
      (elements : WellFormed element)
      (room : ∀ width, (LayoutSpec.array element length).width? = some width →
        width < Address.limit) :
      WellFormed (.array element length)
  | view {key : IntSpec} {variants : List VariantSpec} (nonempty : variants ≠ [])
      (width : key.Supported) (named : ∀ variant ∈ variants, variant.name ≠ "")
      (names : (variants.map (·.name)).Nodup) (keys : (variants.map (·.key)).Nodup)
      (fits : ∀ variant ∈ variants, key.InRange variant.key.toNat)
      (payloads : ∀ variant ∈ variants, WellFormed variant.kind)
      (room : ∀ width, (LayoutSpec.view key variants).width? = some width →
        width < Address.limit) :
      WellFormed (.view key variants)
  | constant {format : IntSpec} {value : UInt64} (width : format.Supported)
      (fits : format.InRange value.toNat) : WellFormed (.constant format value)

end RecordLayout
