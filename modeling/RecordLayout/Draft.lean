/-
**Drafts.**

A draft is a value under construction. It has the shape of its layout and holds what has been
stored so far: the words of integers and enumerations, the bytes of masks, the elements of
arrays, the selected variants of views. Constants and derived sizes have nothing to store; they are
filled in when the draft is written.

`Layout.blank` is the draft in which nothing is stored: its fixed arrays have all their elements
already, its bounded arrays none. `Draft.size` is the encoded length of a draft as it stands, where
a view without a selection counts as its key.
-/

import RecordLayout.Layout.Width

namespace RecordLayout

/-- A value under construction. -/
inductive Draft where
  /-- The word of an integer or enumeration, once it is stored. -/
  | scalar (word : Option UInt64)
  | mask (bytes : Bytes)
  | struct (members : List Draft)
  | array (elements : List Draft)
  /-- The index of the selected variant, with the draft of its payload. -/
  | view (selection : Option (Nat × Draft))
  /-- A constant or a derived size. -/
  | computed

mutual

/-- The draft in which nothing is stored. -/
def Layout.blank : Layout → Draft
  | .int _ => .scalar none
  | .enum _ => .scalar none
  | .mask mask => .mask mask.blank
  | .struct fields => .struct (blankMembers fields)
  | .array element (.fixed count) => .array (List.replicate count.toNat element.blank)
  | .array _ (.bounded _ _) => .array []
  | .view _ _ => .view none
  | .constant _ _ => .computed
  | .derived _ _ => .computed

/-- The blank drafts of a list of fields. -/
def blankMembers : List Field → List Draft
  | [] => []
  | ⟨_, layout⟩ :: rest => layout.blank :: blankMembers rest

end

namespace Draft

/-- Whether something is stored where a single word belongs. -/
def isSet : Draft → Bool
  | .scalar none => false
  | _ => true

/-- The number that a draft holds, as size expressions use it. -/
def number? : Layout → Draft → Option Int
  | .int format, .scalar (some word) => some (format.ofWord word)
  | .enum _, .scalar (some word) => some word.toNat
  | .constant _ value, .computed => some value.toNat
  | _, _ => none

/-- The number of elements of a draft. -/
def count : Draft → Nat
  | .array elements => elements.length
  | _ => 0

end Draft

mutual

/-- The encoded length of a draft as it stands. -/
def Draft.size : Layout → Draft → Nat
  | .mask mask, .mask _ => mask.width
  | .struct fields, .struct members => membersSize fields members
  | .array element length, .array elements =>
      length.counterWidth + elementsSize element elements
  | .view key _, .view none => key.bytes
  | .view key variants, .view (some (index, payload)) =>
      key.bytes +
        match variants[index]? with
        | some variant => payload.size variant.layout
        | none => 0
  | layout, _ => layout.width?.getD 0

/-- The encoded length of the members of a struct. -/
def membersSize : List Field → List Draft → Nat
  | ⟨_, layout⟩ :: fields, member :: members => member.size layout + membersSize fields members
  | _, _ => 0

/-- The encoded length of the elements of an array. -/
def elementsSize (element : Layout) : List Draft → Nat
  | [] => 0
  | draft :: rest => draft.size element + elementsSize element rest

end

end RecordLayout
