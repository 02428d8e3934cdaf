/-
**Jumps and walks find the same place.**

The position of a member of a struct is found by a known offset where there is one, and by a walk
from the last known offset otherwise. A walk over values of fixed width is a jump by their total
width: both end at an address or both fail, with the same error (`walkFields_of_totalWidth?`). So a
member is always found where a walk over all the members before it would end
(`locateField_eq_walkFields`), and the elements of an array where a walk over the elements before
them would end (`walkTimes_of_width?`).
-/

import RecordLayout.Proofs.Outcome
import RecordLayout.Extent

namespace RecordLayout

namespace Address

variable {data : Buffer} {position : Nat}

theorem advance_zero (inside : position < limit) : advance data position 0 = .ok position :=
  if_pos inside

theorem advance_lt {length next : Nat} (found : advance data position length = .ok next) :
    next < limit := by
  obtain ⟨rfl, inside⟩ := advance_eq_ok_iff.mp found
  exact inside

/-- Two jumps in a row are one jump. A jump that leaves the addresses fails whatever comes next. -/
theorem advance_advance (first second : Nat) :
    (do advance data (← advance data position first) second) =
      advance data position (first + second) := by
  unfold advance
  by_cases inside : position + first < limit
  · rw [if_pos inside]
    show (if position + first + second < limit then _ else _) = _
    rw [Nat.add_assoc]
  · rw [if_neg inside, if_neg (by omega)]
    rfl

end Address

/-! ### Fixed widths -/

/-- **A fixed width is the extent** of every value of the layout. -/
theorem Layout.extent_of_width? {layout : Layout} {width : Nat} (fixed : layout.width? = some width)
    (data : Buffer) (offset : Nat) : layout.extent data offset = .ok width := by
  cases layout with
  | int _ | enum _ | mask _ | constant _ _ | derived _ _ =>
      cases fixed
      rfl
  | struct _ | array _ _ | view _ _ =>
      rw [Layout.extent]
      simp only [fixed]

theorem totalWidth?_cons (width : Option Nat) (widths : List (Option Nat)) :
    totalWidth? (width :: widths) = do return (← width) + (← totalWidth? widths) := rfl

theorem totalWidth?_cons_eq_some {width : Option Nat} {widths : List (Option Nat)} {total : Nat} :
    totalWidth? (width :: widths) = some total ↔
      ∃ first, width = some first ∧
        ∃ rest, totalWidth? widths = some rest ∧ first + rest = total := by
  simp [totalWidth?_cons, Option.bind_eq_some_iff]

theorem commonWidth?_eq_some {widths : List (Option Nat)} {width : Nat}
    (common : commonWidth? widths = some width) : ∀ other ∈ widths, other = some width := by
  unfold commonWidth? at common
  split at common
  · rename_i first rest
    split_ifs at common with same
    cases common
    rw [List.forall_mem_cons]
    exact ⟨rfl, fun other member => by simpa using List.all_eq_true.mp same other member⟩
  · cases common

theorem walkFields_cons (data : Buffer) (field : Field) (fields : List Field) (position : Nat) :
    walkFields data (field :: fields) position =
      (do walkFields data fields (← field.layout.behind data position)) := by
  obtain ⟨name, layout⟩ := field
  rw [walkFields, Layout.behind, bind_assoc]

theorem walkFields_append (data : Buffer) (first second : List Field) (position : Nat) :
    walkFields data (first ++ second) position =
      (do walkFields data second (← walkFields data first position)) := by
  induction first generalizing position with
  | nil => rfl
  | cons field first ih =>
      rw [List.cons_append, walkFields_cons, walkFields_cons, bind_assoc]
      simp only [ih]

/-- **A walk over members of fixed width is a jump.** -/
theorem walkFields_of_totalWidth? {data : Buffer} {fields : List Field} {total position : Nat}
    (fixed : totalWidth? (fieldWidths fields) = some total) (inside : position < Address.limit) :
    walkFields data fields position = Address.advance data position total := by
  induction fields generalizing total position with
  | nil =>
      cases fixed
      exact (Address.advance_zero inside).symm
  | cons field fields ih =>
      rw [fieldWidths_eq_map, List.map_cons, ← fieldWidths_eq_map] at fixed
      obtain ⟨width, known, rest, others, rfl⟩ := totalWidth?_cons_eq_some.mp fixed
      rw [walkFields_cons, Layout.behind, Layout.extent_of_width? known, ← Address.advance_advance]
      show (do walkFields data fields (← Address.advance data position width)) = _
      cases found : Address.advance data position width with
      | error cause => rfl
      | ok next => exact ih others (Address.advance_lt found)

/-- A walk over elements of fixed width is a jump. -/
theorem walkTimes_of_width? {data : Buffer} {element : Layout} {width position : Nat}
    (fixed : element.width? = some width) (times : Nat) (inside : position < Address.limit) :
    walkTimes (element.behind data) times position =
      Address.advance data position (times * width) := by
  induction times generalizing position with
  | zero =>
      rw [Nat.zero_mul, Address.advance_zero inside]
      rfl
  | succ times ih =>
      rw [walkTimes, Layout.behind, Layout.extent_of_width? fixed, Nat.succ_mul, Nat.add_comm,
        ← Address.advance_advance]
      show (do walkTimes (element.behind data) times (← Address.advance data position width)) = _
      cases found : Address.advance data position width with
      | error cause => rfl
      | ok next => exact ih (Address.advance_lt found)

/-! ### Known offsets -/

theorem getElem?_offsetsFrom {widths : List (Option Nat)} {index : Nat} (next : Option Nat)
    (inside : index < widths.length) :
    (offsetsFrom next widths)[index]? =
      some (do return (← next) + (← totalWidth? (widths.take index))) := by
  induction widths generalizing next index with
  | nil => cases inside
  | cons width widths ih =>
      cases index with
      | zero => cases next <;> rfl
      | succ index =>
          rw [offsetsFrom, List.getElem?_cons_succ, ih _ (Nat.lt_of_succ_lt_succ inside),
            List.take_succ_cons, totalWidth?_cons]
          cases next <;> cases width <;> cases totalWidth? (widths.take index) <;>
            simp [Nat.add_assoc]

/-- **A known offset** is the total width of the members before. -/
theorem getElem?_knownOffsets {fields : List Field} {index : Nat} (inside : index < fields.length) :
    (knownOffsets fields)[index]? = some (totalWidth? (fieldWidths (fields.take index))) := by
  rw [knownOffsets, fieldWidths_eq_map, fieldWidths_eq_map, List.map_take,
    getElem?_offsetsFrom _ (by rwa [List.length_map])]
  cases totalWidth? ((fields.map (·.layout.width?)).take index) <;> simp

/-- The last known offset is that of a member, or of the struct itself. -/
theorem lastKnown_spec {fields : List Field} {index start offset : Nat}
    (inside : index ≤ fields.length)
    (last : lastKnown (knownOffsets fields) index = (start, offset)) :
    start ≤ index ∧ totalWidth? (fieldWidths (fields.take start)) = some offset := by
  unfold lastKnown at last
  rcases Option.getD_eq_iff.mp last with found | ⟨-, unknown⟩
  · obtain ⟨⟨candidate, position⟩, member, matched⟩ := List.exists_of_findSome?_eq_some found
    obtain ⟨_, rfl, same⟩ := Option.map_eq_some_iff.mp matched
    cases same
    have there := List.mk_mem_zipIdx_iff_getElem?.mp (List.mem_reverse.mp member)
    have before : start < index := by
      have bounded := (List.getElem?_eq_some_iff.mp there).1
      rw [List.length_take] at bounded
      omega
    rw [List.getElem?_take_of_lt before, getElem?_knownOffsets (by omega)] at there
    exact ⟨Nat.le_of_lt before, Option.some.inj there⟩
  · cases unknown
    exact ⟨Nat.zero_le _, rfl⟩

/-- **A member is found where a walk over the members before it ends.** -/
theorem locateField_eq_walkFields {data : Buffer} {fields : List Field} {index base : Nat}
    (inside : index < fields.length) (address : base < Address.limit) :
    locateField data fields index base = walkFields data (fields.take index) base := by
  unfold locateField
  rw [getElem?_knownOffsets inside]
  cases known : totalWidth? (fieldWidths (fields.take index)) with
  | some offset => exact (walkFields_of_totalWidth? known address).symm
  | none =>
      cases last : lastKnown (knownOffsets fields) index with
      | mk start offset =>
          obtain ⟨before, known⟩ := lastKnown_spec (Nat.le_of_lt inside) last
          have parts : fields.take start ++ (fields.take index).drop start = fields.take index := by
            rw [← Nat.min_eq_left before, ← List.take_take, Nat.min_eq_left before,
              List.take_append_drop]
          rw [← parts, walkFields_append, walkFields_of_totalWidth? known address, parts]

/-! ### Where a walk ends -/

theorem Layout.behind_bounds {data : Buffer} {layout : Layout} {position next : Nat}
    (found : layout.behind data position = .ok next) : position ≤ next ∧ next < Address.limit := by
  obtain ⟨length, -, advanced⟩ := bind_eq_ok_iff.mp found
  obtain ⟨rfl, inside⟩ := Address.advance_eq_ok_iff.mp advanced
  exact ⟨Nat.le_add_right _ _, inside⟩

theorem walkFields_bounds {data : Buffer} {fields : List Field} {position stop : Nat}
    (inside : position < Address.limit) (found : walkFields data fields position = .ok stop) :
    position ≤ stop ∧ stop < Address.limit := by
  induction fields generalizing position with
  | nil =>
      cases found
      exact ⟨Nat.le_refl _, inside⟩
  | cons field fields ih =>
      rw [walkFields_cons] at found
      obtain ⟨next, behind, rest⟩ := bind_eq_ok_iff.mp found
      obtain ⟨before, address⟩ := Layout.behind_bounds behind
      obtain ⟨after, stops⟩ := ih address rest
      exact ⟨Nat.le_trans before after, stops⟩

theorem walkTimes_bounds {data : Buffer} {element : Layout} {times position stop : Nat}
    (inside : position < Address.limit)
    (found : walkTimes (element.behind data) times position = .ok stop) :
    position ≤ stop ∧ stop < Address.limit := by
  induction times generalizing position with
  | zero =>
      cases found
      exact ⟨Nat.le_refl _, inside⟩
  | succ times ih =>
      obtain ⟨next, behind, rest⟩ := bind_eq_ok_iff.mp found
      obtain ⟨before, address⟩ := Layout.behind_bounds behind
      obtain ⟨after, stops⟩ := ih address rest
      exact ⟨Nat.le_trans before after, stops⟩

theorem ArrayLength.start_bounds {data : Buffer} {length : ArrayLength IntFormat}
    {offset start : Nat} (inside : offset < Address.limit)
    (found : length.start data offset = .ok start) : offset ≤ start ∧ start < Address.limit := by
  cases length with
  | fixed count =>
      cases found
      exact ⟨Nat.le_refl _, inside⟩
  | bounded capacity counter =>
      obtain ⟨rfl, address⟩ := Address.advance_eq_ok_iff.mp found
      exact ⟨Nat.le_add_right _ _, address⟩

/-- A jump to where a walk ended. -/
theorem Address.advance_sub {data : Buffer} {position stop : Nat} (before : position ≤ stop)
    (inside : stop < limit) : advance data position (stop - position) = .ok stop := by
  rw [advance_eq_ok_iff]
  omega

namespace Layout

variable {data : Buffer} {offset : Nat}

/-- **A struct ends where the walk over its members ends.** -/
theorem behind_struct (fields : List Field) (inside : offset < Address.limit) :
    (Layout.struct fields).behind data offset = walkFields data fields offset := by
  cases fixed : (Layout.struct fields).width? with
  | some width =>
      rw [Layout.behind, extent_of_width? fixed, walkFields_of_totalWidth? fixed inside]
      rfl
  | none =>
      rw [Layout.behind, Layout.extent]
      simp only [fixed]
      cases found : walkFields data fields offset with
      | error cause => rfl
      | ok stop =>
          obtain ⟨before, address⟩ := walkFields_bounds inside found
          exact Address.advance_sub before address

/-- **An array ends where the walk over its elements ends.** -/
theorem behind_array (element : Layout) (length : ArrayLength IntFormat)
    (inside : offset < Address.limit) :
    (Layout.array element length).behind data offset = (do
      let count ← length.count data offset
      let start ← length.start data offset
      walkTimes (element.behind data) count start) := by
  cases fixed : (Layout.array element length).width? with
  | some width =>
      cases length with
      | bounded _ _ => cases fixed
      | fixed count =>
          obtain ⟨single, known, rfl⟩ := Option.map_eq_some_iff.mp fixed
          rw [Layout.behind, extent_of_width? fixed, Nat.mul_comm]
          exact (walkTimes_of_width? known count.toNat inside).symm
  | none =>
      rw [Layout.behind, Layout.extent]
      simp only [fixed]
      cases length.count data offset with
      | error cause => rfl
      | ok count =>
          cases begins : length.start data offset with
          | error cause => rfl
          | ok start =>
              obtain ⟨first, address⟩ := ArrayLength.start_bounds inside begins
              show ((do return (← walkTimes (element.behind data) count start) - offset) >>=
                Address.advance data offset) = walkTimes (element.behind data) count start
              cases found : walkTimes (element.behind data) count start with
              | error cause => rfl
              | ok stop =>
                  obtain ⟨before, stops⟩ := walkTimes_bounds address found
                  exact Address.advance_sub (Nat.le_trans first before) stops

theorem payloadExtent_eq (key : IntFormat) (stored : UInt64) (variants : List Variant) :
    payloadExtent data key stored offset variants =
      match variants.find? (·.key == stored) with
      | none => .error (.unknownVariant stored)
      | some variant =>
          (do variant.layout.extent data (← Address.advance data offset key.bytes)) := by
  induction variants with
  | nil => rfl
  | cons variant rest ih =>
      obtain ⟨name, value, layout⟩ := variant
      rw [payloadExtent, List.find?_cons]
      by_cases same : value = stored
      · rw [if_pos same, show (value == stored) = true from beq_iff_eq.mpr same]
      · rw [if_neg same, show (value == stored) = false from beq_eq_false_iff_ne.mpr same, ih]

/-- **A view ends where its payload ends.** -/
theorem behind_view {key : IntFormat} {variants : List Variant} {stored : UInt64}
    {variant : Variant} {start : Nat} (read : key.read data offset = .ok stored)
    (selected : variants.find? (·.key == stored) = some variant)
    (begins : Address.advance data offset key.bytes = .ok start) :
    (Layout.view key variants).behind data offset = variant.layout.behind data start := by
  have jump (length : Nat) :
      Address.advance data offset (key.bytes + length) = Address.advance data start length := by
    rw [← Address.advance_advance, begins]
    rfl
  cases fixed : (Layout.view key variants).width? with
  | some width =>
      obtain ⟨common, known, rfl⟩ := Option.map_eq_some_iff.mp fixed
      rw [variantWidths_eq_map] at known
      have payload : variant.layout.width? = some common := commonWidth?_eq_some known _
        (List.mem_map_of_mem (List.mem_of_find?_eq_some selected))
      rw [Layout.behind, extent_of_width? fixed, Layout.behind, extent_of_width? payload]
      exact jump common
  | none =>
      have payload : payloadExtent data key stored offset variants =
          variant.layout.extent data start := by
        rw [payloadExtent_eq, selected, begins]
        rfl
      have inner (length : Nat) : Address.advance data key.bytes length >>=
          Address.advance data offset = Address.advance data start length := by
        rw [← jump]
        unfold Address.advance
        by_cases inside : key.bytes + length < Address.limit
        · rw [if_pos inside]
          rfl
        · rw [if_neg inside, if_neg (by omega)]
          rfl
      rw [Layout.behind, Layout.extent]
      simp only [fixed, read]
      show (payloadExtent data key stored offset variants >>=
        Address.advance data key.bytes) >>= Address.advance data offset = _
      rw [payload, bind_assoc, Layout.behind]
      exact congrArg _ (funext inner)

end Layout

end RecordLayout
