/-
**An element is the same by its index and in its turn.**

The elements of an array are found in two ways. `Reader.elements` keeps a position and moves it past
one element after another. `Reader.element` starts over for every index, and jumps where the elements
have a fixed width, by a product that is capped at the last address.

* `Elements.walk_of_take`: an element that comes in its turn stands where a walk over the elements
  before it ends.
* `Elements.take_count`: all elements come, or some of them and then one error, and nothing behind.
* `Reader.element_saturated`: a capped product leaves the addresses, so it leads nowhere.
* `Schema.elements_agree_element`: all of it, for every array of a compiled record.
-/

import RecordLayout.Proofs.LazyReading
import RecordLayout.Proofs.StaticLayout

namespace RecordLayout

namespace Reader

/-! ### Elements in their turn -/

namespace Elements

variable {data : Buffer} {name : String} {layout : Layout} {position next : Nat} {cause : ReadError}

theorem take_of_none (limit : Nat) : take limit ⟨data, name, layout, 0, position⟩ = [] := by
  cases limit <;> rfl

/-- One element, and those behind it. -/
theorem take_of_behind (behind : layout.behind data position = .ok next) (limit remaining : Nat) :
    take (limit + 1) ⟨data, name, layout, remaining + 1, position⟩ =
      .ok ⟨data, name, layout, position⟩ :: take limit ⟨data, name, layout, remaining, next⟩ := by
  simp only [take, next?, behind]

/-- An element whose end is not found is the last one. -/
theorem take_of_error (behind : layout.behind data position = .error cause)
    (limit remaining : Nat) :
    take (limit + 1) ⟨data, name, layout, remaining + 1, position⟩ = [.error cause] := by
  simp only [take, next?, behind, take_of_none]

/-- **An element in its turn** stands where a walk over the elements before it ends. -/
theorem walk_of_take {limit remaining index : Nat} {item : Reader}
    (there : (take limit ⟨data, name, layout, remaining, position⟩)[index]? = some (.ok item)) :
    index < remaining ∧ ∃ place, walkTimes (layout.behind data) index position = .ok place ∧
      item = ⟨data, name, layout, place⟩ := by
  induction limit generalizing remaining position index with
  | zero => cases there
  | succ limit ih =>
      cases remaining with
      | zero =>
          rw [take_of_none] at there
          cases there
      | succ remaining =>
          cases behind : layout.behind data position with
          | error cause =>
              rw [take_of_error behind] at there
              cases index <;> cases there
          | ok next =>
              rw [take_of_behind behind] at there
              cases index with
              | zero =>
                  cases there
                  exact ⟨Nat.succ_pos _, position, rfl, rfl⟩
              | succ index =>
                  rw [List.getElem?_cons_succ] at there
                  obtain ⟨inside, place, walked, same⟩ := ih there
                  refine ⟨Nat.succ_lt_succ inside, place, ?_, same⟩
                  rw [walkTimes, behind, ok_bind, walked]

/-- Some elements come, and one error behind them unless these were all. -/
def Ends (count : Nat) (items : List (Except ReadError Reader)) : Prop :=
  (∃ readers : List Reader, items = readers.map .ok ∧ readers.length = count) ∨
    ∃ (readers : List Reader) (cause : ReadError),
      items = readers.map .ok ++ [.error cause] ∧ readers.length < count

theorem Ends.cons {count : Nat} {items : List (Except ReadError Reader)} (ends : Ends count items)
    (reader : Reader) : Ends (count + 1) (.ok reader :: items) := by
  obtain ⟨readers, rfl, counted⟩ | ⟨readers, cause, rfl, fewer⟩ := ends
  · exact .inl ⟨reader :: readers, rfl, congrArg (· + 1) counted⟩
  · exact .inr ⟨reader :: readers, cause, rfl, Nat.succ_lt_succ fewer⟩

/-- **All elements come, or some of them and then one error, and nothing behind**, however often the
next one is asked for. -/
theorem take_count (remaining : Nat) :
    Ends remaining (take remaining ⟨data, name, layout, remaining, position⟩) ∧
      ∀ limit, take limit ⟨data, name, layout, remaining, position⟩ =
        (take remaining ⟨data, name, layout, remaining, position⟩).take limit := by
  induction remaining generalizing position with
  | zero =>
      refine ⟨Or.inl ⟨[], rfl, rfl⟩, fun limit => ?_⟩
      rw [take_of_none, take_of_none, List.take_nil]
  | succ remaining ih =>
      cases behind : layout.behind data position with
      | error cause =>
          rw [take_of_error behind]
          refine ⟨Or.inr ⟨[], cause, rfl, Nat.succ_pos _⟩, fun limit => ?_⟩
          cases limit with
          | zero => rfl
          | succ limit => rw [take_of_error behind, List.take_succ_cons, List.take_nil]
      | ok next =>
          rw [take_of_behind behind]
          obtain ⟨ends, more⟩ := @ih next
          refine ⟨ends.cons _, fun limit => ?_⟩
          cases limit with
          | zero => rfl
          | succ limit => rw [take_of_behind behind, more, List.take_succ_cons]

end Elements

/-! ### Elements by their index -/

section Index

variable {reader : Reader} {element : Layout} {length : ArrayLength IntFormat} {count start : Nat}

theorem count_eq (array : reader.layout = .array element length) :
    reader.count = length.count reader.data reader.offset := by
  rw [Reader.count, asArray, array]
  rfl

theorem elements_eq_ok (array : reader.layout = .array element length)
    (counted : length.count reader.data reader.offset = .ok count)
    (begins : length.start reader.data reader.offset = .ok start) :
    reader.elements = .ok ⟨reader.data, reader.name, element, count, start⟩ := by
  rw [Reader.elements, asArray, array]
  show (length.count reader.data reader.offset >>= fun count => _) = _
  rw [counted, ok_bind, begins]
  rfl

/-- A count that can be read has its elements behind it. -/
theorem start_eq_ok (small : reader.data.size < 2 ^ 63)
    (counted : length.count reader.data reader.offset = .ok count) :
    length.start reader.data reader.offset = .ok (reader.offset + length.counterWidth) := by
  cases length with
  | fixed count => rfl
  | bounded capacity counter =>
      obtain ⟨word, read, -⟩ := bind_eq_ok_iff.mp counted
      have ends := IntFormat.read_bounds read
      have limit : Address.limit = 2 ^ 64 := rfl
      exact Address.advance_eq_ok_iff.mpr ⟨rfl, by omega⟩

/-- An element of fixed width is found by one jump. -/
theorem element_of_width? {width index : Nat} (array : reader.layout = .array element length)
    (counted : length.count reader.data reader.offset = .ok count)
    (begins : length.start reader.data reader.offset = .ok start)
    (fixed : element.width? = some width) (inside : index < count) :
    reader.element index = (do
      let offset ← Address.advance reader.data start (skip index width)
      return ⟨reader.data, reader.name, element, offset⟩) := by
  unfold Reader.element asArray
  rw [array]
  show (length.count reader.data reader.offset >>= fun count => _) = _
  rw [counted]
  show (if count ≤ index then _ else _) = _
  rw [if_neg (by omega), begins]
  simp only [fixed]
  rfl

/-- **A capped product leads nowhere.** Behind a counter the last address is out of reach, and in
front of the elements of a fixed array, which end at an address, no product is capped. -/
theorem element_saturated {width index : Nat} (array : reader.layout = .array element length)
    (fits : reader.layout.Fits) (counted : length.count reader.data reader.offset = .ok count)
    (begins : length.start reader.data reader.offset = .ok (reader.offset + length.counterWidth))
    (fixed : element.width? = some width) (beyond : Address.limit ≤ index * width) :
    ∃ cause, reader.element index = .error cause := by
  by_cases inside : count ≤ index
  · exact ⟨_, element_beyond array counted inside⟩
  · have within : index < count := by omega
    rw [element_of_width? array counted begins fixed within, skip, if_neg (by omega)]
    cases length with
    | fixed bound =>
        cases counted
        rw [array] at fits
        have total : width * bound.toNat < Address.limit :=
          fits _ (Option.map_eq_some_iff.mpr ⟨width, fixed, rfl⟩)
        have before := Nat.mul_le_mul_right width within.le
        rw [Nat.mul_comm bound.toNat] at before
        omega
    | bounded capacity counter =>
        have positive : 0 < counter.bytes := counter.width.bytes_pos
        have last : Address.last = Address.limit - 1 := rfl
        refine ⟨.notEnoughData Address.last reader.data.size, ?_⟩
        rw [ArrayLength.counterWidth, Address.advance, if_neg (by omega)]
        rfl

end Index

end Reader

/-- **Elements by their index and in their turn.** The elements of every array of a compiled record
come one after another until all have come or one error has; every one that comes is the element with
its index; beyond the count there is none; and elements of fixed width stand where their index says,
or are not found at all. -/
theorem Schema.elements_agree_element {specs : List FieldSpec} {order : ByteOrder} {schema : Schema}
    (compiled : Schema.compile specs order = .ok schema) {reader : Reader} {element : Layout}
    {length : ArrayLength IntFormat} (array : reader.layout = .array element length)
    (inside : schema.root.Contains reader.layout) (small : reader.data.size < 2 ^ 63)
    (address : reader.offset < Address.limit) {count : Nat} (counted : reader.count = .ok count) :
    (∃ elements, reader.elements = .ok elements ∧
        Reader.Elements.Ends count (elements.take count) ∧
        (∀ limit, elements.take limit = (elements.take count).take limit) ∧
        ∀ index item, (elements.take count)[index]? = some (.ok item) →
          reader.element index = .ok item) ∧
      (∀ index, count ≤ index →
        reader.element index = .error (.indexOutOfRange index count)) ∧
      ∀ width, element.width? = some width → ∀ index,
        (∀ item, reader.element index = .ok item →
          item.offset = reader.offset + length.counterWidth + index * width) ∧
        (Address.limit ≤ index * width → ∃ cause, reader.element index = .error cause) := by
  rw [Reader.count_eq array] at counted
  have begins := Reader.start_eq_ok small counted
  have fits := ((Schema.fits_of_compile compiled).part inside).fits
  refine ⟨?_, fun index => Reader.element_beyond array counted, fun width fixed index => ?_⟩
  · refine ⟨_, Reader.elements_eq_ok array counted begins, (Reader.Elements.take_count count).1,
      (Reader.Elements.take_count count).2, fun index item there => ?_⟩
    obtain ⟨before, place, walked, rfl⟩ := Reader.Elements.walk_of_take there
    exact Reader.element_eq_ok array counted begins (ArrayLength.start_bounds address begins).2
      before walked
  · have saturated (beyond : Address.limit ≤ index * width) :=
      Reader.element_saturated array fits counted begins fixed beyond
    refine ⟨fun item found => ?_, saturated⟩
    have unsaturated : index * width < Address.limit := by
      by_contra beyond
      obtain ⟨cause, failed⟩ := saturated (by omega)
      rw [found] at failed
      cases failed
    have within : index < count := by
      by_contra beyond
      rw [Reader.element_beyond array counted (by omega)] at found
      cases found
    rw [Reader.element_of_width? array counted begins fixed within, Reader.skip,
      if_pos unsaturated] at found
    obtain ⟨place, advanced, same⟩ := bind_eq_ok_iff.mp found
    cases same
    exact (Address.advance_eq_ok_iff.mp advanced).1

/-- Short numbers behind a count that has no bound of its own. -/
def sampleNumbers : List FieldSpec :=
  [⟨"numbers", .array (.int ⟨2, false, none⟩) (.bounded 18446744073709551615 ⟨8, false, none⟩)⟩]

/-- The layout of the numbers, most significant byte first. -/
def numbersSchema : Schema :=
  ⟨[⟨"numbers", .array (.int ⟨.two, false, .big⟩)
    (.bounded 18446744073709551615 ⟨.eight, false, .big⟩)⟩]⟩

/-- The largest count there is, in front of one number. The number is found in its turn and by its
index, and a product that is capped leads nowhere. -/
theorem Schema.elements_agree_element_sampleNumbers :
    let short : Layout := .int ⟨.two, false, .big⟩
    let reader : Reader := ⟨#[255, 255, 255, 255, 255, 255, 255, 255, 1, 2], "numbers",
      .array short (.bounded 18446744073709551615 ⟨.eight, false, .big⟩), 0⟩
    Schema.compile sampleNumbers .big = .ok numbersSchema ∧
      numbersSchema.root.Contains reader.layout ∧
      reader.count = .ok 18446744073709551615 ∧
      reader.element 0 = .ok ⟨reader.data, "numbers", short, 8⟩ ∧
      reader.element 18446744073709551615 =
        .error (.indexOutOfRange 18446744073709551615 18446744073709551615) ∧
      ∃ cause, reader.element 9223372036854775808 = .error cause := by
  intro short reader
  have compiled : Schema.compile sampleNumbers .big = .ok numbersSchema := rfl
  have inside : numbersSchema.root.Contains reader.layout :=
    .member List.mem_cons_self (.refl _)
  have counted : reader.count = .ok 18446744073709551615 := by decide +kernel
  obtain ⟨⟨elements, found, -, more, agree⟩, beyond, fixed⟩ :=
    elements_agree_element compiled rfl inside (by decide) (by decide) counted
  have whole : reader.elements = .ok ⟨reader.data, "numbers", short, 18446744073709551615, 8⟩ :=
    Reader.elements_eq_ok rfl counted rfl
  have first : (elements.take 18446744073709551615).take 1 =
      [.ok ⟨reader.data, "numbers", short, 8⟩] := by
    rw [← more 1]
    rw [whole] at found
    cases found
    rfl
  refine ⟨compiled, inside, counted, agree 0 _ ?_, beyond _ (Nat.le_refl _),
    (fixed 2 rfl _).2 (by decide)⟩
  rw [← List.getElem?_take_of_lt Nat.one_pos, first]
  rfl

end RecordLayout
