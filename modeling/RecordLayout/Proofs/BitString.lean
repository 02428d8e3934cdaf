/-
**Bits of a byte string.**

A position counts bits from the high bit of the first byte on. Reading at a position looks at one bit
of one byte (`Bits.shiftRight_and_one`), so that a string is known when all its bits are, and a write
changes the bit at its own position only.

* `Bits.read_write_self`, `Bits.read_write_of_ne`: a written bit is there, and writing it leaves every
  other bit alone.
* `Bits.read_append_left`, `Bits.read_append_right`: where strings stand one behind the other, the bits
  of each are found at the shifted positions.
* `Bits.eq_of_read_eq`: strings of one length with the same bits are equal.
* `Bits.read_write`: what is read at any position after a write at any other. Since a string is known by
  its bits, all laws of writing follow from it (`Bits.write_laws`).
-/

import RecordLayout.Bits

namespace RecordLayout.Bits

/-- The bit that is read is a bit of its byte. -/
theorem shiftRight_and_one (byte : UInt8) {index : Nat} (inside : index < 8) :
    ((byte >>> UInt8.ofNat index) &&& 1 == 1) = byte.toBitVec.getLsbD index := by
  have amount : (UInt8.ofNat index).toNat % 8 = index := by
    rw [UInt8.toNat_ofNat']
    omega
  rw [Bool.eq_iff_iff, beq_iff_eq, ← UInt8.toNat_inj, UInt8.toNat_and, UInt8.toNat_shiftRight,
    amount]
  show byte.toNat >>> index &&& 1 = 1 ↔ byte.toNat.testBit index = true
  rw [Nat.and_one_is_mod, Nat.testBit, Nat.and_comm, Nat.and_one_is_mod]
  simp

theorem getLsbD_single (position : Nat) {index : Nat} (inside : index < 8) :
    (single position).toBitVec.getLsbD index = decide (index = 7 - position % 8) := by
  have table : ∀ shift bit : Fin 8, (0x80 >>> UInt8.ofNat shift : UInt8).toBitVec.getLsbD bit =
      decide (bit.val = 7 - shift.val) := by decide
  exact table ⟨position % 8, by omega⟩ ⟨index, inside⟩

/-- **Writing a bit leaves every other bit alone.** -/
theorem read_write_of_ne {position other : Nat} (apart : other ≠ position) (data : Bytes)
    (on : Bool) : read (write data position on) other = read data other := by
  unfold read
  rw [length_write]
  simp only [write, List.getElem?_modify]
  by_cases same : position / 8 = other / 8
  · -- in one byte the two positions have different remainders
    have differs : 7 - other % 8 ≠ 7 - position % 8 := by omega
    have inside : 7 - other % 8 < 8 := by omega
    cases data[other / 8]? with
    | none => rfl
    | some byte =>
        have single : (single position).toBitVec.getLsbD (7 - other % 8) = false := by
          rw [getLsbD_single position inside, decide_eq_false differs]
        simp only [same, if_true, Option.map_eq_map, Option.map_some, shiftRight_and_one _ inside]
        cases on with
        | false =>
            simp only [Bool.false_eq_true, if_false, UInt8.toBitVec_and, UInt8.toBitVec_not,
              BitVec.getLsbD_and, BitVec.getLsbD_not, single, inside, decide_true, Bool.not_false,
              Bool.and_true]
        | true =>
            simp only [if_true, UInt8.toBitVec_or, BitVec.getLsbD_or, single, Bool.or_false]
  · cases data[other / 8]? with
    | none => rfl
    | some byte => simp [same]

/-- A bit that is there. -/
theorem read_of_lt {data : Bytes} {position : Nat} (inside : position / 8 < data.length) :
    read data position = .ok (data[position / 8].toBitVec.getLsbD (7 - position % 8)) := by
  rw [read, List.getElem?_eq_getElem inside]
  exact congrArg Except.ok (shiftRight_and_one _ (by omega))

/-- **A written bit is there.** -/
theorem read_write_self {data : Bytes} {position : Nat} (inside : position < 8 * data.length)
    (on : Bool) : read (write data position on) position = .ok on := by
  have index : position / 8 < data.length := by omega
  have bit : 7 - position % 8 < 8 := by omega
  have own : (single position).toBitVec.getLsbD (7 - position % 8) = true := by
    rw [getLsbD_single position bit, decide_eq_true rfl]
  rw [read_of_lt (by rw [length_write]; exact index)]
  simp only [write, List.getElem_modify_eq]
  cases on with
  | false =>
      simp only [Bool.false_eq_true, if_false, UInt8.toBitVec_and, UInt8.toBitVec_not,
        BitVec.getLsbD_and, BitVec.getLsbD_not, own, Bool.not_true, Bool.and_false]
  | true => simp only [if_true, UInt8.toBitVec_or, BitVec.getLsbD_or, own, Bool.or_true]

theorem read_append_left {first : Bytes} {position : Nat} (inside : position < 8 * first.length)
    (second : Bytes) : read (first ++ second) position = read first position := by
  have index : position / 8 < first.length := by omega
  rw [read_of_lt (by rw [List.length_append]; omega), read_of_lt index,
    List.getElem_append_left index]

theorem read_append_right {second : Bytes} {position : Nat} (inside : position < 8 * second.length)
    (first : Bytes) : read (first ++ second) (8 * first.length + position) = read second position := by
  have quotient : (8 * first.length + position) / 8 = first.length + position / 8 := by omega
  have remainder : (8 * first.length + position) % 8 = position % 8 := by omega
  have index : position / 8 < second.length := by omega
  have there : (first ++ second)[first.length + position / 8]? = some second[position / 8] := by
    rw [List.getElem?_append_right (by omega), Nat.add_sub_cancel_left,
      List.getElem?_eq_getElem index]
  unfold read
  rw [quotient, remainder, there, List.getElem?_eq_getElem index]

/-- **Strings of one length with the same bits are equal.** -/
theorem eq_of_read_eq {first second : Bytes} (length : first.length = second.length)
    (same : ∀ position < 8 * first.length, read first position = read second position) :
    first = second := by
  apply List.ext_getElem length
  intro index inside insideToo
  apply UInt8.toBitVec_inj.mp
  apply BitVec.eq_of_getLsbD_eq
  intro bit small
  have quotient : (8 * index + (7 - bit)) / 8 = index := by omega
  have remainder : 7 - (8 * index + (7 - bit)) % 8 = bit := by omega
  have equal := same (8 * index + (7 - bit)) (by omega)
  rw [read_of_lt (by omega), read_of_lt (by omega)] at equal
  simpa only [Except.ok.injEq, quotient, remainder] using equal

/-! ### The laws of reading and writing -/

theorem read_of_ge {data : Bytes} {position : Nat} (beyond : 8 * data.length ≤ position) :
    read data position = .error (.notEnoughData (position / 8 + 1) data.length) := by
  rw [read, List.getElem?_eq_none (by omega)]

/-- There is nothing to write behind the end of a string. -/
theorem write_of_ge {data : Bytes} {position : Nat} (beyond : 8 * data.length ≤ position)
    (on : Bool) : write data position on = data :=
  List.modify_eq_self (by omega)

/-- **What is read after a write**: the written bit at its position, if the string has it, and what was
there before at every other. -/
theorem read_write (data : Bytes) (position other : Nat) (on : Bool) :
    read (write data position on) other =
      if other = position ∧ position < 8 * data.length then .ok on else read data other := by
  by_cases same : other = position
  · subst same
    by_cases inside : other < 8 * data.length
    · rw [if_pos ⟨rfl, inside⟩, read_write_self inside]
    · rw [if_neg (by omega), write_of_ge (by omega)]
  · rw [if_neg (by omega), read_write_of_ne same]

/-- Writes at different positions commute. -/
theorem write_comm {position other : Nat} (apart : other ≠ position) (data : Bytes)
    (on later : Bool) :
    write (write data position on) other later = write (write data other later) position on := by
  apply eq_of_read_eq
  · simp only [length_write]
  · intro place inside
    simp only [read_write, length_write]
    by_cases first : place = position ∧ position < 8 * data.length
    · have second : ¬(place = other ∧ other < 8 * data.length) := by omega
      simp only [if_pos first, if_neg second]
    · simp only [if_neg first]

/-- Of two writes at one position the second stays. -/
theorem write_write (data : Bytes) (position : Nat) (on later : Bool) :
    write (write data position on) position later = write data position later := by
  apply eq_of_read_eq
  · simp only [length_write]
  · intro place inside
    simp only [read_write, length_write]
    by_cases here : place = position ∧ position < 8 * data.length
    · simp only [if_pos here]
    · simp only [if_neg here]

/-- **The laws of reading and writing bits.** A write keeps the length of the string. The bit at its
position is the one written; behind the end there is none, reading fails as it did before, and the string
is the same. Every other position reads as before. So writes at different positions commute, a second
write at one position prevails, and a string is known by its length and its bits. -/
theorem write_laws (data : Bytes) (position : Nat) (on : Bool) :
    (write data position on).length = data.length ∧
    (position < 8 * data.length → read (write data position on) position = .ok on) ∧
    (8 * data.length ≤ position → write data position on = data ∧
      read data position = .error (.notEnoughData (position / 8 + 1) data.length) ∧
      read (write data position on) position = read data position) ∧
    (∀ other, other ≠ position → read (write data position on) other = read data other) ∧
    (∀ other later, other ≠ position → write (write data position on) other later =
      write (write data other later) position on) ∧
    (∀ later, write (write data position on) position later = write data position later) ∧
    ∀ string : Bytes, string.length = data.length →
      (∀ place < 8 * data.length, read string place = read data place) → string = data := by
  refine ⟨length_write .., fun inside => read_write_self inside on, fun beyond => ?_,
    fun other apart => read_write_of_ne apart data on,
    fun other later apart => write_comm apart data on later, write_write data position on,
    fun string length same => ?_⟩
  · have unchanged := write_of_ge beyond on
    exact ⟨unchanged, read_of_ge beyond, by rw [unchanged]⟩
  · exact eq_of_read_eq length (by rwa [length])

/-- The last bit of a byte and the first bit of the next, and a position behind both bytes. -/
theorem write_laws_twoBytes :
    write (write [0, 255] 7 true) 8 false = [1, 127] ∧
      write (write [0, 255] 8 false) 7 true = [1, 127] ∧
      read (write [0, 255] 7 true) 8 = read [0, 255] 8 ∧ write [0, 255] 16 true = [0, 255] := by
  obtain ⟨-, -, -, others, commute, -⟩ := write_laws [0, 255] 7 true
  obtain ⟨-, -, beyond, -⟩ := write_laws [0, 255] 16 true
  have both : write (write [0, 255] 7 true) 8 false = [1, 127] := by decide
  exact ⟨both, (commute 8 false (by decide)).symm.trans both, others 8 (by decide),
    (beyond (by decide)).1⟩

end RecordLayout.Bits
