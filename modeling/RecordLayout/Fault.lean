/-
**Judging the entries of a list one after another.**

The entries of a description are judged in order, each with the entries before it in view, and the
first fault found is the one reported. `firstFault?_eq_none_iff` says that no fault is reported
exactly when no entry has one.
-/

namespace RecordLayout

/-- The first fault among `entries`; an entry is judged with all the entries that precede it. -/
def firstFault? {α ε : Type} (judge : List α → α → Option ε) :
    (earlier entries : List α) → Option ε
  | _, [] => none
  | earlier, entry :: rest =>
      match judge earlier entry with
      | some fault => some fault
      | none => firstFault? judge (earlier ++ [entry]) rest

theorem firstFault?_eq_none_iff {α ε : Type} {judge : List α → α → Option ε}
    {earlier entries : List α} :
    firstFault? judge earlier entries = none ↔
      ∀ before entry after, entries = before ++ entry :: after →
        judge (earlier ++ before) entry = none := by
  induction entries generalizing earlier with
  | nil => simp [firstFault?]
  | cons head rest ih =>
      rw [firstFault?]
      constructor
      · intro clear before entry after split
        cases verdict : judge earlier head with
        | some fault => simp [verdict] at clear
        | none =>
            simp only [verdict] at clear
            cases before with
            | nil =>
                obtain ⟨rfl, -⟩ := List.cons.inj split
                simpa using verdict
            | cons first before =>
                obtain ⟨rfl, rfl⟩ := List.cons.inj split
                simpa using ih.mp clear before entry after rfl
      · intro clear
        have verdict : judge earlier head = none := by simpa using clear [] head rest rfl
        simp only [verdict]
        refine ih.mpr fun before entry after split => ?_
        simpa using clear (head :: before) entry after (by simp [split])

/-- Fails with a fault, if there is one. -/
def raise {ε : Type} : Option ε → Except ε Unit
  | some fault => .error fault
  | none => .ok ()

end RecordLayout
