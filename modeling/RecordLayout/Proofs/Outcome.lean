/-
**Outcomes of checks and of runs.**

A computation that can fail is taken apart at its success: a sequence succeeds when both parts do
(`bind_eq_ok_iff`), a check when its condition is false (`guard_eq_ok_iff`), a fault when there is
none (`raise_eq_ok_iff`), a pass over a list when every step does (`mapM_eq_ok_iff`). Two computations
are compared by what their outcomes look like (`map_eq_map_cases`, `map_bind_congr`,
`map_mapM_congr`).

`firstFault?` judges each entry with the entries before it. Where a verdict is about the entry alone
and about each pair with an earlier one, a list is clear exactly when every entry and every pair is
(`firstFault?_eq_none_iff_pairwise`).
-/

import Mathlib.Data.List.Forall2
import RecordLayout.Fault

namespace RecordLayout

section Except

variable {ε α β : Type}

theorem ok_bind (value : α) (next : α → Except ε β) : (Except.ok value >>= next) = next value := rfl

theorem bind_eq_ok_iff {outcome : Except ε α} {next : α → Except ε β} {result : β} :
    (outcome >>= next) = .ok result ↔ ∃ value, outcome = .ok value ∧ next value = .ok result := by
  cases outcome <;> simp [bind, Except.bind]

theorem bind_eq_error_iff {outcome : Except ε α} {next : α → Except ε β} {cause : ε} :
    (outcome >>= next) = .error cause ↔
      outcome = .error cause ∨ ∃ value, outcome = .ok value ∧ next value = .error cause := by
  cases outcome <;> simp [bind, Except.bind]

theorem pure_eq_ok_iff {value result : α} :
    (pure value : Except ε α) = .ok result ↔ value = result := by
  simp [pure, Except.pure]

theorem exists_of_isOk {outcome : Except ε α} (passed : outcome.isOk = true) :
    ∃ value, outcome = .ok value := by
  cases outcome with
  | ok value => exact ⟨value, rfl⟩
  | error cause => cases passed

theorem exists_bind_pure_iff {outcome : Except ε α} {wrap : α → β} :
    (∃ result, (do return wrap (← outcome)) = Except.ok result) ↔ ∃ value, outcome = .ok value := by
  simp only [bind_eq_ok_iff, pure_eq_ok_iff]
  constructor
  · rintro ⟨_, value, found, -⟩
    exact ⟨value, found⟩
  · rintro ⟨value, found⟩
    exact ⟨_, value, found, rfl⟩

theorem guard_eq_ok_iff {condition : Prop} [Decidable condition] {fault : ε}
    {unreached : β → Except ε α} {rest : Except ε α} {result : α} :
    (if condition then (throw fault : Except ε β) >>= unreached else rest) = .ok result ↔
      ¬condition ∧ rest = .ok result := by
  split <;> simp_all [bind, Except.bind, throw, throwThe, MonadExceptOf.throw]

theorem raise_eq_ok_iff {fault? : Option ε} {result : Unit} :
    raise fault? = .ok result ↔ fault? = none := by
  cases fault? <;> simp [raise]

/-- A pass over a list succeeds exactly when every step does. -/
theorem mapM_eq_ok_iff {step : α → Except ε β} {entries : List α} {results : List β} :
    entries.mapM step = .ok results ↔
      List.Forall₂ (fun entry result => step entry = .ok result) entries results := by
  induction entries generalizing results with
  | nil => rw [List.mapM_nil, pure_eq_ok_iff, List.forall₂_nil_left_iff, eq_comm]
  | cons head rest ih =>
      rw [List.mapM_cons]
      simp only [bind_eq_ok_iff, pure_eq_ok_iff, ih]
      constructor
      · rintro ⟨first, found, others, each, rfl⟩
        exact .cons found each
      · rintro (_ | ⟨found, each⟩)
        exact ⟨_, found, _, each, rfl⟩

/-- A pass over a list fails with the fault of one of its steps. -/
theorem exists_of_mapM_eq_error {step : α → Except ε β} {entries : List α} {cause : ε}
    (failed : entries.mapM step = .error cause) : ∃ entry ∈ entries, step entry = .error cause := by
  induction entries with
  | nil => cases failed
  | cons head rest ih =>
      rw [List.mapM_cons] at failed
      simp only [bind_eq_error_iff] at failed
      obtain found | ⟨_, -, later | ⟨_, -, impossible⟩⟩ := failed
      · exact ⟨head, List.mem_cons_self, found⟩
      · obtain ⟨entry, member, found⟩ := ih later
        exact ⟨entry, List.mem_cons_of_mem _ member, found⟩
      · cases impossible

/-- A run over a list fails with the fault of one of its steps. -/
theorem exists_of_foldlM_eq_error {step : β → α → Except ε β} {entries : List α} {state : β}
    {cause : ε} (failed : entries.foldlM step state = .error cause) :
    ∃ entry ∈ entries, ∃ reached, step reached entry = .error cause := by
  induction entries generalizing state with
  | nil => cases failed
  | cons head rest ih =>
      rw [List.foldlM_cons] at failed
      obtain first | ⟨next, -, later⟩ := bind_eq_error_iff.mp failed
      · exact ⟨head, List.mem_cons_self, state, first⟩
      · obtain ⟨entry, member, found⟩ := ih later
        exact ⟨entry, List.mem_cons_of_mem _ member, found⟩

/-- Every result of a pass over a list has an entry it comes from. -/
theorem exists_entry_of_mem {related : α → β → Prop} {entries : List α} {results : List β}
    (each : List.Forall₂ related entries results) {result : β} (member : result ∈ results) :
    ∃ entry ∈ entries, related entry result := by
  induction each with
  | nil => cases member
  | @cons entry _ _ _ head _ ih =>
      rcases List.mem_cons.mp member with rfl | member
      · exact ⟨entry, List.mem_cons_self, head⟩
      · obtain ⟨other, inside, found⟩ := ih member
        exact ⟨other, List.mem_cons_of_mem _ inside, found⟩

/-- Every entry of a pass over a list has its result at the same index. -/
theorem exists_result_of_getElem? {related : α → β → Prop} {entries : List α} {results : List β}
    (each : List.Forall₂ related entries results) {index : Nat} {entry : α}
    (there : entries[index]? = some entry) :
    ∃ result, results[index]? = some result ∧ related entry result := by
  obtain ⟨inside, rfl⟩ := List.getElem?_eq_some_iff.mp there
  have insideToo : index < results.length := each.length_eq ▸ inside
  exact ⟨results[index], List.getElem?_eq_getElem insideToo, each.get inside insideToo⟩

/-- Where every entry has a result, the whole list has one. -/
theorem exists_forall₂ {related : α → β → Prop} {entries : List α}
    (each : ∀ entry ∈ entries, ∃ result, related entry result) :
    ∃ results, List.Forall₂ related entries results := by
  induction entries with
  | nil => exact ⟨[], .nil⟩
  | cons head rest ih =>
      rw [List.forall_mem_cons] at each
      obtain ⟨first, found⟩ := each.1
      obtain ⟨others, rest⟩ := ih each.2
      exact ⟨first :: others, .cons found rest⟩

/-- What is known of each result by its entry is known of the whole list. -/
theorem map_eq_of_forall₂ {γ : Type} {related : α → β → Prop} {entries : List α}
    {results : List β} {known : α → γ} {measure : β → γ}
    (each : List.Forall₂ related entries results)
    (same : ∀ entry ∈ entries, ∀ result, related entry result → measure result = known entry) :
    results.map measure = entries.map known := by
  induction each with
  | nil => rfl
  | cons head _ ih =>
      rw [List.forall_mem_cons] at same
      rw [List.map_cons, List.map_cons, same.1 _ head, ih same.2]

/-! Two computations are alike when they fail with the same cause or succeed with results that look
the same. -/

/-- **Alike computations** fail with one cause, or succeed with results that look the same. -/
theorem map_eq_map_cases {α' γ : Type} {first : Except ε α} {second : Except ε α'} {view : α → γ}
    {view' : α' → γ} (alike : first.map view = second.map view') :
    (∃ cause, first = .error cause ∧ second = .error cause) ∨
      ∃ value other, first = .ok value ∧ second = .ok other ∧ view value = view' other := by
  cases first with
  | error cause =>
      cases second with
      | error other =>
          cases alike
          exact .inl ⟨cause, rfl, rfl⟩
      | ok other => cases alike
  | ok value =>
      cases second with
      | error cause => cases alike
      | ok other => exact .inr ⟨value, other, rfl, rfl, Except.ok.inj alike⟩

/-- Alike computations go on alike. -/
theorem map_bind_congr {α' β' γ δ : Type} {first : Except ε α} {second : Except ε α'} {view : α → γ}
    {view' : α' → γ} {next : α → Except ε β} {next' : α' → Except ε β'} {out : β → δ} {out' : β' → δ}
    (alike : first.map view = second.map view')
    (later : ∀ value other, view value = view' other →
      (next value).map out = (next' other).map out') :
    (first >>= next).map out = (second >>= next').map out' := by
  obtain ⟨cause, rfl, rfl⟩ | ⟨value, other, rfl, rfl, same⟩ := map_eq_map_cases alike
  · rfl
  · exact later value other same

/-- Passes over a list are alike when their steps are. -/
theorem map_mapM_congr {β' γ : Type} {step : α → Except ε β} {step' : α → Except ε β'} {view : β → γ}
    {view' : β' → γ} {entries : List α}
    (alike : ∀ entry ∈ entries, (step entry).map view = (step' entry).map view') :
    (entries.mapM step).map (List.map view) = (entries.mapM step').map (List.map view') := by
  induction entries with
  | nil => rfl
  | cons entry rest ih =>
      rw [List.forall_mem_cons] at alike
      rw [List.mapM_cons, List.mapM_cons]
      refine map_bind_congr alike.1 fun value other same => ?_
      refine map_bind_congr (ih alike.2) fun values others sames => ?_
      exact congrArg Except.ok (by rw [List.map_cons, List.map_cons, same, sames])

end Except

section Fault

variable {α ε : Type} {judge : List α → α → Option ε} {entries : List α}

theorem firstFault?_cons_eq_none_iff {earlier rest : List α} {entry : α} :
    firstFault? judge earlier (entry :: rest) = none ↔
      judge earlier entry = none ∧ firstFault? judge (earlier ++ [entry]) rest = none := by
  rw [firstFault?]
  cases judge earlier entry <;> simp

/-- **A list is clear** exactly when every entry is fine by itself and beside each earlier one. -/
theorem firstFault?_eq_none_iff_pairwise {holds : α → Prop} {apart : α → α → Prop}
    (verdict : ∀ earlier entry, judge earlier entry = none ↔
      holds entry ∧ ∀ other ∈ earlier, apart other entry) :
    firstFault? judge [] entries = none ↔
      (∀ entry ∈ entries, holds entry) ∧ entries.Pairwise apart := by
  simp only [firstFault?_eq_none_iff, List.nil_append, verdict]
  constructor
  · intro clear
    constructor
    · intro entry member
      obtain ⟨before, after, split⟩ := List.append_of_mem member
      exact (clear before entry after split).1
    · refine List.pairwise_iff_getElem.mpr fun first second _ inside before => ?_
      have split : entries =
          entries.take second ++ entries[second] :: entries.drop (second + 1) := by
        rw [← List.drop_eq_getElem_cons, List.take_append_drop]
      exact (clear _ _ _ split).2 _ (List.mem_take_iff_getElem.mpr ⟨first, by omega, rfl⟩)
  · rintro ⟨each, pairs⟩ before entry after rfl
    refine ⟨each entry (by simp), fun other member => ?_⟩
    exact (List.pairwise_append.mp pairs).2.2 other member entry List.mem_cons_self

/-- Entries that are told apart by two labels. -/
theorem firstFault?_eq_none_iff_nodup {β γ : Type} {holds : α → Prop} {first : α → β}
    {second : α → γ}
    (verdict : ∀ earlier entry, judge earlier entry = none ↔
      holds entry ∧ ∀ other ∈ earlier, first other ≠ first entry ∧ second other ≠ second entry) :
    firstFault? judge [] entries = none ↔
      (∀ entry ∈ entries, holds entry) ∧ (entries.map first).Nodup ∧
        (entries.map second).Nodup := by
  rw [firstFault?_eq_none_iff_pairwise verdict, List.pairwise_and_iff, List.Nodup, List.Nodup,
    List.pairwise_map, List.pairwise_map]

end Fault

end RecordLayout
