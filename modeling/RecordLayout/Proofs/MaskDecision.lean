/-
**The check of the relations between flags is exact.**

Before the relations of a mask are looked at, its flags are told apart and the names in their
relations become indices (`MaskSpec.resolve`). From there on a mask can only be refused for what its
relations say, and the refusal is right in both directions:

* `Resolution.cyclic?_eq_some`: the flag that is blamed for a cycle is on one, not merely in front of
  it.
* `Resolution.conflicting?_eq_some`: the two flags that are blamed for a conflict have it.
* `Resolution.mem_closure_names_iff`: the closure of a flag lists the flags that it leads to, each
  once, whether there are cycles or not.
* `MaskSpec.relations_decided`: all of it, for every mask whose flags have been told apart.
-/

import RecordLayout.Proofs.MaskAcceptance

namespace RecordLayout

open Relation

namespace MaskSpec

variable {spec : MaskSpec} {mask : Mask}

/-- **The outcome for a mask that only its relations can make fail.** -/
theorem compile_of_resolve (passed : spec.resolve = .ok mask) :
    spec.compile = do
      raise (mask.cyclic?.or mask.conflicting?)
      return mask := by
  rw [MaskSpec.compile, passed, ok_bind]
  cases mask.cyclic? <;> rfl

/-- Setting the flag `name` would set the flag `other` and clear it: the flag leads to `other`, and to
a flag that excludes `other`. -/
def Contradicts (spec : MaskSpec) (name other : String) : Prop :=
  (∃ flag ∈ spec.flags, flag.name = name) ∧
    ∃ member, spec.LeadsTo name member ∧ spec.LeadsTo name other ∧ spec.Excludes member other

end MaskSpec

namespace Resolution

variable {spec : MaskSpec} {mask : Mask} {index other : Nat} {name label : String}

theorem nameOf_eq (resolution : Resolution spec mask) (named : spec.Named index name) :
    mask.nameOf index = name := by
  obtain ⟨flag, there, rfl⟩ := named
  obtain ⟨resolved, present, resolves⟩ := resolution.exists_resolved there
  simp only [Mask.nameOf, present]
  exact resolves.name

/-- Every flag of a mask has the name that is reported for it. -/
theorem named_nameOf (resolution : Resolution spec mask) (inside : index < mask.flags.length) :
    spec.Named index (mask.nameOf index) := by
  obtain ⟨name, named⟩ := resolution.exists_name inside
  rwa [resolution.nameOf_eq named]

/-- **The flag that is blamed for a cycle is on a cycle.** -/
theorem cyclic?_eq_some (resolution : Resolution spec mask) {fault : SchemaError}
    (found : mask.cyclic? = some fault) :
    ∃ name, fault = .cyclicImplication name ∧ TransGen spec.Implies name name := by
  obtain ⟨culprit, searched, rfl⟩ := Option.map_eq_some_iff.mp found
  have around := Implication.cycle?_eq_some searched
  obtain ⟨before, -, last⟩ := TransGen.tail'_iff.mp around
  have named := resolution.named_nameOf (resolution.lt_of_leads before culprit last)
  refine ⟨_, rfl, ?_⟩
  obtain ⟨label, again, chain⟩ := exists_transGen_of_step spec.Named resolution.leads named around
  rwa [← named.unique again] at chain

/-- **The flags that are blamed for a conflict have it.** -/
theorem conflicting?_eq_some (resolution : Resolution spec mask) {fault : SchemaError}
    (found : mask.conflicting? = some fault) :
    ∃ name other, fault = .conflictingFlags name other ∧ spec.Contradicts name other := by
  obtain ⟨index, inside, blamed⟩ := List.exists_of_findSome?_eq_some found
  rw [List.mem_range] at inside
  obtain ⟨other, clash, rfl⟩ := Option.map_eq_some_iff.mp blamed
  obtain ⟨member, reached, first⟩ := List.exists_of_findSome?_eq_some clash
  have excluded := List.mem_of_find?_eq_some first
  have again : other ∈ mask.closure index := by simpa using List.find?_some first
  have named := resolution.named_nameOf inside
  have memberNamed := resolution.named_nameOf (resolution.lt_of_closure inside reached)
  have otherNamed := resolution.named_nameOf (resolution.lt_of_closure inside again)
  refine ⟨_, _, rfl, ?_, mask.nameOf member, ?_, ?_, ?_⟩
  · obtain ⟨flag, there, same⟩ := named
    exact ⟨flag, List.mem_of_getElem? there, same⟩
  · exact (resolution.mem_closure_iff named memberNamed).mp reached
  · exact (resolution.mem_closure_iff named otherNamed).mp again
  · exact (resolution.mem_excluded_iff memberNamed otherNamed).mp excluded

theorem conflicting?_eq_none_iff_contradicts (resolution : Resolution spec mask) :
    mask.conflicting? = none ↔ ∀ name other, ¬spec.Contradicts name other := by
  rw [resolution.conflicting?_eq_none_iff]
  constructor
  · rintro consistent name other ⟨⟨flag, declared, rfl⟩, member, toMember, toOther, excludes⟩
    exact consistent flag declared member other toMember toOther excludes
  · intro consistent flag declared member other toMember toOther excludes
    exact consistent flag.name other
      ⟨⟨flag, declared, rfl⟩, member, toMember, toOther, excludes⟩

/-- **The closure of a flag holds the flags that it leads to**, by name. -/
theorem mem_closure_names_iff (resolution : Resolution spec mask) (named : spec.Named index name)
    (label : String) :
    label ∈ (mask.closure index).map mask.nameOf ↔ spec.LeadsTo name label := by
  have inside := resolution.lt_of_named named
  rw [List.mem_map]
  constructor
  · rintro ⟨other, reached, rfl⟩
    have otherNamed := resolution.named_nameOf (resolution.lt_of_closure inside reached)
    exact (resolution.mem_closure_iff named otherNamed).mp reached
  · intro chain
    obtain ⟨other, otherNamed, -⟩ := exists_reflTransGen_of_step
      (fun name index => spec.Named index name) resolution.implies named chain
    exact ⟨other, (resolution.mem_closure_iff named otherNamed).mpr chain,
      resolution.nameOf_eq otherNamed⟩

/-- **The closure of a flag lists every flag once.** -/
theorem nodup_closure_names (resolution : Resolution spec mask) (named : spec.Named index name) :
    ((mask.closure index).map mask.nameOf).Nodup := by
  have inside := resolution.lt_of_named named
  refine List.Nodup.map_on (fun first reached second reachedToo same => ?_)
    (Implication.nodup_closure resolution.lt_of_leads inside)
  have firstNamed := resolution.named_nameOf (resolution.lt_of_closure inside reached)
  have secondNamed := resolution.named_nameOf (resolution.lt_of_closure inside reachedToo)
  exact (same ▸ firstNamed).injective resolution.names secondNamed

end Resolution

namespace MaskSpec

/-- **The relations of a mask are decided.** Once the flags of a mask have been told apart, it is
refused for a cycle exactly when its implications have one, and the flag that is named is on a cycle.
If they have none, it is refused for a conflict exactly when some flag leads to a flag and to another
one that excludes it, and the flags that are named are such flags; otherwise it is accepted. In every
case the closure of a flag lists the flags that it leads to, each once. -/
theorem relations_decided {spec : MaskSpec} {mask : Mask} (passed : spec.resolve = .ok mask) :
    ((∃ name, spec.compile = .error (.cyclicImplication name)) ↔
        ∃ name, TransGen spec.Implies name name) ∧
      (∀ name, spec.compile = .error (.cyclicImplication name) →
        TransGen spec.Implies name name) ∧
      ((∀ name, ¬TransGen spec.Implies name name) →
        ((∃ name other, spec.compile = .error (.conflictingFlags name other)) ↔
            ∃ name other, spec.Contradicts name other) ∧
          (∀ name other, spec.compile = .error (.conflictingFlags name other) →
            spec.Contradicts name other) ∧
          ((∀ name other, ¬spec.Contradicts name other) → spec.compile = .ok mask)) ∧
      ∀ index name, spec.Named index name →
        ((mask.closure index).map mask.nameOf).Nodup ∧
          ∀ label, label ∈ (mask.closure index).map mask.nameOf ↔ spec.LeadsTo name label := by
  obtain ⟨-, -, -, -, resolution⟩ := resolve_eq_ok_iff.mp passed
  refine and_assoc.mp ⟨?_, fun acyclic => ?_, fun index name named => ?_⟩
  · cases cyclic : mask.cyclic? with
    | some fault =>
        obtain ⟨culprit, rfl, around⟩ := resolution.cyclic?_eq_some cyclic
        have outcome : spec.compile = .error (.cyclicImplication culprit) := by
          rw [compile_of_resolve passed, cyclic]
          rfl
        rw [outcome]
        refine ⟨iff_of_true ⟨culprit, rfl⟩ ⟨culprit, around⟩, fun name blamed => ?_⟩
        cases blamed
        exact around
    | none =>
        have acyclic := resolution.cyclic?_eq_none_iff.mp cyclic
        have never (name : String) : spec.compile ≠ .error (.cyclicImplication name) := by
          rw [compile_of_resolve passed, cyclic]
          cases conflicting : mask.conflicting? with
          | none => nofun
          | some fault =>
              obtain ⟨_, _, rfl, -⟩ := resolution.conflicting?_eq_some conflicting
              nofun
        refine ⟨iff_of_false ?_ ?_, fun name blamed => absurd blamed (never name)⟩
        · rintro ⟨name, blamed⟩
          exact never name blamed
        · rintro ⟨name, around⟩
          exact acyclic name around
  · have cyclic := resolution.cyclic?_eq_none_iff.mpr acyclic
    cases conflicting : mask.conflicting? with
    | some fault =>
        obtain ⟨name, other, rfl, contradicts⟩ := resolution.conflicting?_eq_some conflicting
        have outcome : spec.compile = .error (.conflictingFlags name other) := by
          rw [compile_of_resolve passed, cyclic, conflicting]
          rfl
        rw [outcome]
        refine ⟨iff_of_true ⟨name, other, rfl⟩ ⟨name, other, contradicts⟩, ?_, ?_⟩
        · intro first second blamed
          cases blamed
          exact contradicts
        · exact fun consistent => absurd contradicts (consistent name other)
    | none =>
        have consistent := resolution.conflicting?_eq_none_iff_contradicts.mp conflicting
        have outcome : spec.compile = .ok mask := by
          rw [compile_of_resolve passed, cyclic, conflicting]
          rfl
        rw [outcome]
        refine ⟨iff_of_false nofun ?_, nofun, fun _ => rfl⟩
        rintro ⟨name, other, contradicts⟩
        exact consistent name other contradicts
  · exact ⟨resolution.nodup_closure_names named, resolution.mem_closure_names_iff named⟩

/-- A door that is entered through a loop: open and lit imply each other, entered implies open. -/
def sampleLoop : MaskSpec :=
  ⟨1, [⟨"entered", 0, ["open"], []⟩, ⟨"open", 1, ["lit"], []⟩, ⟨"lit", 2, ["open"], []⟩]⟩

/-- A final message is sealed through its signature, and excludes the seal. -/
def sampleConflict : MaskSpec :=
  ⟨1, [⟨"final", 0, ["signed"], ["sealed"]⟩, ⟨"signed", 1, ["sealed"], []⟩, ⟨"sealed", 2, [], []⟩]⟩

theorem relations_decided_samples :
    (∃ mask, sampleLoop.resolve = .ok mask ∧
      sampleLoop.compile = .error (.cyclicImplication "open") ∧
      TransGen sampleLoop.Implies "open" "open" ∧
      (sampleLoop.LeadsTo "entered" "lit" ∧ ¬sampleLoop.LeadsTo "open" "entered")) ∧
    ∃ mask, sampleConflict.resolve = .ok mask ∧
      (∀ name, ¬TransGen sampleConflict.Implies name name) ∧
      sampleConflict.compile = .error (.conflictingFlags "final" "sealed") ∧
      sampleConflict.Contradicts "final" "sealed" := by
  constructor
  · obtain ⟨mask, passed⟩ : ∃ mask, sampleLoop.resolve = .ok mask := ⟨_, rfl⟩
    have outcome : sampleLoop.compile = .error (.cyclicImplication "open") := rfl
    obtain ⟨-, cyclic, -, closure⟩ := relations_decided passed
    cases passed
    have entered := (closure 0 "entered" ⟨_, rfl, rfl⟩).2
    have opened := (closure 1 "open" ⟨_, rfl, rfl⟩).2
    exact ⟨_, rfl, outcome, cyclic _ outcome, (entered "lit").mp (by decide +kernel),
      fun chain => absurd ((opened "entered").mpr chain) (by decide +kernel)⟩
  · obtain ⟨mask, passed⟩ : ∃ mask, sampleConflict.resolve = .ok mask := ⟨_, rfl⟩
    have outcome : sampleConflict.compile = .error (.conflictingFlags "final" "sealed") := rfl
    obtain ⟨cyclic, -, conflict, -⟩ := relations_decided passed
    have acyclic : ∀ name, ¬TransGen sampleConflict.Implies name name := by
      intro name around
      obtain ⟨_, blamed⟩ := cyclic.mpr ⟨name, around⟩
      rw [outcome] at blamed
      cases blamed
    exact ⟨mask, passed, acyclic, outcome, (conflict acyclic).2.1 _ _ outcome⟩

end MaskSpec

end RecordLayout
