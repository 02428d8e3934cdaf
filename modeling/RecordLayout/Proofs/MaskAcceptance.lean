/-
**A mask is accepted exactly when it is well formed.**

Compiling a mask replaces the names in its relations by indices. `Named` ties an index to the name of
the flag that stands there. It is a bisimulation: what an index leads to directly is named by what
its name implies directly, and the other way round (`Resolution.leads`, `Resolution.implies`). So
chains of implications are the same on both sides, and the two searches through indices decide the
conditions on names.

* `Resolution`: a list of flags with names and the same list with indices.
* `Resolution.cyclic?_eq_none_iff`, `Resolution.conflicting?_eq_none_iff`: the two checks.
* `MaskSpec.exists_compile_iff`: compiling succeeds exactly on well-formed masks.
-/

import RecordLayout.Proofs.ImplicationGraph
import RecordLayout.Proofs.ValidLayout
import RecordLayout.Proofs.WellFormed

namespace RecordLayout

open Relation

/-- A relation that follows every step follows every chain. -/
theorem exists_reflTransGen_of_step {α β : Type} {first : α → α → Prop} {second : β → β → Prop}
    (related : α → β → Prop)
    (step : ∀ {source image target}, related source image → first source target →
      ∃ other, related target other ∧ second image other)
    {source target : α} {image : β} (start : related source image)
    (chain : ReflTransGen first source target) :
    ∃ other, related target other ∧ ReflTransGen second image other := by
  induction chain with
  | refl => exact ⟨image, start, .refl⟩
  | tail _ last ih =>
      obtain ⟨middle, here, reached⟩ := ih
      obtain ⟨other, there, next⟩ := step here last
      exact ⟨other, there, reached.tail next⟩

/-- A relation that follows every step follows every chain that is not empty. -/
theorem exists_transGen_of_step {α β : Type} {first : α → α → Prop} {second : β → β → Prop}
    (related : α → β → Prop)
    (step : ∀ {source image target}, related source image → first source target →
      ∃ other, related target other ∧ second image other)
    {source target : α} {image : β} (start : related source image)
    (chain : TransGen first source target) :
    ∃ other, related target other ∧ TransGen second image other := by
  obtain ⟨middle, leading, last⟩ := TransGen.tail'_iff.mp chain
  obtain ⟨between, here, reached⟩ := exists_reflTransGen_of_step related step start leading
  obtain ⟨other, there, next⟩ := step here last
  exact ⟨other, there, TransGen.tail' reached next⟩

/-! ### Flags one by one -/

theorem Flag.clash?_eq_none_iff {flag earlier : Flag String} :
    flag.clash? earlier = none ↔ earlier.name ≠ flag.name ∧ earlier.bit ≠ flag.bit := by
  unfold Flag.clash?
  split_ifs <;> simp_all

theorem Flag.fault?_eq_none_iff {bits : Nat} (earlier : List (Flag String)) (flag : Flag String) :
    flag.fault? bits earlier = none ↔ (flag.name ≠ "" ∧ flag.bit.toNat < bits) ∧
      ∀ other ∈ earlier, other.name ≠ flag.name ∧ other.bit ≠ flag.bit := by
  unfold Flag.fault?
  split_ifs with unnamed outside
  · simp [unnamed]
  · exact iff_of_false (by simp) fun clear => absurd clear.1.2 (Nat.not_lt.mpr outside)
  · simp only [List.findSome?_eq_none_iff, Flag.clash?_eq_none_iff]
    simp [unnamed, Nat.lt_of_not_le outside]

/-- Names that are all declared have indices. -/
theorem Flag.indices_eq_ok_iff {flags : List (Flag String)} {names : List String}
    {indices : List Nat} :
    Flag.indices flags names = .ok indices ↔
      List.Forall₂ (fun name index => flags.findIdx? (·.name == name) = some index) names
        indices := by
  rw [Flag.indices, mapM_eq_ok_iff]
  refine iff_of_eq (congrArg (List.Forall₂ · names indices) ?_)
  funext name index
  cases flags.findIdx? (·.name == name) <;> simp

/-- The flag with the names in its relations replaced by the indices they stand for. -/
structure Flag.ResolvesTo (flags : List (Flag String)) (flag : Flag String) (resolved : Flag Nat) :
    Prop where
  name : resolved.name = flag.name
  bit : resolved.bit = flag.bit
  implies : List.Forall₂ (fun name index => flags.findIdx? (·.name == name) = some index)
    flag.implies resolved.implies
  excludes : List.Forall₂ (fun name index => flags.findIdx? (·.name == name) = some index)
    flag.excludes resolved.excludes

theorem Flag.resolve_eq_ok_iff {flags : List (Flag String)} {flag : Flag String}
    {resolved : Flag Nat} : flag.resolve flags = .ok resolved ↔ flag.ResolvesTo flags resolved := by
  simp only [Flag.resolve, bind_eq_ok_iff, Flag.indices_eq_ok_iff, pure_eq_ok_iff]
  constructor
  · rintro ⟨implies, first, excludes, second, rfl⟩
    exact ⟨rfl, rfl, first, second⟩
  · rintro ⟨name, bit, first, second⟩
    refine ⟨_, first, _, second, ?_⟩
    rw [← name, ← bit]

/-! ### The two checks -/

namespace Mask

variable {mask : Mask}

theorem cyclic?_eq_none_iff_leads
    (closed : ∀ index, ∀ other ∈ mask.implied index, other < mask.flags.length) :
    mask.cyclic? = none ↔ ∀ index, ¬TransGen (Implication.Leads mask.implied) index index := by
  rw [cyclic?, Option.map_eq_none_iff, Implication.cycle?_eq_none_iff closed]

theorem conflicting?_eq_none_iff_closure :
    mask.conflicting? = none ↔ ∀ index < mask.flags.length, ∀ member ∈ mask.closure index,
      ∀ other ∈ mask.excluded member, other ∉ mask.closure index := by
  simp only [conflicting?, contradiction?, List.findSome?_eq_none_iff, List.mem_range,
    Option.map_eq_none_iff, List.find?_eq_none, decide_eq_true_eq]

end Mask

/-! ### Names and indices -/

/-- A mask and its description: the same flags, with indices in place of names. -/
structure Resolution (spec : MaskSpec) (mask : Mask) : Prop where
  names : (spec.flags.map (·.name)).Nodup
  each : List.Forall₂ (Flag.ResolvesTo spec.flags) spec.flags mask.flags

/-- The flag at `index` has the name. -/
def MaskSpec.Named (spec : MaskSpec) (index : Nat) (name : String) : Prop :=
  ∃ flag, spec.flags[index]? = some flag ∧ flag.name = name

namespace MaskSpec

variable {spec : MaskSpec} {index other : Nat} {name label : String}

theorem exists_named {flag : Flag String} (member : flag ∈ spec.flags) :
    ∃ index, spec.Named index flag.name := by
  obtain ⟨index, there⟩ := List.mem_iff_getElem?.mp member
  exact ⟨index, flag, there, rfl⟩

theorem Named.unique (named : spec.Named index name) (again : spec.Named index label) :
    name = label := by
  obtain ⟨flag, there, rfl⟩ := named
  obtain ⟨same, again, rfl⟩ := again
  rw [there] at again
  cases again
  rfl

theorem Named.injective (names : (spec.flags.map (·.name)).Nodup) (named : spec.Named index name)
    (again : spec.Named other name) : index = other := by
  obtain ⟨flag, there, rfl⟩ := named
  obtain ⟨twin, elsewhere, same⟩ := again
  exact index_eq_of_nodup names there elsewhere same

/-- The first flag with a name has it. -/
theorem named_of_findIdx? (found : spec.flags.findIdx? (·.name == name) = some index) :
    spec.Named index name := by
  obtain ⟨inside, same, -⟩ := List.findIdx?_eq_some_iff_getElem.mp found
  exact ⟨spec.flags[index], List.getElem?_eq_getElem inside, beq_iff_eq.mp same⟩

end MaskSpec

namespace Resolution

variable {spec : MaskSpec} {mask : Mask} {index other : Nat} {name label : String}

theorem exists_resolved (resolution : Resolution spec mask) {flag : Flag String}
    (there : spec.flags[index]? = some flag) :
    ∃ resolved, mask.flags[index]? = some resolved ∧ flag.ResolvesTo spec.flags resolved := by
  obtain ⟨inside, rfl⟩ := List.getElem?_eq_some_iff.mp there
  have insideToo : index < mask.flags.length := resolution.each.length_eq ▸ inside
  exact ⟨mask.flags[index], List.getElem?_eq_getElem insideToo,
    resolution.each.get inside insideToo⟩

theorem exists_flag (resolution : Resolution spec mask) {resolved : Flag Nat}
    (there : mask.flags[index]? = some resolved) :
    ∃ flag, spec.flags[index]? = some flag ∧ flag.ResolvesTo spec.flags resolved := by
  obtain ⟨inside, rfl⟩ := List.getElem?_eq_some_iff.mp there
  have insideToo : index < spec.flags.length := resolution.each.length_eq ▸ inside
  exact ⟨spec.flags[index], List.getElem?_eq_getElem insideToo,
    resolution.each.get insideToo inside⟩

/-- The indices in one of the relations of a flag are named by the names there. -/
theorem named_of_mem {names : List String} {indices : List Nat}
    (each : List.Forall₂ (fun name index => spec.flags.findIdx? (·.name == name) = some index)
      names indices) :
    (∀ index ∈ indices, ∃ name ∈ names, spec.Named index name) ∧
      ∀ name ∈ names, ∃ index ∈ indices, spec.Named index name := by
  constructor
  · intro index member
    obtain ⟨name, inside, found⟩ := exists_entry_of_mem each member
    exact ⟨name, inside, MaskSpec.named_of_findIdx? found⟩
  · intro name member
    obtain ⟨index, inside, found⟩ := exists_entry_of_mem each.flip member
    exact ⟨index, inside, MaskSpec.named_of_findIdx? found⟩

/-- What an index leads to is named by what its name implies. -/
theorem leads (resolution : Resolution spec mask) (named : spec.Named index name)
    (leads : Implication.Leads mask.implied index other) :
    ∃ label, spec.Named other label ∧ spec.Implies name label := by
  obtain ⟨flag, there, rfl⟩ := named
  obtain ⟨resolved, present, resolves⟩ := resolution.exists_resolved there
  simp only [Implication.Leads, Mask.implied, present] at leads
  obtain ⟨label, member, named⟩ := (named_of_mem resolves.implies).1 other leads
  exact ⟨label, named, flag, List.mem_of_getElem? there, rfl, member⟩

/-- What a name implies names what its index leads to. -/
theorem implies (resolution : Resolution spec mask) (named : spec.Named index name)
    (implies : spec.Implies name label) :
    ∃ other, spec.Named other label ∧ Implication.Leads mask.implied index other := by
  obtain ⟨flag, declared, rfl, member⟩ := implies
  obtain ⟨position, there⟩ := List.mem_iff_getElem?.mp declared
  have same : index = position := named.injective resolution.names ⟨flag, there, rfl⟩
  subst same
  obtain ⟨resolved, present, resolves⟩ := resolution.exists_resolved there
  obtain ⟨other, inside, named⟩ := (named_of_mem resolves.implies).2 label member
  exact ⟨other, named, by simpa only [Implication.Leads, Mask.implied, present] using inside⟩

/-- One index excludes another exactly when its name excludes the name of the other. -/
theorem mem_excluded_iff (resolution : Resolution spec mask) (named : spec.Named index name)
    (otherNamed : spec.Named other label) :
    other ∈ mask.excluded index ↔ spec.Excludes name label := by
  obtain ⟨flag, there, rfl⟩ := named
  obtain ⟨resolved, present, resolves⟩ := resolution.exists_resolved there
  have related := named_of_mem resolves.excludes
  simp only [Mask.excluded, present]
  constructor
  · intro excluded
    obtain ⟨name, member, again⟩ := related.1 other excluded
    rw [otherNamed.unique again]
    exact ⟨flag, List.mem_of_getElem? there, rfl, member⟩
  · rintro ⟨same, declared, equal, member⟩
    obtain ⟨position, elsewhere⟩ := List.mem_iff_getElem?.mp declared
    have one : index = position := MaskSpec.Named.injective resolution.names ⟨flag, there, rfl⟩
      ⟨same, elsewhere, equal⟩
    subst one
    rw [there] at elsewhere
    cases elsewhere
    obtain ⟨found, inside, again⟩ := related.2 label member
    rwa [otherNamed.injective resolution.names again]

/-- Relations lead to flags of the mask. -/
theorem lt_of_leads (resolution : Resolution spec mask) :
    ∀ index, ∀ other ∈ mask.implied index, other < mask.flags.length := by
  intro index other leads
  unfold Mask.implied at leads
  split at leads
  · rename_i resolved present
    obtain ⟨flag, there, resolves⟩ := resolution.exists_flag present
    obtain ⟨label, -, target, found, -⟩ := (named_of_mem resolves.implies).1 other leads
    rw [← resolution.each.length_eq]
    exact (List.getElem?_eq_some_iff.mp found).1
  · cases leads

theorem lt_of_named (resolution : Resolution spec mask) (named : spec.Named index name) :
    index < mask.flags.length := by
  obtain ⟨flag, there, -⟩ := named
  rw [← resolution.each.length_eq]
  exact (List.getElem?_eq_some_iff.mp there).1

theorem exists_name (resolution : Resolution spec mask) (inside : index < mask.flags.length) :
    ∃ name, spec.Named index name := by
  obtain ⟨flag, there, -⟩ := resolution.exists_flag (List.getElem?_eq_getElem inside)
  exact ⟨flag.name, flag, there, rfl⟩

/-- Every name in a relation is that of a flag. -/
theorem resolved (resolution : Resolution spec mask) :
    ∀ flag ∈ spec.flags, ∀ name ∈ flag.implies ++ flag.excludes,
      ∃ other ∈ spec.flags, other.name = name := by
  intro flag member name mentioned
  obtain ⟨resolved, -, resolves⟩ := exists_entry_of_mem resolution.each.flip member
  have named : ∃ index, spec.Named index name := by
    rcases List.mem_append.mp mentioned with implied | excluded
    · exact ((named_of_mem resolves.implies).2 name implied).imp fun _ => And.right
    · exact ((named_of_mem resolves.excludes).2 name excluded).imp fun _ => And.right
  obtain ⟨index, other, there, same⟩ := named
  exact ⟨other, List.mem_of_getElem? there, same⟩

/-- **No chain of implications returns to its start**, exactly when the search finds none. -/
theorem cyclic?_eq_none_iff (resolution : Resolution spec mask) :
    mask.cyclic? = none ↔ ∀ name, ¬TransGen spec.Implies name name := by
  rw [Mask.cyclic?_eq_none_iff_leads resolution.lt_of_leads]
  constructor
  · intro acyclic name around
    obtain ⟨_, ⟨flag, declared, rfl, -⟩, -⟩ := TransGen.head'_iff.mp around
    obtain ⟨index, named⟩ := MaskSpec.exists_named declared
    obtain ⟨other, again, chain⟩ := exists_transGen_of_step (fun name index => spec.Named index name)
      resolution.implies named around
    rw [← named.injective resolution.names again] at chain
    exact acyclic index chain
  · intro acyclic index around
    obtain ⟨before, -, last⟩ := TransGen.tail'_iff.mp around
    obtain ⟨name, named⟩ := resolution.exists_name (resolution.lt_of_leads before index last)
    obtain ⟨label, again, chain⟩ :=
      exists_transGen_of_step spec.Named resolution.leads named around
    rw [← named.unique again] at chain
    exact acyclic _ chain

/-- The closure of a flag holds the flags that its name leads to. -/
theorem mem_closure_iff (resolution : Resolution spec mask) (named : spec.Named index name)
    (otherNamed : spec.Named other label) :
    other ∈ mask.closure index ↔ spec.LeadsTo name label := by
  rw [Mask.closure,
    Implication.mem_closure_iff resolution.lt_of_leads (resolution.lt_of_named named)]
  constructor
  · intro chain
    obtain ⟨reached, again, chain⟩ :=
      exists_reflTransGen_of_step spec.Named resolution.leads named chain
    rwa [otherNamed.unique again]
  · intro chain
    obtain ⟨reached, again, chain⟩ := exists_reflTransGen_of_step
      (fun name index => spec.Named index name) resolution.implies named chain
    rwa [otherNamed.injective resolution.names again]

theorem lt_of_closure (resolution : Resolution spec mask) (inside : index < mask.flags.length)
    (reached : other ∈ mask.closure index) : other < mask.flags.length := by
  rw [Mask.closure, Implication.mem_closure_iff resolution.lt_of_leads inside] at reached
  rcases ReflTransGen.cases_tail reached with same | ⟨before, -, last⟩
  · exact same ▸ inside
  · exact resolution.lt_of_leads before other last

/-- **No flag leads to a flag that it also leads to clearing**, exactly when the search finds
none. -/
theorem conflicting?_eq_none_iff (resolution : Resolution spec mask) :
    mask.conflicting? = none ↔ ∀ flag ∈ spec.flags, ∀ first second,
      spec.LeadsTo flag.name first → spec.LeadsTo flag.name second →
        ¬spec.Excludes first second := by
  rw [Mask.conflicting?_eq_none_iff_closure]
  constructor
  · intro clear flag declared first second toFirst toSecond excludes
    obtain ⟨index, named⟩ := MaskSpec.exists_named declared
    obtain ⟨member, firstNamed, -⟩ := exists_reflTransGen_of_step
      (fun name index => spec.Named index name) resolution.implies named toFirst
    obtain ⟨other, secondNamed, -⟩ := exists_reflTransGen_of_step
      (fun name index => spec.Named index name) resolution.implies named toSecond
    refine clear index (resolution.lt_of_named named) member ?_ other ?_ ?_
    · exact (resolution.mem_closure_iff named firstNamed).mpr toFirst
    · exact (resolution.mem_excluded_iff firstNamed secondNamed).mpr excludes
    · exact (resolution.mem_closure_iff named secondNamed).mpr toSecond
  · intro consistent index inside member reached other excluded again
    obtain ⟨flag, there, -⟩ := resolution.exists_flag (List.getElem?_eq_getElem inside)
    have named : spec.Named index flag.name := ⟨flag, there, rfl⟩
    obtain ⟨first, firstNamed⟩ := resolution.exists_name (resolution.lt_of_closure inside reached)
    obtain ⟨second, secondNamed⟩ := resolution.exists_name (resolution.lt_of_closure inside again)
    refine consistent flag (List.mem_of_getElem? there) first second ?_ ?_ ?_
    · exact (resolution.mem_closure_iff named firstNamed).mp reached
    · exact (resolution.mem_closure_iff named secondNamed).mp again
    · exact (resolution.mem_excluded_iff firstNamed secondNamed).mp excluded

end Resolution

/-! ### Whole masks -/

namespace MaskSpec

variable {spec : MaskSpec} {mask : Mask}

/-- **The outcome of resolving a mask**: the flags are told apart, and they have indices. -/
theorem resolve_eq_ok_iff :
    spec.resolve = .ok mask ↔
      (1 ≤ spec.width ∧ spec.width ≤ 8) ∧
      (∀ flag ∈ spec.flags, flag.name ≠ "" ∧ flag.bit.toNat < 8 * spec.width.toNat) ∧
      (spec.flags.map (·.bit)).Nodup ∧ mask.width = spec.width.toNat ∧ Resolution spec mask := by
  have width : ¬(spec.width = 0 ∨ maxWidth < spec.width) ↔ 1 ≤ spec.width ∧ spec.width ≤ 8 := by
    simp only [maxWidth, UInt64.lt_iff_toNat_lt, UInt64.le_iff_toNat_le, ← UInt64.toNat_inj]
    simp only [UInt64.toNat_ofNat]
    omega
  simp only [MaskSpec.resolve, guard_eq_ok_iff, bind_eq_ok_iff, raise_eq_ok_iff, pure_eq_ok_iff,
    mapM_eq_ok_iff, Flag.resolve_eq_ok_iff, width,
    firstFault?_eq_none_iff_nodup Flag.fault?_eq_none_iff]
  constructor
  · rintro ⟨size, _, ⟨apart, names, bits⟩, flags, each, rfl⟩
    exact ⟨size, apart, bits, rfl, ⟨names, each⟩⟩
  · rintro ⟨size, apart, bits, same, ⟨names, each⟩⟩
    obtain ⟨_, flags⟩ := mask
    cases same
    exact ⟨size, (), ⟨apart, names, bits⟩, flags, each, rfl⟩

/-- **The outcome of compiling a mask**: it has been resolved, and the two searches find nothing. -/
theorem compile_eq_ok_iff :
    spec.compile = .ok mask ↔
      (1 ≤ spec.width ∧ spec.width ≤ 8) ∧
      (∀ flag ∈ spec.flags, flag.name ≠ "" ∧ flag.bit.toNat < 8 * spec.width.toNat) ∧
      (spec.flags.map (·.bit)).Nodup ∧ mask.width = spec.width.toNat ∧ Resolution spec mask ∧
      mask.cyclic? = none ∧ mask.conflicting? = none := by
  simp only [MaskSpec.compile, bind_eq_ok_iff, raise_eq_ok_iff, pure_eq_ok_iff, resolve_eq_ok_iff]
  constructor
  · rintro ⟨_, ⟨size, apart, bits, width, resolution⟩, _, acyclic, _, consistent, rfl⟩
    exact ⟨size, apart, bits, width, resolution, acyclic, consistent⟩
  · rintro ⟨size, apart, bits, width, resolution, acyclic, consistent⟩
    exact ⟨mask, ⟨size, apart, bits, width, resolution⟩, (), acyclic, (), consistent, rfl⟩

/-- Flags whose relations name flags of the mask have indices. -/
theorem exists_resolution (wellFormed : spec.WellFormed) :
    ∃ mask : Mask, mask.width = spec.width.toNat ∧ Resolution spec mask := by
  have index (name : String) (declared : ∃ other ∈ spec.flags, other.name = name) :
      ∃ index, spec.flags.findIdx? (·.name == name) = some index := by
    obtain ⟨other, member, rfl⟩ := declared
    have found : (spec.flags.findIdx? (·.name == other.name)).isSome := by
      rw [List.findIdx?_isSome, List.any_eq_true]
      exact ⟨other, member, by simp⟩
    exact Option.isSome_iff_exists.mp found
  have each : ∀ flag ∈ spec.flags, ∃ resolved, flag.ResolvesTo spec.flags resolved := by
    intro flag member
    have declared := wellFormed.resolved flag member
    obtain ⟨implies, first⟩ := exists_forall₂ fun name inside =>
      index name (declared name (List.mem_append_left _ inside))
    obtain ⟨excludes, second⟩ := exists_forall₂ fun name inside =>
      index name (declared name (List.mem_append_right _ inside))
    exact ⟨⟨flag.name, flag.bit, implies, excludes⟩, rfl, rfl, first, second⟩
  obtain ⟨flags, each⟩ := exists_forall₂ each
  exact ⟨⟨spec.width.toNat, flags⟩, rfl, wellFormed.names, each⟩

/-- **A mask is accepted exactly when it is well formed.** -/
theorem exists_compile_iff : (∃ mask, spec.compile = .ok mask) ↔ spec.WellFormed := by
  constructor
  · rintro ⟨mask, compiled⟩
    obtain ⟨width, apart, bits, -, resolution, acyclic, consistent⟩ := compile_eq_ok_iff.mp compiled
    exact {
      width
      bits
      named := fun flag member => (apart flag member).1
      inside := fun flag member => (apart flag member).2
      names := resolution.names
      resolved := resolution.resolved
      acyclic := resolution.cyclic?_eq_none_iff.mp acyclic
      consistent := resolution.conflicting?_eq_none_iff.mp consistent }
  · intro wellFormed
    obtain ⟨mask, width, resolution⟩ := exists_resolution wellFormed
    refine ⟨mask, compile_eq_ok_iff.mpr ⟨wellFormed.width, fun flag member => ?_, wellFormed.bits,
      width, resolution, ?_, ?_⟩⟩
    · exact ⟨wellFormed.named flag member, wellFormed.inside flag member⟩
    · exact resolution.cyclic?_eq_none_iff.mpr wellFormed.acyclic
    · exact resolution.conflicting?_eq_none_iff.mpr wellFormed.consistent

end MaskSpec

end RecordLayout
