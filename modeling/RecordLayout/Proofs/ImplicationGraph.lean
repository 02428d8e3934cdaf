/-
**The two searches through implications are right.**

`Implication.Leads` is the relation that the successor lists stand for. Both searches carry a bound
on their steps, and the bound never cuts them short: a path without repetition has room for every
index, and no index is explored twice.

* `cycle?_eq_none_iff`: the depth-first search finds nothing exactly when no index leads back to
  itself, and what it finds leads back to itself (`cycle?_eq_some`). An index is cleared once all its
  successors are, so from a cleared index every chain ends (`Ends`).
* `mem_closure_iff`: the stack of unexplored indices collects what an index leads to and nothing
  else, each once (`nodup_closure`).
-/

import Mathlib.Data.List.Perm.Subperm
import Mathlib.Data.List.Nodup
import Mathlib.Logic.Relation
import RecordLayout.Mask.Implication
import RecordLayout.Proofs.Outcome

namespace RecordLayout.Implication

open Relation

variable {next : Nat → List Nat} {count : Nat}

/-- One index leads to another directly. -/
def Leads (next : Nat → List Nat) (index other : Nat) : Prop := other ∈ next index

/-- Distinct indices below `count` are no more than `count`. -/
theorem length_le_of_nodup {indices : List Nat} (distinct : indices.Nodup)
    (within : ∀ index ∈ indices, index < count) : indices.length ≤ count := by
  have inside : indices ⊆ List.range count := fun index member =>
    List.mem_range.mpr (within index member)
  have fewer := (List.subperm_of_subset distinct inside).length_le
  rwa [List.length_range] at fewer

/-- As many distinct indices below `count` as there are leave none out. -/
theorem mem_of_length_ge {indices : List Nat} (distinct : indices.Nodup)
    (within : ∀ index ∈ indices, index < count) (many : count ≤ indices.length) {index : Nat}
    (inside : index < count) : index ∈ indices := by
  have below : indices ⊆ List.range count := fun index member =>
    List.mem_range.mpr (within index member)
  have whole := (List.subperm_of_subset distinct below).perm_of_length_le
    (by rwa [List.length_range])
  exact whole.mem_iff.mpr (List.mem_range.mpr inside)

/-! ### Searching for a cycle -/

/-- Every chain from the index ends. -/
def Ends (next : Nat → List Nat) (index : Nat) : Prop :=
  Acc (fun later earlier => Leads next earlier later) index

theorem Ends.not_cyclic {index : Nat} (ends : Ends next index) :
    ¬TransGen (Leads next) index index := by
  induction ends with
  | intro index _ ih =>
      intro around
      obtain ⟨other, first, back⟩ := TransGen.head'_iff.mp around
      exact ih other first (TransGen.tail' back first)

/-- **What a search reports is on a cycle**, if everything on its path leads to where it stands. -/
theorem cyclic_of_visit {depth : Nat} {path done : List Nat} {index culprit : Nat}
    (chain : ∀ earlier ∈ path, TransGen (Leads next) earlier index)
    (found : visit next depth path done index = .error culprit) :
    TransGen (Leads next) culprit culprit := by
  induction depth generalizing path done index with
  | zero =>
      rw [visit] at found
      split_ifs at found with cleared again
      · cases found
        exact chain _ again
  | succ depth ih =>
      rw [visit] at found
      split_ifs at found with cleared again
      · cases found
        exact chain _ again
      · obtain failed | ⟨_, -, impossible⟩ := bind_eq_error_iff.mp found
        · obtain ⟨other, leads, state, failed⟩ := exists_of_foldlM_eq_error failed
          refine ih (fun earlier member => ?_) failed
          rcases List.mem_cons.mp member with rfl | member
          · exact .single leads
          · exact (chain earlier member).tail leads
        · cases impossible

/-- A search step that clears the index it is given, and only indices from which every chain
ends. -/
def Clears (next : Nat → List Nat) (count : Nat)
    (step : List Nat → Nat → Except Nat (List Nat)) : Prop :=
  ∀ done index cleared, index < count → (∀ other ∈ done, Ends next other) →
    step done index = .ok cleared →
      index ∈ cleared ∧ done ⊆ cleared ∧ ∀ other ∈ cleared, Ends next other

/-- A run of such steps clears every index it is given. -/
theorem Clears.foldlM {step : List Nat → Nat → Except Nat (List Nat)}
    (clears : Clears next count step) {targets done cleared : List Nat}
    (inside : ∀ target ∈ targets, target < count) (ends : ∀ other ∈ done, Ends next other)
    (found : targets.foldlM step done = .ok cleared) :
    (∀ target ∈ targets, target ∈ cleared) ∧ done ⊆ cleared ∧
      ∀ other ∈ cleared, Ends next other := by
  induction targets generalizing done with
  | nil =>
      cases found
      exact ⟨by simp, List.Subset.refl _, ends⟩
  | cons target targets ih =>
      rw [List.foldlM_cons] at found
      obtain ⟨middle, first, rest⟩ := bind_eq_ok_iff.mp found
      rw [List.forall_mem_cons] at inside ⊢
      obtain ⟨here, kept, endsMiddle⟩ := clears done target middle inside.1 ends first
      obtain ⟨others, more, endsAll⟩ := ih inside.2 endsMiddle rest
      exact ⟨⟨more here, others⟩, List.Subset.trans kept more, endsAll⟩

/-- **A search clears the index it is given.** The path has no repetition, so before the bound is
used up the index is on it. -/
theorem clears_visit (closed : ∀ index, ∀ other ∈ next index, other < count) {depth : Nat}
    {path : List Nat} (distinct : path.Nodup) (within : ∀ index ∈ path, index < count)
    (deep : count ≤ path.length + depth) : Clears next count (visit next depth path) := by
  induction depth generalizing path with
  | zero =>
      intro done index cleared inside ends found
      rw [visit] at found
      split_ifs at found with known again
      · cases found
        exact ⟨known, List.Subset.refl _, ends⟩
      · exact absurd (mem_of_length_ge distinct within deep inside) again
  | succ depth ih =>
      intro done index cleared inside ends found
      rw [visit] at found
      split_ifs at found with known again
      · cases found
        exact ⟨known, List.Subset.refl _, ends⟩
      · obtain ⟨after, searched, same⟩ := bind_eq_ok_iff.mp found
        cases same
        have deeper : Clears next count (visit next depth (index :: path)) := by
          refine ih (List.nodup_cons.mpr ⟨again, distinct⟩) ?_ ?_
          · exact List.forall_mem_cons.mpr ⟨inside, within⟩
          · rw [List.length_cons]
            omega
        obtain ⟨successors, kept, endsAfter⟩ := deeper.foldlM (closed index) ends searched
        refine ⟨List.mem_cons_self, List.Subset.trans kept (List.subset_cons_self _ _), ?_⟩
        rw [List.forall_mem_cons]
        exact ⟨.intro index fun later leads => endsAfter later (successors later leads), endsAfter⟩

theorem cycle?_eq_some {culprit : Nat} (found : cycle? next count = some culprit) :
    TransGen (Leads next) culprit culprit := by
  unfold cycle? at found
  cases searched : (List.range count).foldlM (visit next count []) [] with
  | ok done =>
      rw [searched] at found
      cases found
  | error index =>
      rw [searched] at found
      cases found
      obtain ⟨start, -, state, failed⟩ := exists_of_foldlM_eq_error searched
      exact cyclic_of_visit (by simp) failed

/-- **The search finds nothing exactly when there is no cycle.** -/
theorem cycle?_eq_none_iff (closed : ∀ index, ∀ other ∈ next index, other < count) :
    cycle? next count = none ↔ ∀ index, ¬TransGen (Leads next) index index := by
  constructor
  · intro clear index around
    unfold cycle? at clear
    cases searched : (List.range count).foldlM (visit next count []) [] with
    | error culprit =>
        rw [searched] at clear
        cases clear
    | ok done =>
        have clears : Clears next count (visit next count []) :=
          clears_visit closed List.nodup_nil (by simp) (by simp)
        obtain ⟨all, -, ends⟩ := clears.foldlM (fun _ => List.mem_range.mp) (by simp) searched
        obtain ⟨before, -, last⟩ := TransGen.tail'_iff.mp around
        have inside : index < count := closed before index last
        exact (ends index (all index (List.mem_range.mpr inside))).not_cyclic around
  · intro acyclic
    cases found : cycle? next count with
    | none => rfl
    | some culprit => exact absurd (cycle?_eq_some found) (acyclic culprit)

/-! ### Collecting what an index leads to -/

namespace Frontier

/-- What taking note of `targets` does to a frontier. -/
structure Grows (targets : List Nat) (before after : Frontier) : Prop where
  kept : before.seen ⊆ after.seen
  noted : targets ⊆ after.seen
  origin : ∀ index ∈ after.seen, index ∈ before.seen ∨ index ∈ targets
  fresh : ∀ index ∈ after.seen, index ∈ before.seen ∨ index ∈ after.stack
  pending : before.stack ⊆ after.stack
  listed : before.stack ⊆ before.seen → after.stack ⊆ after.seen
  distinct : before.seen.Nodup → after.seen.Nodup
  balance : after.seen.length + before.stack.length = before.seen.length + after.stack.length

theorem Grows.refl (frontier : Frontier) : Grows [] frontier frontier where
  kept := List.Subset.refl _
  noted := List.nil_subset _
  origin _ member := .inl member
  fresh _ member := .inl member
  pending := List.Subset.refl _
  listed := id
  distinct := id
  balance := rfl

theorem Grows.trans {first second : List Nat} {before middle after : Frontier}
    (early : Grows first before middle) (late : Grows second middle after) :
    Grows (first ++ second) before after where
  kept := List.Subset.trans early.kept late.kept
  noted := List.append_subset.mpr ⟨List.Subset.trans early.noted late.kept, late.noted⟩
  origin index member := by
    rw [List.mem_append]
    rcases late.origin index member with old | new
    · exact (early.origin index old).imp_right .inl
    · exact .inr (.inr new)
  fresh index member := by
    rcases late.fresh index member with old | new
    · exact (early.fresh index old).imp_right fun waits => late.pending waits
    · exact .inr new
  pending := List.Subset.trans early.pending late.pending
  listed inside := late.listed (early.listed inside)
  distinct nodup := late.distinct (early.distinct nodup)
  balance := by
    have first := early.balance
    have second := late.balance
    omega

theorem grows_note (frontier : Frontier) (index : Nat) :
    Grows [index] frontier (frontier.note index) := by
  unfold note
  split
  · rename_i seen
    exact { Grows.refl frontier with
      noted := by simpa using seen
      origin := fun _ member => .inl member }
  · rename_i unseen
    exact {
      kept := List.subset_append_left _ _
      noted := List.subset_append_right _ _
      origin := fun _ member => List.mem_append.mp member
      fresh := fun other member => (List.mem_append.mp member).imp_right fun last => by
        rw [List.mem_singleton.mp last]
        exact List.mem_cons_self
      pending := List.subset_cons_self _ _
      listed := fun inside => List.cons_subset.mpr
        ⟨by simp, List.Subset.trans inside (List.subset_append_left _ _)⟩
      distinct := fun nodup => by
        rw [List.nodup_append]
        refine ⟨nodup, List.nodup_singleton _, fun first member second last => ?_⟩
        rw [List.mem_singleton.mp last]
        rintro rfl
        exact unseen member
      balance := by
        rw [List.length_append, List.length_singleton, List.length_cons]
        omega }

theorem grows_foldl (targets : List Nat) (frontier : Frontier) :
    Grows targets frontier (targets.foldl note frontier) := by
  induction targets generalizing frontier with
  | nil => exact Grows.refl frontier
  | cons target targets ih => exact (grows_note frontier target).trans (ih (frontier.note target))

/-- **The state of an exploration from `root`** with `steps` steps left. Every index enters the
stack once, so the steps that are left suffice to empty it. -/
structure Explores (next : Nat → List Nat) (count root steps : Nat) (frontier : Frontier) :
    Prop where
  rooted : root ∈ frontier.seen
  reached : ∀ index ∈ frontier.seen, ReflTransGen (Leads next) root index
  within : ∀ index ∈ frontier.seen, index < count
  distinct : frontier.seen.Nodup
  listed : frontier.stack ⊆ frontier.seen
  explored : ∀ index ∈ frontier.seen, index ∈ frontier.stack ∨ next index ⊆ frontier.seen
  budget : steps + frontier.seen.length = count + frontier.stack.length

/-- Exploring the top of the stack keeps the state. -/
theorem Explores.step {root steps top : Nat} {seen rest : List Nat}
    (closed : ∀ index, ∀ other ∈ next index, other < count)
    (explores : Explores next count root (steps + 1) ⟨seen, top :: rest⟩) :
    Explores next count root steps ((next top).foldl note ⟨seen, rest⟩) := by
  have grows := grows_foldl (next top) ⟨seen, rest⟩
  have topSeen : top ∈ seen := explores.listed List.mem_cons_self
  have restSeen : rest ⊆ seen := (List.cons_subset.mp explores.listed).2
  refine ⟨grows.kept explores.rooted, fun index member => ?_, fun index member => ?_,
    grows.distinct explores.distinct, grows.listed restSeen, fun index member => ?_, ?_⟩
  · rcases grows.origin index member with old | new
    · exact explores.reached index old
    · exact (explores.reached top topSeen).tail new
  · rcases grows.origin index member with old | new
    · exact explores.within index old
    · exact closed top index new
  · rcases grows.fresh index member with old | waits
    · rcases explores.explored index old with waits | done
      · rcases List.mem_cons.mp waits with rfl | waits
        · exact .inr grows.noted
        · exact .inl (grows.pending waits)
      · exact .inr (List.Subset.trans done grows.kept)
    · exact .inl waits
  · have before := explores.budget
    have balance := grows.balance
    simp only [List.length_cons] at before balance
    omega

/-- Once the stack is empty, everything that the root leads to has been seen. -/
theorem Explores.mem_iff {root steps : Nat} {seen : List Nat}
    (explores : Explores next count root steps ⟨seen, []⟩) (index : Nat) :
    index ∈ seen ↔ ReflTransGen (Leads next) root index := by
  refine ⟨explores.reached index, fun reaches => ?_⟩
  induction reaches with
  | refl => exact explores.rooted
  | @tail middle last _ leads ih =>
      rcases explores.explored middle ih with waits | done
      · cases waits
      · exact done leads

end Frontier

/-- An exploration ends with an empty stack. -/
theorem explore_eq {root steps : Nat} {frontier : Frontier}
    (closed : ∀ index, ∀ other ∈ next index, other < count)
    (explores : frontier.Explores next count root steps) :
    ∃ left, Frontier.Explores next count root left ⟨explore next steps frontier, []⟩ := by
  induction steps generalizing frontier with
  | zero =>
      obtain ⟨seen, stack⟩ := frontier
      have room := length_le_of_nodup explores.distinct explores.within
      have budget := explores.budget
      have empty : stack = [] := by
        rw [← List.length_eq_zero_iff]
        simp only at room budget
        omega
      subst empty
      exact ⟨0, explores⟩
  | succ steps ih =>
      obtain ⟨seen, stack⟩ := frontier
      cases stack with
      | nil => exact ⟨steps + 1, explores⟩
      | cons top rest => exact ih (explores.step closed)

section Closure

variable {root : Nat} (closed : ∀ index, ∀ other ∈ next index, other < count)
  (inside : root < count)

include closed inside

theorem explores_closure :
    ∃ left, Frontier.Explores next count root left ⟨closure next count root, []⟩ := by
  refine explore_eq closed ⟨by simp, ?_, ?_, by simp, by simp, by simp, by simp⟩
  · intro index member
    rw [List.mem_singleton.mp member]
  · intro index member
    rwa [List.mem_singleton.mp member]

/-- **The closure of an index is what it leads to.** -/
theorem mem_closure_iff (index : Nat) :
    index ∈ closure next count root ↔ ReflTransGen (Leads next) root index := by
  obtain ⟨left, explores⟩ := explores_closure closed inside
  exact explores.mem_iff index

theorem nodup_closure : (closure next count root).Nodup := by
  obtain ⟨left, explores⟩ := explores_closure closed inside
  exact explores.distinct

end Closure

end RecordLayout.Implication
