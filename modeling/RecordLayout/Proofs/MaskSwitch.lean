/-
**What setting a flag does.**

Setting a flag clears what it excludes and goes on to the flags it implies, one after the other. A
flag can come up many times on the way, and what is cleared late could undo what was set early. In a
compiled mask it does not: no flag of a chain excludes another one of it (`Mask.Coherent`).

* `Mask.SetsAll` is the recursion without a bound on its depth. A mask without cycles has a run of it
  for every flag, and the bounded recursion is that run (`Mask.setsAll_iff_switch`).
* `Mask.Effect`: after a change some flags are set, some are clear, and every other bit is what it was.
  Changes in a row add up as long as none of them clears what another one sets (`Effect.trans`).
* `Mask.SetsAll.effect`: a run sets everything it leads to, and clears what that excludes. The effect
  says what every bit is, so it determines the bytes (`Effect.unique`).
* `Mask.switch_effect`: all of it, for compiled masks.
-/

import RecordLayout.Proofs.BitString
import RecordLayout.Proofs.MaskAcceptance

namespace RecordLayout

open Relation

namespace Mask

/-! ### Relations between flags -/

/-- The bit at `position` is that of the flag at `index`. -/
def Owns (mask : Mask) (index position : Nat) : Prop :=
  ∃ flag, mask.flags[index]? = some flag ∧ flag.bit.toNat = position

/-- One flag leads to another, through any number of implications. -/
def Reaches (mask : Mask) : Nat → Nat → Prop := ReflTransGen (Implication.Leads mask.implied)

/-- One flag leads to a flag that excludes another. -/
def Bars (mask : Mask) (index other : Nat) : Prop :=
  ∃ member, mask.Reaches index member ∧ other ∈ mask.excluded member

theorem reaches_iff (mask : Mask) (index other : Nat) :
    mask.Reaches index other ↔ other = index ∨ ∃ next ∈ mask.implied index, mask.Reaches next other :=
  ReflTransGen.cases_head_iff.trans (or_congr_left eq_comm)

theorem bars_iff (mask : Mask) (index other : Nat) :
    mask.Bars index other ↔
      other ∈ mask.excluded index ∨ ∃ next ∈ mask.implied index, mask.Bars next other := by
  constructor
  · rintro ⟨member, reached, excluded⟩
    obtain rfl | ⟨next, leads, later⟩ := (mask.reaches_iff index member).mp reached
    · exact .inl excluded
    · exact .inr ⟨next, leads, member, later, excluded⟩
  · rintro (excluded | ⟨next, leads, member, later, excluded⟩)
    · exact ⟨index, .refl, excluded⟩
    · exact ⟨member, .head leads later, excluded⟩

variable {mask : Mask} {index : Nat} {bytes : Bytes}

/-- **The flags of a mask are apart and do not contradict each other.** -/
structure Coherent (mask : Mask) : Prop where
  closed : ∀ index, ∀ other ∈ mask.implied index, other < mask.flags.length
  acyclic : ∀ index, ¬TransGen (Implication.Leads mask.implied) index index
  consistent : ∀ index < mask.flags.length, ∀ other, mask.Reaches index other →
    ¬mask.Bars index other
  apart : ∀ index other position, mask.Owns index position → mask.Owns other position →
    index = other
  inside : ∀ index position, mask.Owns index position → position < 8 * mask.width

/-- Compiling a mask makes it coherent. -/
theorem coherent_of_compile {spec : MaskSpec} (compiled : spec.compile = .ok mask) :
    mask.Coherent := by
  obtain ⟨-, flags, bits, width, resolution, acyclic, consistent⟩ :=
    MaskSpec.compile_eq_ok_iff.mp compiled
  have closed := resolution.lt_of_leads
  have distinct : (mask.flags.map (·.bit)).Nodup := by
    rwa [map_eq_of_forall₂ resolution.each fun _ _ _ resolves => resolves.bit]
  refine ⟨closed, (cyclic?_eq_none_iff_leads closed).mp acyclic, ?_, ?_, ?_⟩
  · rintro index declared other reached ⟨member, reachedToo, excluded⟩
    have closure (target : Nat) : target ∈ mask.closure index ↔ mask.Reaches index target :=
      Implication.mem_closure_iff closed declared target
    exact conflicting?_eq_none_iff_closure.mp consistent index declared member
      ((closure member).mpr reachedToo) other excluded ((closure other).mpr reached)
  · rintro index other position ⟨flag, here, rfl⟩ ⟨twin, there, equal⟩
    exact index_eq_of_nodup distinct here there (UInt64.toNat_inj.mp equal)
  · rintro index position ⟨flag, here, rfl⟩
    obtain ⟨described, declared, resolves⟩ := resolution.exists_flag here
    rw [width, resolves.bit]
    exact (flags described (List.mem_of_getElem? declared)).2

/-! ### Changes of single bits, and changes in a row -/

/-- **What a change does to the bits**: the flags that it sets are set, those that it clears are
clear, and every bit of no such flag is what it was. -/
structure Effect (mask : Mask) (sets clears : Nat → Prop) (before after : Bytes) : Prop where
  length : after.length = before.length
  set : ∀ index position, sets index → mask.Owns index position →
    Bits.read after position = .ok true
  cleared : ∀ index position, clears index → mask.Owns index position →
    Bits.read after position = .ok false
  kept : ∀ position, (∀ index, sets index ∨ clears index → ¬mask.Owns index position) →
    Bits.read after position = Bits.read before position

namespace Effect

variable {sets clears sets' clears' : Nat → Prop} {before middle after : Bytes}

theorem refl (bytes : Bytes) : mask.Effect (fun _ => False) (fun _ => False) bytes bytes :=
  ⟨rfl, fun _ _ none => none.elim, fun _ _ none => none.elim, fun _ _ => rfl⟩

theorem congr (effect : mask.Effect sets clears before after)
    (sameSets : ∀ index, sets' index ↔ sets index)
    (sameClears : ∀ index, clears' index ↔ clears index) :
    mask.Effect sets' clears' before after := by
  have first : sets' = sets := funext fun index => propext (sameSets index)
  have second : clears' = clears := funext fun index => propext (sameClears index)
  rwa [first, second]

/-- **Changes in a row add up**, as long as none of them clears what another one sets. -/
theorem trans (coherent : mask.Coherent) (first : mask.Effect sets clears before middle)
    (second : mask.Effect sets' clears' middle after)
    (apart : ∀ index, sets index ∨ sets' index → ¬(clears index ∨ clears' index)) :
    mask.Effect (fun index => sets index ∨ sets' index) (fun index => clears index ∨ clears' index)
      before after := by
  -- what the second change does not name stays what the first one made it
  have untouched {index position : Nat} (owned : mask.Owns index position)
      (unnamed : ¬(sets' index ∨ clears' index)) :
      Bits.read after position = Bits.read middle position := by
    refine second.kept position fun other named owns => unnamed ?_
    rwa [coherent.apart index other position owned owns]
  refine ⟨second.length.trans first.length, ?_, ?_, ?_⟩
  · intro index position named owned
    by_cases again : sets' index
    · exact second.set index position again owned
    · have unnamed : ¬(sets' index ∨ clears' index) := by
        rintro (set | cleared)
        · exact again set
        · exact apart index named (.inr cleared)
      rw [untouched owned unnamed]
      exact first.set index position (named.resolve_right again) owned
  · intro index position named owned
    by_cases again : clears' index
    · exact second.cleared index position again owned
    · have unnamed : ¬(sets' index ∨ clears' index) := by
        rintro (set | cleared)
        · exact apart index (.inr set) named
        · exact again cleared
      rw [untouched owned unnamed]
      exact first.cleared index position (named.resolve_right again) owned
  · intro position unnamed
    rw [second.kept position, first.kept position]
    · exact fun index named => unnamed index (named.imp .inl .inl)
    · exact fun index named => unnamed index (named.imp .inr .inr)

/-- **An effect determines the bytes.** -/
theorem unique (first : mask.Effect sets clears before middle)
    (second : mask.Effect sets clears before after) : middle = after := by
  apply Bits.eq_of_read_eq (first.length.trans second.length.symm)
  intro position _
  by_cases named : ∃ index, (sets index ∨ clears index) ∧ mask.Owns index position
  · obtain ⟨index, set | cleared, owned⟩ := named
    · rw [first.set index position set owned, second.set index position set owned]
    · rw [first.cleared index position cleared owned, second.cleared index position cleared owned]
  · have unnamed : ∀ index, sets index ∨ clears index → ¬mask.Owns index position :=
      fun index changed owned => named ⟨index, changed, owned⟩
    rw [first.kept position unnamed, second.kept position unnamed]

end Effect

/-- Writing the bit of a flag. -/
theorem effect_writeOwn (coherent : mask.Coherent) (whole : bytes.length = mask.width) (index : Nat)
    (on : Bool) :
    mask.Effect (fun other => on = true ∧ other = index) (fun other => on = false ∧ other = index)
      bytes (mask.writeOwn bytes index on) := by
  have written {position : Nat} (owned : mask.Owns index position) :
      Bits.read (mask.writeOwn bytes index on) position = .ok on := by
    have room : position < 8 * bytes.length := whole ▸ coherent.inside index position owned
    obtain ⟨flag, here, rfl⟩ := owned
    rw [writeOwn, here]
    exact Bits.read_write_self room on
  refine ⟨mask.length_writeOwn bytes index on, ?_, ?_, ?_⟩
  · rintro _ position ⟨rfl, rfl⟩ owned
    exact written owned
  · rintro _ position ⟨rfl, rfl⟩ owned
    exact written owned
  · intro position unnamed
    have other : ¬mask.Owns index position := by
      refine unnamed index ?_
      cases on <;> simp
    unfold writeOwn
    split
    · rename_i flag here
      exact Bits.read_write_of_ne (fun same => other ⟨flag, here, same.symm⟩) bytes on
    · rfl

/-- Clearing flags in a row. -/
theorem effect_clear (coherent : mask.Coherent) (targets : List Nat)
    (whole : bytes.length = mask.width) :
    mask.Effect (fun _ => False) (· ∈ targets) bytes
      (targets.foldl (fun bytes other => mask.writeOwn bytes other false) bytes) := by
  induction targets generalizing bytes with
  | nil => exact (Effect.refl bytes).congr (by simp) (by simp)
  | cons target rest ih =>
      have first := effect_writeOwn coherent whole target false
      refine (first.trans coherent (ih (first.length.trans whole)) (by simp)).congr ?_ ?_
      · simp
      · simp [List.mem_cons]

/-- Sets the flag at `index` and clears what it excludes. -/
def setAlone (mask : Mask) (bytes : Bytes) (index : Nat) : Bytes :=
  (mask.excluded index).foldl (fun bytes other => mask.writeOwn bytes other false)
    (mask.writeOwn bytes index true)

theorem effect_setAlone (coherent : mask.Coherent) (whole : bytes.length = mask.width)
    (apart : index ∉ mask.excluded index) :
    mask.Effect (· = index) (· ∈ mask.excluded index) bytes (mask.setAlone bytes index) := by
  have own := effect_writeOwn coherent whole index true
  have others := effect_clear coherent (mask.excluded index) (own.length.trans whole)
  refine (own.trans coherent others ?_).congr (by simp) (by simp)
  rintro other (⟨-, rfl⟩ | none) (⟨off, -⟩ | excluded)
  · cases off
  · exact apart excluded
  · exact none
  · exact none

/-! ### Runs -/

/-- **Setting flags one after the other**, each with all that it implies: a run of the recursion that
has no bound. -/
inductive SetsAll (mask : Mask) : Bytes → List Nat → Bytes → Prop where
  | nil (bytes : Bytes) : SetsAll mask bytes [] bytes
  | cons {bytes middle after : Bytes} {index : Nat} {rest : List Nat}
      (implied : SetsAll mask (mask.setAlone bytes index) (mask.implied index) middle)
      (others : SetsAll mask middle rest after) : SetsAll mask bytes (index :: rest) after

namespace SetsAll

variable {middle after : Bytes} {targets : List Nat}

/-- A run has one outcome. -/
theorem unique (first : mask.SetsAll bytes targets middle) (second : mask.SetsAll bytes targets after) :
    middle = after := by
  induction first generalizing after with
  | nil =>
      cases second
      rfl
  | cons _ _ ih ihRest =>
      cases second with
      | cons implied others =>
          cases ih implied
          exact ihRest others

/-- Runs of single flags, one after the other. -/
theorem of_each {step : Bytes → Nat → Bytes}
    (each : ∀ target ∈ targets, ∀ bytes, mask.SetsAll bytes [target] (step bytes target)) :
    mask.SetsAll bytes targets (targets.foldl step bytes) := by
  induction targets generalizing bytes with
  | nil => exact .nil bytes
  | cons target rest ih =>
      rw [List.forall_mem_cons] at each
      have others : mask.SetsAll (step bytes target) rest (rest.foldl step (step bytes target)) :=
        ih each.2
      have first := each.1 bytes
      cases first with
      | cons implied last =>
          cases last
          exact .cons implied others

/-- **A run sets everything that its targets lead to, and clears what that excludes.** -/
theorem effect (coherent : mask.Coherent) (run : mask.SetsAll bytes targets after)
    (whole : bytes.length = mask.width)
    (consistent : ∀ other, (∃ target ∈ targets, mask.Reaches target other) →
      ¬∃ target ∈ targets, mask.Bars target other) :
    mask.Effect (fun other => ∃ target ∈ targets, mask.Reaches target other)
      (fun other => ∃ target ∈ targets, mask.Bars target other) bytes after := by
  induction run with
  | nil bytes => exact (Effect.refl bytes).congr (by simp) (by simp)
  | @cons bytes middle after index rest _ _ ih ihRest =>
      -- the flag itself, then what it implies, then the other targets
      simp only [List.exists_mem_cons_iff] at consistent ⊢
      simp only [mask.reaches_iff index, mask.bars_iff index] at consistent ⊢
      have alone : mask.Effect (· = index) (· ∈ mask.excluded index) bytes
          (mask.setAlone bytes index) :=
        effect_setAlone coherent whole fun excluded =>
          consistent index (.inl (.inl rfl)) (.inl (.inl excluded))
      have implied := ih (alone.length.trans whole) fun other reached barred =>
        consistent other (.inl (.inr reached)) (.inl (.inr barred))
      have own := alone.trans coherent implied fun other set cleared =>
        consistent other (.inl set) (.inl cleared)
      have others := ihRest (own.length.trans whole) fun other reached barred =>
        consistent other (.inr reached) (.inr barred)
      exact own.trans coherent others consistent

end SetsAll

/-- **The bound on the depth is never reached.** The flags on the way are distinct, and there is
always one left for each step of the depth. -/
theorem setsAll_setWithin (coherent : mask.Coherent) {path : List Nat} (distinct : path.Nodup)
    (within : ∀ earlier ∈ path, earlier < mask.flags.length) {depth : Nat}
    (deep : mask.flags.length ≤ path.length + depth) (declared : index < mask.flags.length)
    (chain : ∀ earlier ∈ path, TransGen (Implication.Leads mask.implied) earlier index) :
    mask.SetsAll bytes [index] (mask.setWithin depth bytes index) := by
  have fresh : index ∉ path := fun member => coherent.acyclic index (chain index member)
  induction depth generalizing path index bytes with
  | zero =>
      -- the path has as many flags as the mask, so the flag would be on it
      exact absurd (Implication.mem_of_length_ge distinct within deep declared) fresh
  | succ depth ih =>
      refine .cons (SetsAll.of_each fun next leads bytes => ?_) (.nil _)
      have longer : ∀ earlier ∈ index :: path,
          TransGen (Implication.Leads mask.implied) earlier next :=
        List.forall_mem_cons.mpr
          ⟨.single leads, fun earlier member => (chain earlier member).tail leads⟩
      refine ih (List.nodup_cons.mpr ⟨fresh, distinct⟩)
        (List.forall_mem_cons.mpr ⟨declared, within⟩) ?_ (coherent.closed index next leads) longer
        fun member => coherent.acyclic next (longer next member)
      rw [List.length_cons]
      omega

/-- **Setting a flag is the run of the recursion**: there is one, and it ends as the switch does. -/
theorem setsAll_iff_switch (coherent : mask.Coherent) (declared : index < mask.flags.length)
    {after : Bytes} :
    mask.SetsAll bytes [index] after ↔ after = mask.switch bytes index true := by
  have run : mask.SetsAll bytes [index] (mask.switch bytes index true) :=
    setsAll_setWithin coherent List.nodup_nil (by simp) (by simp) declared (by simp)
  constructor
  · exact fun other => other.unique run
  · rintro rfl
    exact run

/-- The effect of setting a flag. -/
theorem Coherent.effect_switch (coherent : mask.Coherent) (whole : bytes.length = mask.width)
    (declared : index < mask.flags.length) :
    mask.Effect (mask.Reaches index) (mask.Bars index) bytes (mask.switch bytes index true) := by
  have run : mask.SetsAll bytes [index] (mask.switch bytes index true) :=
    (setsAll_iff_switch coherent declared).mpr rfl
  have effect := run.effect coherent whole
  simp only [List.mem_singleton, exists_eq_left] at effect
  exact effect (coherent.consistent index declared)

/-! ### Masks with the same relations -/

/-- Masks whose flags have the same bits, and lead to and exclude the same flags, are switched
alike. -/
theorem Coherent.switch_eq (coherent : mask.Coherent) {other : Mask} (coherentToo : other.Coherent)
    (whole : bytes.length = mask.width) (width : other.width = mask.width)
    (declared : index < mask.flags.length)
    (owns : ∀ flag position, other.Owns flag position ↔ mask.Owns flag position)
    (reaches : ∀ flag, other.Reaches index flag ↔ mask.Reaches index flag)
    (bars : ∀ flag, other.Bars index flag ↔ mask.Bars index flag) :
    other.switch bytes index true = mask.switch bytes index true := by
  have declaredToo : index < other.flags.length := by
    obtain ⟨flag, here, -⟩ := (owns index _).mpr ⟨_, List.getElem?_eq_getElem declared, rfl⟩
    exact (List.getElem?_eq_some_iff.mp here).1
  obtain ⟨length, set, cleared, kept⟩ :=
    coherentToo.effect_switch (whole.trans width.symm) declaredToo
  have effect : mask.Effect (other.Reaches index) (other.Bars index) bytes
      (other.switch bytes index true) := by
    refine ⟨length, ?_, ?_, ?_⟩
    · exact fun flag position named owned => set flag position named ((owns flag position).mpr owned)
    · exact fun flag position named owned =>
        cleared flag position named ((owns flag position).mpr owned)
    · exact fun position unnamed => kept position fun flag named owned =>
        unnamed flag named ((owns flag position).mp owned)
  exact (effect.congr (fun flag => (reaches flag).symm) fun flag => (bars flag).symm).unique
    (coherent.effect_switch whole declared)

/-- The second mask is the first one with the relations of its flags listed in another order. -/
structure Reordered (mask other : Mask) : Prop where
  width : other.width = mask.width
  flags : List.Forall₂ (fun flag twin => twin.bit = flag.bit ∧ twin.implies.Perm flag.implies ∧
    twin.excludes.Perm flag.excludes) mask.flags other.flags

namespace Reordered

variable {other : Mask}

/-- At each index, both masks have a flag or neither has. -/
theorem cases (reordered : mask.Reordered other) (index : Nat) :
    (mask.flags[index]? = none ∧ other.flags[index]? = none) ∨
      ∃ flag twin, mask.flags[index]? = some flag ∧ other.flags[index]? = some twin ∧
        twin.bit = flag.bit ∧ twin.implies.Perm flag.implies ∧ twin.excludes.Perm flag.excludes := by
  cases here : mask.flags[index]? with
  | none =>
      refine .inl ⟨rfl, ?_⟩
      rw [List.getElem?_eq_none_iff] at here ⊢
      rwa [← reordered.flags.length_eq]
  | some flag =>
      obtain ⟨twin, there, related⟩ := exists_result_of_getElem? reordered.flags here
      exact .inr ⟨flag, twin, rfl, there, related⟩

theorem owns (reordered : mask.Reordered other) (index position : Nat) :
    other.Owns index position ↔ mask.Owns index position := by
  unfold Owns
  obtain ⟨here, there⟩ | ⟨flag, twin, here, there, bit, -⟩ := reordered.cases index
  · simp [here, there]
  · simp [here, there, bit]

theorem mem_implied (reordered : mask.Reordered other) (index flag : Nat) :
    flag ∈ other.implied index ↔ flag ∈ mask.implied index := by
  unfold implied
  obtain ⟨here, there⟩ | ⟨_, _, here, there, -, implies, -⟩ := reordered.cases index
  · simp [here, there]
  · simp [here, there, implies.mem_iff]

theorem mem_excluded (reordered : mask.Reordered other) (index flag : Nat) :
    flag ∈ other.excluded index ↔ flag ∈ mask.excluded index := by
  unfold excluded
  obtain ⟨here, there⟩ | ⟨_, _, here, there, -, -, excludes⟩ := reordered.cases index
  · simp [here, there]
  · simp [here, there, excludes.mem_iff]

theorem leads_eq (reordered : mask.Reordered other) :
    Implication.Leads other.implied = Implication.Leads mask.implied := by
  funext index flag
  exact propext (reordered.mem_implied index flag)

theorem reaches (reordered : mask.Reordered other) (index flag : Nat) :
    other.Reaches index flag ↔ mask.Reaches index flag := by
  rw [Reaches, Reaches, reordered.leads_eq]

theorem bars (reordered : mask.Reordered other) (index flag : Nat) :
    other.Bars index flag ↔ mask.Bars index flag := by
  simp only [Bars, reordered.reaches, reordered.mem_excluded]

theorem coherent (reordered : mask.Reordered other) (coherent : mask.Coherent) : other.Coherent where
  closed index flag leads := by
    rw [← reordered.flags.length_eq]
    exact coherent.closed index flag ((reordered.mem_implied index flag).mp leads)
  acyclic index := by
    rw [reordered.leads_eq]
    exact coherent.acyclic index
  consistent index declared flag reached barred := by
    rw [← reordered.flags.length_eq] at declared
    exact coherent.consistent index declared flag ((reordered.reaches index flag).mp reached)
      ((reordered.bars index flag).mp barred)
  apart first second position owned ownedToo := coherent.apart first second position
    ((reordered.owns first position).mp owned) ((reordered.owns second position).mp ownedToo)
  inside index position owned := by
    rw [reordered.width]
    exact coherent.inside index position ((reordered.owns index position).mp owned)

end Reordered

/-! ### Compiled masks -/

/-- **Setting a flag has the transitive effect, and no other.** In a compiled mask the recursion that
sets a flag has a run, which ends as the switch does. Then every flag that the flag leads to is set,
every flag that one of these excludes is clear, and every other bit is what it was. Clearing a flag
clears its own bit. The outcome depends neither on the order in which relations are listed nor on the
ways in which one flag leads to another, and setting a flag again changes nothing. -/
theorem switch_effect {spec : MaskSpec} (compiled : spec.compile = .ok mask)
    (whole : bytes.length = mask.width) (declared : index < mask.flags.length) :
    (∀ after, mask.SetsAll bytes [index] after ↔ after = mask.switch bytes index true) ∧
      mask.Effect (mask.Reaches index) (mask.Bars index) bytes (mask.switch bytes index true) ∧
      mask.Effect (fun _ => False) (· = index) bytes (mask.switch bytes index false) ∧
      (∀ other, mask.Reordered other →
        other.switch bytes index true = mask.switch bytes index true) ∧
      (∀ otherSpec other, MaskSpec.compile otherSpec = .ok other → other.width = mask.width →
        (∀ flag position, other.Owns flag position ↔ mask.Owns flag position) →
        (∀ flag, other.Reaches index flag ↔ mask.Reaches index flag) →
        (∀ flag, other.Bars index flag ↔ mask.Bars index flag) →
        other.switch bytes index true = mask.switch bytes index true) ∧
      mask.switch (mask.switch bytes index true) index true = mask.switch bytes index true := by
  have coherent := coherent_of_compile compiled
  have effect := coherent.effect_switch whole declared
  refine ⟨fun _ => setsAll_iff_switch coherent declared, effect, ?_, ?_, ?_, ?_⟩
  · exact (effect_writeOwn coherent whole index false).congr (by simp) (by simp)
  · exact fun other reordered => coherent.switch_eq (reordered.coherent coherent) whole
      reordered.width declared reordered.owns (reordered.reaches index) (reordered.bars index)
  · exact fun _ _ compiledToo width owns reaches bars =>
      coherent.switch_eq (coherent_of_compile compiledToo) whole width declared owns reaches bars
  · have again := effect.trans coherent
      (coherent.effect_switch (effect.length.trans whole) declared)
      (by simpa using coherent.consistent index declared)
    exact (again.congr (by simp) (by simp)).unique effect

/-- A final message is signed and sealed, and what is signed is sealed and no draft. -/
def sampleFlags : MaskSpec :=
  ⟨1, [⟨"final", 0, ["signed", "sealed"], []⟩, ⟨"signed", 1, ["sealed"], ["draft"]⟩,
    ⟨"sealed", 2, [], []⟩, ⟨"draft", 3, [], []⟩, ⟨"copy", 4, [], []⟩]⟩

theorem switch_effect_sampleFlags :
    let mask : Mask := ⟨1, [⟨"final", 0, [1, 2], []⟩, ⟨"signed", 1, [2], [3]⟩, ⟨"sealed", 2, [], []⟩,
      ⟨"draft", 3, [], []⟩, ⟨"copy", 4, [], []⟩]⟩
    let after := mask.switch [0x19] 0 true
    sampleFlags.compile = .ok mask ∧ ([0x19] : Bytes).length = mask.width ∧
      0 < mask.flags.length ∧ mask.SetsAll [0x19] [0] after ∧ Bits.read after 2 = .ok true ∧
      Bits.read after 3 = .ok false ∧ mask.switch after 0 true = after := by
  intro mask after
  have compiled : sampleFlags.compile = .ok mask := rfl
  have whole : ([0x19] : Bytes).length = mask.width := rfl
  have declared : 0 < mask.flags.length := by decide
  have signed : mask.Reaches 0 1 := .single List.mem_cons_self
  have sealed : mask.Reaches 0 2 := signed.tail List.mem_cons_self
  obtain ⟨run, effect, -, -, -, again⟩ := switch_effect compiled whole declared
  exact ⟨compiled, whole, declared, (run after).mpr rfl, effect.set 2 2 sealed ⟨_, rfl, rfl⟩,
    effect.cleared 3 3 ⟨1, signed, List.mem_cons_self⟩ ⟨_, rfl, rfl⟩, again⟩

end Mask

end RecordLayout
