/-
**Drafts keep their form and only gain.**

A draft is reached by operations that follow any path, and an operation may be refused when its path
has already appended an element or selected a variant. Two things are said of every part of every
draft that can be reached so.

* `Draft.Conforms`: the part has the form of its layout, word by word and bit by bit. A mask has no
  bit that no flag declares (`Mask.Clean`): a switch writes the bits of flags only.
* `Draft.KeptBy`: what a later draft has at the same place. A stored word stays stored, an array gets
  no shorter, a selection stays what it is, and no part gets smaller.

`Draft.Everywhere` and `Draft.GrowsTo` say so of all parts at once. Both pass from a part to the whole
around it, so an operation keeps them (`carries_clean`, `carries_grows`), and so does a run:

* `Schema.build_conforms_and_grows`: every reachable draft conforms, and every later one keeps it.
-/

import RecordLayout.Proofs.BitString
import RecordLayout.Proofs.Journal

namespace RecordLayout

/-! ### Bits that no flag declares -/

namespace Mask

/-- Every bit that no flag declares is clear. -/
def Clean (mask : Mask) (bytes : Bytes) : Prop :=
  ∀ position < 8 * bytes.length, (∀ flag ∈ mask.flags, flag.bit.toNat ≠ position) →
    Bits.read bytes position = .ok false

variable {mask : Mask} {bytes : Bytes}

theorem clean_blank (mask : Mask) : mask.Clean mask.blank := by
  intro position inside _
  rw [blank, List.length_replicate] at inside
  have there : (List.replicate mask.width (0 : UInt8))[position / 8]? = some 0 := by
    rw [List.getElem?_replicate, if_pos (by omega)]
  unfold Bits.read blank
  rw [there]
  simp

theorem Clean.writeOwn (clean : mask.Clean bytes) (index : Nat) (on : Bool) :
    mask.Clean (mask.writeOwn bytes index on) := by
  unfold Mask.writeOwn
  split
  · rename_i flag declared
    intro position inside undeclared
    rw [Bits.length_write] at inside
    have apart : position ≠ flag.bit.toNat :=
      (undeclared flag (List.mem_of_getElem? declared)).symm
    rw [Bits.read_write_of_ne apart]
    exact clean position inside undeclared
  · exact clean

theorem Clean.setWithin (clean : mask.Clean bytes) (depth index : Nat) :
    mask.Clean (mask.setWithin depth bytes index) := by
  induction depth generalizing bytes index with
  | zero => exact clean
  | succ depth ih =>
      rw [Mask.setWithin]
      have cleared : mask.Clean ((mask.excluded index).foldl
          (fun bytes other => mask.writeOwn bytes other false) (mask.writeOwn bytes index true)) :=
        List.foldlRecOn _ _ (clean.writeOwn index true) fun _ inner other _ =>
          inner.writeOwn other false
      exact List.foldlRecOn _ _ cleared fun _ inner other _ => ih inner other

/-- **A switch writes the bits of flags only.** -/
theorem Clean.switch (clean : mask.Clean bytes) (index : Nat) (on : Bool) :
    mask.Clean (mask.switch bytes index on) := by
  unfold Mask.switch
  split
  · exact clean.setWithin mask.flags.length index
  · exact clean.writeOwn index false

end Mask

/-! ### All parts of a draft -/

namespace Draft

/-- What holds of a draft and of all its parts, at any depth. -/
def Everywhere (holds : Layout → Draft → Prop) (layout : Layout) (draft : Draft) : Prop :=
  ∀ place inner part, draft.at? layout place = some (inner, part) → holds inner part

variable {holds : Layout → Draft → Prop} {layout : Layout} {draft : Draft}

theorem everywhere_iff :
    draft.Everywhere holds layout ↔ holds layout draft ∧
      ∀ step inner part, draft.part? layout step = some (inner, part) →
        part.Everywhere holds inner := by
  constructor
  · intro all
    refine ⟨all [] layout draft rfl, fun step inner part found place deep leaf there => ?_⟩
    refine all (step :: place) deep leaf ?_
    rw [at?, found]
    exact there
  · rintro ⟨here, parts⟩ place inner part there
    cases place with
    | nil =>
        cases there
        exact here
    | cons step rest =>
        obtain ⟨⟨middle, whole⟩, found, later⟩ := Option.bind_eq_some_iff.mp there
        exact parts step middle whole found rest inner part later

/-- What passes from a draft to its parts holds everywhere. -/
theorem everywhere_of_parts
    (passes : ∀ {layout inner draft part step}, holds layout draft →
      draft.part? layout step = some (inner, part) → holds inner part)
    (here : holds layout draft) : draft.Everywhere holds layout := by
  intro place
  induction place generalizing layout draft with
  | nil =>
      intro inner part there
      cases there
      exact here
  | cons step rest ih =>
      intro inner part there
      obtain ⟨⟨middle, whole⟩, found, later⟩ := Option.bind_eq_some_iff.mp there
      exact ih (passes here found) inner part later

/-- A part of a draft stands in a part of the layout. -/
theorem contains_of_part? {inner : Layout} {part : Draft} {step : Reader.Step}
    (found : draft.part? layout step = some (inner, part)) : layout.Contains inner := by
  cases hasPart_of_part? found with
  | member declared _ => exact .member (List.mem_of_getElem? declared) (.refl _)
  | element _ => exact .element (.refl _)
  | payload declared => exact .payload (List.mem_of_getElem? declared) (.refl _)

/-- The parts of a shaped draft are shaped, and their layouts have what every part of a layout
inherits. -/
theorem Shaped.everywhere {inherited : Layout → Prop}
    (passes : ∀ {whole part : Layout}, inherited whole → whole.Contains part → inherited part)
    (here : inherited layout) (shaped : draft.Shaped layout) :
    draft.Everywhere (fun inner part => inherited inner ∧ part.Shaped inner) layout :=
  everywhere_of_parts
    (fun both found => ⟨passes both.1 (contains_of_part? found), both.2.of_part? found⟩)
    ⟨here, shaped⟩

end Draft

namespace Edit

variable {holds : Layout → Draft → Prop} {site sub : Site} {draft part next : Draft} {step : Step}
  {rebuild : Draft → Draft}

/-- The part that a step leads to is one of the draft, or blank. -/
theorem Enters.everywhere (enters : Enters site draft step sub part rebuild)
    (blank : ∀ layout : Layout, layout.blank.Everywhere holds layout)
    (all : draft.Everywhere holds site.layout) : part.Everywhere holds sub.layout := by
  rcases enters.part?_or_blank part with old | ⟨-, rfl⟩
  · exact (Draft.everywhere_iff.mp all).2 _ _ _ old
  · exact blank sub.layout

/-- The parts of the whole are the new part and those that were there before. -/
theorem Enters.everywhere_rebuild (enters : Enters site draft step sub part rebuild)
    (all : draft.Everywhere holds site.layout) (here : holds site.layout (rebuild next))
    (inner : next.Everywhere holds sub.layout) :
    (rebuild next).Everywhere holds site.layout := by
  refine Draft.everywhere_iff.mpr ⟨here, fun other layout found there => ?_⟩
  by_cases same : other = step.place (rebuild next)
  · rw [same, enters.part?_rebuild next] at there
    cases there
    exact inner
  · rw [enters.part?_of_ne same] at there
    exact (Draft.everywhere_iff.mp all).2 _ _ _ there

end Edit

/-! ### Masks stay clean -/

/-- The bytes of a mask are clean. -/
def Draft.Clean : Layout → Draft → Prop
  | .mask flags, .mask bytes => flags.Clean bytes
  | _, _ => True

theorem Layout.clean_blank (layout : Layout) : layout.blank.Everywhere Draft.Clean layout := by
  intro place inner part there
  rw [Layout.blank_at? there]
  cases inner with
  | mask mask => exact mask.clean_blank
  | _ => trivial

namespace Edit

/-- A step puts a part back into a struct, an array or a view. -/
theorem Enters.clean_rebuild {site sub : Site} {draft part : Draft} {step : Step}
    {rebuild : Draft → Draft} (enters : Enters site draft step sub part rebuild) (next : Draft) :
    (rebuild next).Clean site.layout := by
  cases enters with
  | member struct _ _ _ => rw [struct]; trivial
  | element array _ | append array _ => rw [array]; trivial
  | payload view _ _ _ => rw [view]; trivial

theorem carries_clean : Carries fun site draft next =>
    draft.Everywhere Draft.Clean site.layout → next.Everywhere Draft.Clean site.layout where
  refl _ _ clean := clean
  enters enters kept clean := enters.everywhere_rebuild clean (enters.clean_rebuild _)
    (kept (enters.everywhere Layout.clean_blank clean))

theorem Leaves.clean {site : Site} {draft next : Draft} (leaves : Leaves site draft next)
    (clean : draft.Everywhere Draft.Clean site.layout) :
    next.Everywhere Draft.Clean site.layout := by
  cases leaves with
  | same => exact clean
  | @word word shaped =>
      refine Draft.everywhere_iff.mpr ⟨?_, fun step inner part found => ?_⟩
      · generalize site.layout = layout at shaped
        cases shaped <;> trivial
      · rw [Draft.part?_scalar] at found
        cases found
  | @mask mask bytes index on layout held =>
      rw [layout, held] at clean
      rw [layout]
      have before : mask.Clean bytes := (Draft.everywhere_iff.mp clean).1
      refine Draft.everywhere_iff.mpr ⟨before.switch index on, fun step inner part found => ?_⟩
      rw [Draft.part?_mask] at found
      cases found

end Edit

theorem Schema.clean_build (schema : Schema) (operations : List Operation) :
    (schema.build operations).Everywhere Draft.Clean schema.root :=
  List.foldlRecOn operations schema.perform (Layout.clean_blank schema.root)
    fun draft clean operation _ =>
      Edit.carries_clean.perform (fun leaves => leaves.clean) schema draft operation clean

/-! ### The form of a part -/

/-- **The part has the form of its layout.** A stored word is within its width or one of the declared
values; a mask has all its bytes and no undeclared bit; a struct has a member for each field; an array
has as many elements as it must, or no more than it can, and their number can be stored; a selection
is one of the variants. -/
def Draft.Conforms : Layout → Draft → Prop
  | .int format, .scalar stored => ∀ word ∈ stored, word.toNat < 2 ^ (8 * format.bytes)
  | .enum enumeration, .scalar stored =>
      ∀ word ∈ stored, ∃ variant ∈ enumeration.variants, variant.value = word
  | .mask flags, .mask bytes => bytes.length = flags.width ∧ flags.Clean bytes
  | .struct fields, .struct members => members.length = fields.length
  | .array _ (.fixed count), .array elements => elements.length = count.toNat
  | .array _ (.bounded capacity counter), .array elements =>
      elements.length ≤ capacity.toNat ∧ counter.fits elements.length
  | .view _ variants, .view selection =>
      ∀ index payload, selection = some (index, payload) → index < variants.length
  | .constant _ _, .computed | .derived _ _, .computed => True
  | _, _ => False

/-- A number below one that fits, fits. -/
theorem IntFormat.fits_of_le {format : IntFormat} {number bound : Nat} (below : number ≤ bound)
    (fits : format.fits bound) : format.fits number := by
  rw [fits_iff] at fits ⊢
  have lowest : format.min ≤ 0 := by
    unfold IntFormat.min
    split <;> omega
  omega

theorem Draft.Shaped.conforms {layout : Layout} {draft : Draft} (valid : layout.Valid)
    (shaped : draft.Shaped layout) (clean : draft.Clean layout) : draft.Conforms layout := by
  cases shaped with
  | int held => exact held
  | enum named =>
      intro word held
      obtain ⟨name, known⟩ := named word held
      exact ⟨_, Enumeration.mem_of_nameOf? known, rfl⟩
  | mask whole => exact ⟨whole, clean⟩
  | struct whole _ => exact whole
  | @array element length elements counted _ =>
      cases length with
      | fixed count => exact counted
      | bounded capacity counter =>
          cases valid with
          | array counts _ => exact ⟨counted, IntFormat.fits_of_le counted counts⟩
  | unselected =>
      intro index payload selected
      cases selected
  | view selected _ =>
      intro index payload same
      cases same
      exact (List.getElem?_eq_some_iff.mp selected).1
  | constant | derived => trivial

/-! ### Growth -/

namespace Draft

/-- **What a later part keeps of an earlier one** at the same place. -/
structure KeptBy (layout : Layout) (before after : Draft) : Prop where
  stored : before.isSet → after.isSet
  elements : before.count ≤ after.count
  selection : ∀ index payload, before = .view (some (index, payload)) →
    ∃ later, after = .view (some (index, later))
  size : before.size layout ≤ after.size layout

/-- **Every part is still there**, and what is there keeps it. -/
def GrowsTo (layout : Layout) (before after : Draft) : Prop :=
  ∀ place inner part, before.at? layout place = some (inner, part) →
    ∃ next, after.at? layout place = some (inner, next) ∧ part.KeptBy inner next

variable {layout : Layout} {before middle after : Draft}

theorem KeptBy.refl (layout : Layout) (draft : Draft) : draft.KeptBy layout draft where
  stored := id
  elements := Nat.le_refl _
  selection _ payload same := ⟨payload, same⟩
  size := Nat.le_refl _

theorem KeptBy.trans (first : before.KeptBy layout middle) (second : middle.KeptBy layout after) :
    before.KeptBy layout after where
  stored set := second.stored (first.stored set)
  elements := Nat.le_trans first.elements second.elements
  selection index payload same := by
    obtain ⟨later, same⟩ := first.selection index payload same
    exact second.selection index later same
  size := Nat.le_trans first.size second.size

theorem GrowsTo.refl (layout : Layout) (draft : Draft) : draft.GrowsTo layout draft :=
  fun _ inner part there => ⟨part, there, .refl inner part⟩

theorem GrowsTo.trans (first : before.GrowsTo layout middle) (second : middle.GrowsTo layout after) :
    before.GrowsTo layout after := by
  intro place inner part there
  obtain ⟨next, found, kept⟩ := first place inner part there
  obtain ⟨last, found, keptToo⟩ := second place inner next found
  exact ⟨last, found, kept.trans keptToo⟩

theorem GrowsTo.here (grows : before.GrowsTo layout after) : before.KeptBy layout after := by
  obtain ⟨next, same, kept⟩ := grows [] layout before rfl
  cases same
  exact kept

/-- A part without parts of its own. -/
theorem GrowsTo.of_leaf (leaf : ∀ step, before.part? layout step = none)
    (kept : before.KeptBy layout after) : before.GrowsTo layout after := by
  intro place inner part there
  cases place with
  | nil =>
      cases there
      exact ⟨after, rfl, kept⟩
  | cons step rest =>
      rw [at?, leaf step] at there
      cases there

theorem size_scalar (layout : Layout) (stored : Option UInt64) :
    (Draft.scalar stored).size layout = layout.width?.getD 0 := by
  cases layout <;> rfl

end Draft

theorem membersSize_le_set {fields : List Field} {members : List Draft} {index : Nat}
    {field : Field} {part next : Draft} (declared : fields[index]? = some field)
    (there : members[index]? = some part)
    (larger : part.size field.layout ≤ next.size field.layout) :
    membersSize fields members ≤ membersSize fields (members.set index next) := by
  induction fields generalizing members index with
  | nil => cases declared
  | cons first fields ih =>
      cases members with
      | nil => cases there
      | cons head members =>
          obtain ⟨name, layout⟩ := first
          cases index with
          | zero =>
              cases declared
              cases there
              exact Nat.add_le_add_right larger _
          | succ index => exact Nat.add_le_add_left (ih declared there) _

theorem elementsSize_le_set {element : Layout} {elements : List Draft} {index : Nat}
    {part next : Draft} (there : elements[index]? = some part)
    (larger : part.size element ≤ next.size element) :
    elementsSize element elements ≤ elementsSize element (elements.set index next) := by
  induction elements generalizing index with
  | nil => cases there
  | cons head rest ih =>
      cases index with
      | zero =>
          cases there
          exact Nat.add_le_add_right larger _
      | succ index => exact Nat.add_le_add_left (ih there) _

namespace Edit

variable {site sub : Site} {draft part next : Draft} {step : Step} {rebuild : Draft → Draft}

/-- The whole around a part keeps what the part keeps. -/
theorem Enters.kept (enters : Enters site draft step sub part rebuild)
    (kept : part.KeptBy sub.layout next) : draft.KeptBy site.layout (rebuild next) := by
  cases enters with
  | @member fields members name index field part struct found declared there =>
      rw [struct]
      exact ⟨id, Nat.le_refl _, nofun, membersSize_le_set declared there kept.size⟩
  | @element element length elements index part array there =>
      rw [array]
      refine ⟨id, ?_, nofun, Nat.add_le_add_left (elementsSize_le_set there kept.size) _⟩
      show elements.length ≤ (elements.set index next).length
      rw [List.length_set]
  | @append element length elements array room =>
      rw [array]
      refine ⟨id, ?_, nofun, Nat.add_le_add_left ?_ _⟩
      · show elements.length ≤ (elements ++ [next]).length
        simp
      · rw [elementsSize_eq_sum, elementsSize_eq_sum, List.map_append, List.sum_append]
        exact Nat.le_add_right _ _
  | @payload key variants selection step index variant part view named declared selected =>
      rw [view]
      cases selection with
      | none => exact ⟨id, Nat.le_refl _, nofun, Nat.le_add_right _ _⟩
      | some current =>
          obtain ⟨position, payload⟩ := current
          rw [Draft.select] at selected
          split_ifs at selected with same
          cases selected
          subst same
          refine ⟨id, Nat.le_refl _, fun index payload here => ?_, Nat.add_le_add_left ?_ _⟩
          · cases here
            exact ⟨next, rfl⟩
          · simp only [declared]
            exact kept.size

/-- **The whole around a part grows with the part.** A part that the step has made was at no place
before. -/
theorem Enters.grows (enters : Enters site draft step sub part rebuild)
    (grows : part.GrowsTo sub.layout next) : draft.GrowsTo site.layout (rebuild next) := by
  intro place inner found there
  cases place with
  | nil =>
      cases there
      exact ⟨rebuild next, rfl, enters.kept grows.here⟩
  | cons first rest =>
      rw [Draft.at?] at there ⊢
      by_cases same : first = step.place (rebuild next)
      · rw [same] at there ⊢
        rw [enters.part?_rebuild next]
        rcases enters.part?_or_blank next with old | ⟨none, -⟩
        · rw [old] at there
          exact grows rest inner found there
        · rw [none] at there
          cases there
      · rw [enters.part?_of_ne same]
        exact ⟨found, there, .refl inner found⟩

theorem carries_grows : Carries fun site draft next =>
    draft.Shaped site.layout → draft.GrowsTo site.layout next where
  refl site draft _ := .refl site.layout draft
  enters enters grows shaped := enters.grows (grows (enters.shaped shaped).1)

/-- What an action leaves of a part keeps it. -/
theorem Leaves.grows (leaves : Leaves site draft next) (shaped : draft.Shaped site.layout) :
    draft.GrowsTo site.layout next := by
  cases leaves with
  | same => exact .refl site.layout draft
  | @word word fits =>
      obtain ⟨stored, rfl⟩ : ∃ stored, draft = .scalar stored := by
        generalize site.layout = layout at shaped fits
        cases fits <;> cases shaped <;> exact ⟨_, rfl⟩
      refine .of_leaf (Draft.part?_scalar _ _) ⟨fun _ => rfl, Nat.le_refl _, nofun, ?_⟩
      rw [Draft.size_scalar, Draft.size_scalar]
  | @mask mask bytes index on layout held =>
      rw [layout, held]
      exact .of_leaf (Draft.part?_mask _ _) ⟨id, Nat.le_refl _, nofun, Nat.le_refl _⟩

end Edit

/-! ### Runs -/

namespace Schema

variable {specs : List FieldSpec} {order : ByteOrder} {schema : Schema}

/-- **A run only adds to a draft.** -/
theorem grows_foldl {draft : Draft} (shaped : draft.Shaped schema.root)
    (operations : List Operation) :
    draft.GrowsTo schema.root (operations.foldl schema.perform draft) := by
  induction operations generalizing draft with
  | nil => exact .refl schema.root draft
  | cons operation rest ih =>
      have once : draft.GrowsTo schema.root (schema.perform draft operation) :=
        Edit.carries_grows.perform (fun leaves => leaves.grows) schema draft operation shaped
      exact once.trans (ih (shaped_perform operation shaped))

/-- **Every reachable draft conforms to its layout, and every later one keeps it**: at each place, the
part has its form, and whatever operations follow, refused or not, the part that they leave there
stays stored, is no shorter, has the same selection and is no smaller. -/
theorem build_conforms_and_grows (compiled : Schema.compile specs order = .ok schema)
    (earlier later : List Operation) :
    let before := schema.build earlier
    let after := schema.build (earlier ++ later)
    before.Everywhere Draft.Conforms schema.root ∧ before.GrowsTo schema.root after := by
  intro before after
  have shaped : before.Shaped schema.root := schema.shaped_build earlier
  constructor
  · intro place inner part there
    obtain ⟨valid, fits⟩ :=
      shaped.everywhere Layout.Valid.part (valid_of_compile compiled) place inner part there
    exact fits.conforms valid (schema.clean_build earlier place inner part there)
  · have run : after = later.foldl schema.perform before := List.foldl_append ..
    rw [run]
    exact grows_foldl shaped later

theorem build_conforms_and_grows_sampleRun :
    Schema.compile samplePacket .big = .ok sampleSchema ∧
      ∃ items next, (sampleSchema.build (sampleRun.take 3)).at? sampleSchema.root
          [.member "items"] = some (.array (.int ⟨.two, false, .big⟩) (.bounded 4 ⟨.one, false, .big⟩),
            items) ∧
        items.count = 1 ∧ items.Conforms (.array (.int ⟨.two, false, .big⟩)
          (.bounded 4 ⟨.one, false, .big⟩)) ∧
        (sampleSchema.build sampleRun).at? sampleSchema.root [.member "items"] =
          some (.array (.int ⟨.two, false, .big⟩) (.bounded 4 ⟨.one, false, .big⟩), next) ∧
        1 ≤ next.count := by
  refine ⟨compile_samplePacket, .array [.scalar (some 513)], ?_⟩
  obtain ⟨conforms, grows⟩ :=
    build_conforms_and_grows compile_samplePacket (sampleRun.take 3) (sampleRun.drop 3)
  rw [List.take_append_drop] at grows
  obtain ⟨next, found, kept⟩ := grows [.member "items"] _ (.array [.scalar (some 513)]) rfl
  exact ⟨next, rfl, rfl, conforms [.member "items"] _ _ rfl, found, kept.elements⟩

end Schema

end RecordLayout
