/-
**Gaps are filled in any order.**

Chunks and gaps take the bytes of a write buffer front to back, and each gap is filled at some later
time, with a word of any width, or never. Whatever is called in between, the buffer shows what was
granted, one claim behind the other: chunks as they were written, a gap with its filling in front of
zeros, or with zeros only. The order of the fillings is not to be seen in it.

* `Call.run_of_claim`, `Call.run_of_claim_of_lt`: a claim is granted if there is room for it, and changes
  nothing otherwise.
* `exists_render_eq`: a gap is a stretch of its own, with nothing of the other gaps in it. So a filling
  replaces this stretch and nothing else (`Session.Shows.fill`).
* `Session.shows_run`: what the buffer shows after a run of calls.
* `gaps_isolated`: position, bytes, refusals, and the order of the fillings.
-/

import RecordLayout.Proofs.WriteRun

namespace RecordLayout.WriteBuffer

/-! ### Calls -/

/-- A call on a write buffer. A gap is called by its number among the gaps that were left. -/
inductive Call where
  | write (chunk : Bytes)
  | writeInt (format : IntFormat) (word : UInt64)
  | leaveGap (length : Nat)
  | fillGap (number : Nat) (format : IntFormat) (word : UInt64)

/-- A write buffer, with the gaps that have been left in it. -/
structure Session where
  buffer : WriteBuffer
  gaps : List Gap

/-- A session that has not begun to write. -/
def Session.start (buffer : Buffer) : Session := ⟨ofBuffer buffer, []⟩

/-- Runs steps on the buffer of a session. -/
def Session.onBuffer {α : Type} (steps : Write α) : EStateM WriteError Session α := fun session =>
  match steps session.buffer with
  | .ok value buffer => .ok value ⟨buffer, session.gaps⟩
  | .error cause buffer => .error cause ⟨buffer, session.gaps⟩

/-- Carries out a call. There is nothing to fill where no gap was left. -/
def Call.run : Call → EStateM WriteError Session Unit
  | .write chunk => Session.onBuffer (WriteBuffer.write chunk)
  | .writeInt format word => Session.onBuffer (WriteBuffer.writeInt format word)
  | .leaveGap length => do
      let gap ← Session.onBuffer (WriteBuffer.leaveGap length)
      modify fun session => ⟨session.buffer, session.gaps ++ [gap]⟩
  | .fillGap number format word => fun session =>
      match session.gaps[number]? with
      | some gap => Session.onBuffer (WriteBuffer.fillGap gap format word) session
      | none => .ok () session

/-- The session after a call, whether it was refused or not. -/
def Session.perform (session : Session) (call : Call) : Session :=
  match call.run session with
  | .ok _ next => next
  | .error _ next => next

/-- The session after a run of calls. -/
def Session.run (session : Session) (calls : List Call) : Session := calls.foldl perform session

/-! ### What a run is to show -/

/-- What a call asks the buffer for. -/
inductive Claim where
  | chunk (bytes : Bytes)
  | gap (length : Nat)

def Claim.length : Claim → Nat
  | .chunk bytes => bytes.length
  | .gap length => length

/-- How many bytes a run of claims takes. -/
def claimed (claims : List Claim) : Nat := (claims.map Claim.length).sum

/-- A word that a gap is filled with, in an integer format. -/
abbrev Filling := IntFormat × UInt64

/-- The claim of a call, if it has one. -/
def Call.claim? : Call → Option Claim
  | .write chunk => some (.chunk chunk)
  | .writeInt format word => some (.chunk (format.encode word))
  | .leaveGap length => some (.gap length)
  | .fillGap _ _ _ => none

/-- The gap that a call fills, and with what. -/
def Call.filling? : Call → Option (Nat × Filling)
  | .fillGap number format word => some (number, format, word)
  | _ => none

/-- The claims of a run of calls. -/
def claims (calls : List Call) : List Claim := calls.filterMap Call.claim?

/-- The fillings of a run of calls, each with the number of its gap. -/
def fillings (calls : List Call) : List (Nat × Filling) := calls.filterMap Call.filling?

/-- What a run of calls fills a gap with. -/
def filling? (calls : List Call) (number : Nat) : Option Filling := (fillings calls).lookup number

/-- The claims of those calls of a run that succeed. -/
def Session.accepted : Session → List Call → List Claim
  | _, [] => []
  | session, call :: rest =>
      match call.run session with
      | .ok _ next => call.claim?.toList ++ next.accepted rest
      | .error _ next => next.accepted rest

/-- The claims that are granted, one after another, from `room` bytes; one that is too long is passed
over. -/
def granted : (room : Nat) → List Claim → List Claim
  | _, [] => []
  | room, claim :: rest =>
      if claim.length ≤ room then claim :: granted (room - claim.length) rest
      else granted room rest

/-- The bytes of a gap: its filling, cut to the gap, in front of zeros. -/
def gapBytes (length : Nat) : Option Filling → Bytes
  | none => List.replicate length 0
  | some (format, word) =>
      let width := min length format.bytes
      format.order.encode width word ++ List.replicate (length - width) 0

/-- The bytes of a run of claims whose first gap has the given number. -/
def render (fill? : Nat → Option Filling) : (number : Nat) → List Claim → Bytes
  | _, [] => []
  | number, .chunk bytes :: rest => bytes ++ render fill? number rest
  | number, .gap length :: rest => gapBytes length (fill? number) ++ render fill? (number + 1) rest

/-- The gaps of a run of claims that starts at a position. -/
def gapsFrom : (position : Nat) → List Claim → List Gap
  | _, [] => []
  | position, .chunk bytes :: rest => gapsFrom (position + bytes.length) rest
  | position, .gap length :: rest => ⟨position, length⟩ :: gapsFrom (position + length) rest

section Claims

variable {fill? other? : Nat → Option Filling} {number position : Nat}

theorem length_gapBytes (length : Nat) (filling : Option Filling) :
    (gapBytes length filling).length = length := by
  cases filling with
  | none => exact List.length_replicate
  | some filling =>
      rw [gapBytes, List.length_append, ByteOrder.length_encode, List.length_replicate]
      omega

theorem length_render (fill? : Nat → Option Filling) (number : Nat) (claims : List Claim) :
    (render fill? number claims).length = claimed claims := by
  induction claims generalizing number with
  | nil => rfl
  | cons claim rest ih =>
      cases claim with
      | chunk bytes =>
          rw [render, List.length_append, ih]
          rfl
      | gap length =>
          rw [render, List.length_append, length_gapBytes, ih]
          rfl

theorem render_congr (claims : List Claim)
    (same : ∀ later, number ≤ later → fill? later = other? later) :
    render fill? number claims = render other? number claims := by
  induction claims generalizing number with
  | nil => rfl
  | cons claim rest ih =>
      cases claim with
      | chunk bytes => rw [render, render, ih same]
      | gap length =>
          rw [render, render, same number (Nat.le_refl _),
            ih fun later after => same later (Nat.le_of_succ_le after)]

theorem gapsFrom_append (claims more : List Claim) (position : Nat) :
    gapsFrom position (claims ++ more) =
      gapsFrom position claims ++ gapsFrom (position + claimed claims) more := by
  induction claims generalizing position with
  | nil => rfl
  | cons claim rest ih =>
      cases claim with
      | chunk bytes =>
          rw [List.cons_append, gapsFrom, ih, gapsFrom, Nat.add_assoc]
          rfl
      | gap length =>
          rw [List.cons_append, gapsFrom, ih, gapsFrom, Nat.add_assoc, List.cons_append]
          rfl

theorem render_append (claims more : List Claim) (number position : Nat) :
    render fill? number (claims ++ more) =
      render fill? number claims ++
        render fill? (number + (gapsFrom position claims).length) more := by
  induction claims generalizing number position with
  | nil => rfl
  | cons claim rest ih =>
      cases claim with
      | chunk bytes =>
          rw [List.cons_append, render, ih number (position + bytes.length), render, gapsFrom,
            List.append_assoc]
      | gap length =>
          rw [List.cons_append, render, ih (number + 1) (position + length), render, gapsFrom,
            List.length_cons, List.append_assoc, Nat.add_right_comm, Nat.add_assoc]

/-- **A gap is a stretch of its own**: what stands before it and behind it is the same, whatever the gap
is filled with. -/
theorem exists_render_eq {claims : List Claim} {index : Nat} {gap : Gap} (number : Nat)
    (fill? : Nat → Option Filling) (there : (gapsFrom position claims)[index]? = some gap) :
    ∃ before after : Bytes, position + before.length = gap.start ∧
      ∀ other? : Nat → Option Filling,
        (∀ another, another ≠ number + index → other? another = fill? another) →
        render other? number claims =
          before ++ gapBytes gap.length (other? (number + index)) ++ after := by
  induction claims generalizing position number index with
  | nil => cases there
  | cons claim rest ih =>
      cases claim with
      | chunk bytes =>
          obtain ⟨before, after, starts, shows⟩ := ih number there
          refine ⟨bytes ++ before, after, by rw [List.length_append]; omega, fun other? same => ?_⟩
          rw [render, shows other? same]
          simp only [List.append_assoc]
      | gap length =>
          cases index with
          | zero =>
              cases there
              refine ⟨[], render fill? (number + 1) rest, rfl, fun other? same => ?_⟩
              rw [render, render_congr rest fun later after => same later (by omega)]
              rfl
          | succ index =>
              obtain ⟨before, after, starts, shows⟩ := ih (number + 1) there
              have next : number + 1 + index = number + (index + 1) := by omega
              rw [next] at shows
              -- the gap in front is another one, so its bytes are the same
              refine ⟨gapBytes length (fill? number) ++ before, after, ?_, fun other? same => ?_⟩
              · rw [List.length_append, length_gapBytes]
                omega
              · rw [render, shows other? same, same number (by omega)]
                simp only [List.append_assoc]

theorem claimed_append (claims more : List Claim) :
    claimed (claims ++ more) = claimed claims + claimed more := by
  rw [claimed, List.map_append, List.sum_append]
  rfl

theorem claimed_granted_le (room : Nat) (claims : List Claim) :
    claimed (granted room claims) ≤ room := by
  induction claims generalizing room with
  | nil => exact Nat.zero_le _
  | cons claim rest ih =>
      rw [granted]
      split
      · have later := ih (room - claim.length)
        rw [claimed, List.map_cons, List.sum_cons]
        rw [claimed] at later
        omega
      · exact ih room

/-- One more claim is granted if there is still room for it. -/
theorem granted_append (room : Nat) (claims : List Claim) (claim : Claim) :
    granted room (claims ++ [claim]) =
      if claimed (granted room claims) + claim.length ≤ room then granted room claims ++ [claim]
      else granted room claims := by
  induction claims generalizing room with
  | nil =>
      simp only [List.nil_append, granted, claimed, List.map_nil, List.sum_nil, Nat.zero_add]
  | cons first rest ih =>
      rw [List.cons_append, granted, granted]
      by_cases fits : first.length ≤ room
      · have sum : claimed (first :: granted (room - first.length) rest) =
            first.length + claimed (granted (room - first.length) rest) := rfl
        have within := claimed_granted_le (room - first.length) rest
        rw [if_pos fits, if_pos fits, ih, sum]
        by_cases more : claimed (granted (room - first.length) rest) + claim.length ≤
            room - first.length
        · rw [if_pos more, if_pos (by omega), List.cons_append]
        · rw [if_neg more, if_neg (by omega)]
      · rw [if_neg fits, if_neg fits, ih]

end Claims

/-! ### One call -/

section Call

variable {α : Type} {session : Session} {call : Call} {claim : Claim}

theorem Session.onBuffer_ok {steps : Write α} {value : α} {buffer : WriteBuffer}
    (ran : steps session.buffer = .ok value buffer) :
    onBuffer steps session = .ok value ⟨buffer, session.gaps⟩ := by
  rw [onBuffer, ran]

theorem Session.onBuffer_error {steps : Write α} {cause : WriteError}
    (refused : steps session.buffer = .error cause session.buffer) :
    onBuffer steps session = .error cause session := by
  rw [onBuffer, refused]

/-- Without room nothing that begins with an allotment goes on. -/
theorem allot_bind_error {buffer : WriteBuffer} {length : Nat} (next : Nat → Write α)
    (full : buffer.bytes.size < buffer.position + length) :
    (allot length >>= next) buffer =
      .error (.writeFailed (buffer.position + length) buffer.bytes.size) buffer := by
  have refused : allot length buffer =
      .error (.writeFailed (buffer.position + length) buffer.bytes.size) buffer :=
    if_neg (by omega)
  show EStateM.bind (allot length) next buffer = _
  rw [EStateM.bind, refused]

/-- **A claim that has room is granted.** -/
theorem Call.run_of_claim (claims : call.claim? = some claim)
    (room : session.buffer.position + claim.length ≤ session.buffer.bytes.size) :
    call.run session = .ok () ⟨session.buffer.append (render (fun _ => none) 0 [claim]),
      session.gaps ++ gapsFrom session.buffer.position [claim]⟩ := by
  cases call with
  | write chunk =>
      cases claims
      rw [Call.run, Session.onBuffer_ok (write_ok room), render, render, gapsFrom, gapsFrom,
        List.append_nil, List.append_nil]
  | writeInt format word =>
      cases claims
      rw [Claim.length, format.length_encode] at room
      rw [Call.run, Session.onBuffer_ok (writeInt_ok word room), render, render, gapsFrom, gapsFrom,
        List.append_nil, List.append_nil]
  | leaveGap length =>
      cases claims
      show EStateM.bind (Session.onBuffer (WriteBuffer.leaveGap length)) _ session = _
      rw [EStateM.bind, Session.onBuffer_ok (@leaveGap_ok _ length room), render, render, gapBytes,
        List.append_nil]
      rfl
  | fillGap => cases claims

/-- **A claim without room is refused** and changes nothing. -/
theorem Call.run_of_claim_of_lt (claims : call.claim? = some claim)
    (full : session.buffer.bytes.size < session.buffer.position + claim.length) :
    call.run session = .error
      (.writeFailed (session.buffer.position + claim.length) session.buffer.bytes.size) session := by
  cases call with
  | write chunk =>
      cases claims
      exact Session.onBuffer_error (allot_bind_error _ full)
  | writeInt format word =>
      cases claims
      rw [Claim.length, format.length_encode] at full ⊢
      exact Session.onBuffer_error (allot_bind_error _ full)
  | leaveGap length =>
      cases claims
      have refused : WriteBuffer.leaveGap length session.buffer = .error
          (.writeFailed (session.buffer.position + length) session.buffer.bytes.size)
          session.buffer := allot_bind_error _ full
      show EStateM.bind (Session.onBuffer (WriteBuffer.leaveGap length)) _ session = _
      rw [EStateM.bind, Session.onBuffer_error refused]
      rfl
  | fillGap => cases claims

/-- A gap that was left can be filled. -/
theorem Call.run_fillGap {number : Nat} {gap : Gap} (there : session.gaps[number]? = some gap)
    (format : IntFormat) (word : UInt64) :
    (Call.fillGap number format word).run session = .ok ()
      ⟨⟨overwrite session.buffer.bytes gap.start
        (format.order.encode (min gap.length format.bytes) word), session.buffer.position⟩,
        session.gaps⟩ := by
  simp only [Call.run, there]
  rfl

/-- **A call is refused for lack of room only**, and then changes nothing. -/
theorem Call.run_eq_error_iff {cause : WriteError} {next : Session} :
    call.run session = .error cause next ↔ next = session ∧ ∃ claim, call.claim? = some claim ∧
      session.buffer.bytes.size < session.buffer.position + claim.length ∧
      cause = .writeFailed (session.buffer.position + claim.length) session.buffer.bytes.size := by
  cases claims : call.claim? with
  | some claim =>
      by_cases room : session.buffer.position + claim.length ≤ session.buffer.bytes.size
      · rw [run_of_claim claims room]
        refine iff_of_false nofun ?_
        rintro ⟨-, other, same, full, -⟩
        cases same
        omega
      · rw [run_of_claim_of_lt claims (by omega)]
        constructor
        · intro refused
          cases refused
          exact ⟨rfl, claim, rfl, by omega, rfl⟩
        · rintro ⟨rfl, other, same, -, rfl⟩
          cases same
          rfl
  | none =>
      cases call with
      | fillGap number format word =>
          refine iff_of_false ?_ (by rintro ⟨-, _, same, -⟩; cases same)
          simp only [Call.run]
          cases session.gaps[number]? <;> nofun
      | _ => cases claims

end Call

/-! ### What a session shows -/

/-- What is put at the start of a gap stays within it. -/
theorem overwrite_gap (buffer : Buffer) (before after : Bytes) (length : Nat) (format : IntFormat)
    (word : UInt64) :
    overwrite (overwrite buffer 0 (before ++ gapBytes length none ++ after)) before.length
        (format.order.encode (min length format.bytes) word) =
      overwrite buffer 0 (before ++ gapBytes length (some (format, word)) ++ after) := by
  have zeros : List.replicate length (0 : UInt8) =
      List.replicate (min length format.bytes) 0 ++
        List.replicate (length - min length format.bytes) 0 := by
    rw [List.replicate_append_replicate, Nat.add_sub_cancel' (Nat.min_le_left ..)]
  have patched := overwrite_patch buffer 0 before (List.replicate (min length format.bytes) 0)
    (format.order.encode (min length format.bytes) word)
    (List.replicate (length - min length format.bytes) 0 ++ after)
    (by rw [ByteOrder.length_encode, List.length_replicate])
  rw [Nat.zero_add] at patched
  simpa only [gapBytes, zeros, List.append_assoc] using patched

/-- **The buffer of a session shows claims**: it is the original one, with the bytes of the claims at
its front, and the gaps among them have been handed out. What is not yet a gap has no filling. -/
structure Session.Shows (buffer : Buffer) (claims : List Claim) (fill? : Nat → Option Filling)
    (session : Session) : Prop where
  room : claimed claims ≤ buffer.size
  written : session.buffer = (ofBuffer buffer).append (render fill? 0 claims)
  gaps : session.gaps = gapsFrom 0 claims
  unfilled : ∀ number, session.gaps.length ≤ number → fill? number = none

namespace Session.Shows

variable {buffer : Buffer} {claims : List Claim} {fill? : Nat → Option Filling} {session : Session}

theorem position (shows : Shows buffer claims fill? session) :
    session.buffer.position = claimed claims := by
  rw [shows.written, position_append, length_render]
  exact Nat.zero_add _

theorem size (shows : Shows buffer claims fill? session) :
    session.buffer.bytes.size = buffer.size := by
  rw [shows.written, size_append]
  rfl

theorem start (buffer : Buffer) : Shows buffer [] (fun _ => none) (Session.start buffer) where
  room := Nat.zero_le _
  written := rfl
  gaps := rfl
  unfilled _ _ := rfl

/-- A granted claim is shown behind the others. -/
theorem grant (shows : Shows buffer claims fill? session) {claim : Claim}
    (room : claimed claims + claim.length ≤ buffer.size) :
    Shows buffer (claims ++ [claim]) fill?
      ⟨session.buffer.append (render (fun _ => none) 0 [claim]),
        session.gaps ++ gapsFrom session.buffer.position [claim]⟩ where
  room := by
    rw [claimed_append]
    exact room
  written := by
    have blank : render (fun _ => none) 0 [claim] = render fill? (0 + session.gaps.length) [claim] := by
      cases claim with
      | chunk bytes => rfl
      | gap length => simp only [render, shows.unfilled _ (Nat.le_add_left ..)]
    rw [render_append claims [claim] 0 0, ← append_append, ← shows.written, ← shows.gaps, blank]
  gaps := by rw [gapsFrom_append, ← shows.gaps, shows.position, Nat.zero_add]
  unfilled number beyond := by
    rw [List.length_append] at beyond
    exact shows.unfilled number (by omega)

/-- **A filling is shown in its gap**, and everything else is shown as before. -/
theorem fill (shows : Shows buffer claims fill? session) {number : Nat} {gap : Gap}
    (there : session.gaps[number]? = some gap) (empty : fill? number = none) (format : IntFormat)
    (word : UInt64) :
    Shows buffer claims (Function.update fill? number (some (format, word)))
      ⟨⟨overwrite session.buffer.bytes gap.start
        (format.order.encode (min gap.length format.bytes) word), session.buffer.position⟩,
        session.gaps⟩ where
  room := shows.room
  written := by
    rw [shows.gaps] at there
    obtain ⟨before, after, starts, split⟩ := exists_render_eq 0 fill? there
    rw [Nat.zero_add] at starts split
    have old := split fill? fun _ _ => rfl
    have new := split (Function.update fill? number (some (format, word))) fun _ apart =>
      Function.update_of_ne apart _ _
    rw [empty] at old
    rw [Function.update_self] at new
    have bytes : overwrite session.buffer.bytes gap.start
        (format.order.encode (min gap.length format.bytes) word) =
        overwrite buffer 0 (render (Function.update fill? number (some (format, word))) 0 claims) := by
      rw [shows.written, append, old, new, ← starts]
      exact overwrite_gap buffer before after gap.length format word
    rw [bytes, shows.position, append, length_render]
    exact congrArg _ (Nat.zero_add _).symm
  gaps := shows.gaps
  unfilled other beyond := by
    have inside : number < session.gaps.length := (List.getElem?_eq_some_iff.mp there).1
    have behind : session.gaps.length ≤ other := beyond
    rw [Function.update_of_ne (by omega)]
    exact shows.unfilled other behind

end Session.Shows

/-! ### Whole runs -/

/-- **The runs of calls that can be made**: a gap is filled after it was left, and once at most. -/
structure Lawful (buffer : Buffer) (calls : List Call) : Prop where
  once : ((fillings calls).map Prod.fst).Nodup
  left : ∀ index number format word, calls[index]? = some (.fillGap number format word) →
    number < ((Session.start buffer).run (calls.take index)).gaps.length

section Run

variable {buffer : Buffer} {calls : List Call} {call : Call}

theorem Lawful.front (lawful : Lawful buffer (calls ++ [call])) : Lawful buffer calls where
  once := by
    have once := lawful.once
    rw [fillings, List.filterMap_append, List.map_append] at once
    exact once.of_append_left
  left index number format word there := by
    have inside := (List.getElem?_eq_some_iff.mp there).1
    have left := lawful.left index number format word
      (by rw [List.getElem?_append_left inside, there])
    rwa [List.take_append_of_le_length (Nat.le_of_lt inside)] at left

theorem Session.run_append (session : Session) (calls : List Call) (call : Call) :
    session.run (calls ++ [call]) = (session.run calls).perform call := by
  rw [run, List.foldl_append]
  rfl

theorem claims_append (calls : List Call) (call : Call) :
    claims (calls ++ [call]) = claims calls ++ call.claim?.toList := by
  rw [claims, List.filterMap_append]
  cases call <;> rfl

/-- A claim does not fill anything. -/
theorem filling?_append_of_claim {claim : Claim} (calls : List Call)
    (claims : call.claim? = some claim) : filling? (calls ++ [call]) = filling? calls := by
  have nothing : [call].filterMap Call.filling? = [] := by
    cases call with
    | fillGap => cases claims
    | _ => rfl
  funext number
  rw [filling?, fillings, List.filterMap_append, nothing, List.append_nil]
  rfl

/-- Where every gap is filled once, the fillings before one are those of other gaps. -/
theorem bne_of_filled_once {before after : List (Nat × Filling)} {number : Nat} {filling : Filling}
    (once : ((before ++ (number, filling) :: after).map Prod.fst).Nodup) :
    ∀ entry ∈ before, number != entry.1 := by
  intro entry earlier
  rw [List.map_append, List.nodup_append] at once
  exact bne_iff_ne.mpr (Ne.symm (once.2.2 _ (List.mem_map_of_mem earlier) _ List.mem_cons_self))

/-- A filling that comes last is the one of its gap. -/
theorem filling?_append_fillGap {number : Nat} {format : IntFormat} {word : UInt64}
    (once : ((fillings (calls ++ [.fillGap number format word])).map Prod.fst).Nodup) :
    filling? calls number = none ∧
      filling? (calls ++ [.fillGap number format word]) =
        Function.update (filling? calls) number (some (format, word)) := by
  have split : fillings (calls ++ [.fillGap number format word]) =
      fillings calls ++ [(number, format, word)] := List.filterMap_append
  have first : filling? calls number = none := by
    rw [filling?, List.lookup_eq_none_iff]
    exact bne_of_filled_once (split ▸ once)
  refine ⟨first, funext fun other => ?_⟩
  rw [filling?, split, List.lookup_append]
  by_cases same : other = number
  · subst same
    rw [show (fillings calls).lookup other = none from first, Function.update_self]
    simp
  · rw [Function.update_of_ne same]
    simp [List.lookup_cons, beq_eq_false_iff_ne.mpr same, filling?]

/-- A claim is shown if there is room for it. -/
theorem Session.Shows.claim {shown : List Claim} {fill? : Nat → Option Filling} {session : Session}
    {claim : Claim} (shows : Shows buffer shown fill? session) (claims : call.claim? = some claim) :
    Shows buffer (if claimed shown + claim.length ≤ buffer.size then shown ++ [claim] else shown) fill?
      (session.perform call) := by
  by_cases room : claimed shown + claim.length ≤ buffer.size
  · rw [if_pos room, perform,
      Call.run_of_claim claims (by rw [shows.position, shows.size]; exact room)]
    exact shows.grant room
  · rw [if_neg room, perform,
      Call.run_of_claim_of_lt claims (by rw [shows.position, shows.size]; omega)]
    exact shows

/-- **What the buffer shows after a run of calls**: the claims that were granted, with the fillings of
the run. -/
theorem Session.shows_run (lawful : Lawful buffer calls) :
    Shows buffer (granted buffer.size (claims calls)) (filling? calls)
      ((Session.start buffer).run calls) := by
  -- on the last call, which is a claim or fills a gap
  induction calls using List.reverseRecOn with
  | nil => exact .start buffer
  | append_singleton calls call ih =>
      have shows := ih lawful.front
      rw [run_append, claims_append]
      cases claimed : call.claim? with
      | some claim =>
          rw [filling?_append_of_claim calls claimed, Option.toList_some, granted_append]
          exact shows.claim claimed
      | none =>
          cases call with
          | fillGap number format word =>
              obtain ⟨empty, last⟩ := filling?_append_fillGap lawful.once
              have inside := lawful.left calls.length number format word List.getElem?_concat_length
              rw [List.take_left] at inside
              rw [last, Option.toList_none, List.append_nil, perform,
                Call.run_fillGap (List.getElem?_eq_getElem inside)]
              exact shows.fill (List.getElem?_eq_getElem inside) empty format word
          | _ => cases claimed

theorem Session.accepted_append (session : Session) (calls : List Call) (call : Call) :
    session.accepted (calls ++ [call]) =
      session.accepted calls ++ (session.run calls).accepted [call] := by
  induction calls generalizing session with
  | nil => rfl
  | cons first rest ih =>
      have next : session.run (first :: rest) = (session.perform first).run rest := rfl
      rw [List.cons_append, accepted, accepted, next, perform]
      cases first.run session with
      | ok _ after => exact (congrArg _ (ih after)).trans (List.append_assoc ..).symm
      | error _ after => exact ih after

/-- **What succeeds is what is granted**: the lengths of the claims decide, and not the fillings. -/
theorem Session.accepted_eq_granted (lawful : Lawful buffer calls) :
    (Session.start buffer).accepted calls = granted buffer.size (claims calls) := by
  induction calls using List.reverseRecOn with
  | nil => rfl
  | append_singleton calls call ih =>
      have shows := shows_run lawful.front
      rw [accepted_append, ih lawful.front, claims_append, accepted]
      cases claimed : call.claim? with
      | some claim =>
          rw [Option.toList_some, granted_append]
          by_cases room : WriteBuffer.claimed (granted buffer.size (claims calls)) + claim.length ≤
              buffer.size
          · rw [if_pos room,
              Call.run_of_claim claimed (by rw [shows.position, shows.size]; exact room)]
            rfl
          · rw [if_neg room,
              Call.run_of_claim_of_lt claimed (by rw [shows.position, shows.size]; omega)]
            exact List.append_nil _
      | none =>
          rw [Option.toList_none, List.append_nil]
          cases call.run ((start buffer).run calls) <;> exact List.append_nil _

/-- Claims and fillings decide what is shown. -/
theorem Session.Shows.eq {shown : List Claim} {fill? : Nat → Option Filling}
    {session other : Session} (shows : Shows buffer shown fill? session)
    (shows' : Shows buffer shown fill? other) : session = other := by
  obtain ⟨buffer, gaps⟩ := session
  obtain ⟨buffer', gaps'⟩ := other
  rw [Session.mk.injEq]
  exact ⟨shows.written.trans shows'.written.symm, shows.gaps.trans shows'.gaps.symm⟩

/-- A gap that is filled once has that filling. -/
theorem filling?_eq_some_iff (once : ((fillings calls).map Prod.fst).Nodup) {number : Nat}
    {filling : Filling} : filling? calls number = some filling ↔ (number, filling) ∈ fillings calls := by
  constructor
  · intro found
    obtain ⟨before, after, split, -⟩ := List.lookup_eq_some_iff.mp found
    rw [split]
    exact List.mem_append_right _ List.mem_cons_self
  · intro inside
    obtain ⟨before, after, split⟩ := List.append_of_mem inside
    exact List.lookup_eq_some_iff.mpr ⟨before, after, split, bne_of_filled_once (split ▸ once)⟩

/-- The order of the fillings does not matter. -/
theorem filling?_perm {others : List Call} (once : ((fillings calls).map Prod.fst).Nodup)
    (same : (fillings others).Perm (fillings calls)) : filling? others = filling? calls := by
  funext number
  apply Option.ext
  intro filling
  have onceToo : ((fillings others).map Prod.fst).Nodup := (same.map Prod.fst).nodup_iff.mpr once
  rw [filling?_eq_some_iff once, filling?_eq_some_iff onceToo, same.mem_iff]

end Run

/-- **Gaps are isolated, and their fillings commute.** For every buffer and every run of calls that can
be made on it, the position is the sum of the lengths that were claimed with success, and lies in the
buffer. The buffer shows the chunks and gaps of these claims one behind the other, a gap with its filling
or with zeros; behind the position it is as it was. A call is refused for lack of room only, and then
changes nothing. Another run with the same claims and the same fillings, made at other times and in
another order, ends the same. -/
theorem gaps_isolated (buffer : Buffer) {calls : List Call} (lawful : Lawful buffer calls) :
    let session := (Session.start buffer).run calls
    let shown := (Session.start buffer).accepted calls
    session.buffer.position = claimed shown ∧ session.buffer.position ≤ buffer.size ∧
    session.buffer.bytes.toList =
      render (filling? calls) 0 shown ++ buffer.toList.drop session.buffer.position ∧
    (∀ index, session.buffer.position ≤ index → session.buffer.bytes[index]? = buffer[index]?) ∧
    (∀ (call : Call) (cause : WriteError) (next : Session), call.run session = .error cause next ↔
      next = session ∧ ∃ claim, call.claim? = some claim ∧
        buffer.size < session.buffer.position + claim.length ∧
        cause = .writeFailed (session.buffer.position + claim.length) buffer.size) ∧
    ∀ others, Lawful buffer others → claims others = claims calls →
      (fillings others).Perm (fillings calls) → (Session.start buffer).run others = session := by
  intro session shown
  have shows : Session.Shows buffer shown (filling? calls) session := by
    have shows := Session.shows_run lawful
    rwa [← Session.accepted_eq_granted lawful] at shows
  have bytes : session.buffer.bytes = overwrite buffer 0 (render (filling? calls) 0 shown) := by
    rw [shows.written]
    rfl
  have room := shows.room
  refine ⟨shows.position, by rw [shows.position]; exact room, ?_, fun index behind => ?_, ?_, ?_⟩
  · rw [bytes, toList_overwrite (by rw [length_render]; omega), length_render, shows.position,
      List.take_zero, List.nil_append, Nat.zero_add]
  · rw [shows.position] at behind
    rw [bytes, getElem?_overwrite, if_neg (by rw [length_render]; omega)]
  · intro call cause next
    rw [← shows.size]
    exact Call.run_eq_error_iff
  · intro others made same perm
    have again := Session.shows_run made
    rw [same, filling?_perm lawful.once perm, ← Session.accepted_eq_granted lawful] at again
    exact again.eq shows

/-- Two gaps, the second one longer than the word that is put in it, and a chunk that has no room. -/
def sampleCalls : List Call :=
  [.leaveGap 2, .write [1, 2, 3], .leaveGap 3, .write [9, 9, 9], .writeInt ⟨.one, false, .big⟩ 7,
    .fillGap 1 ⟨.two, false, .little⟩ 0x0506, .fillGap 0 ⟨.two, false, .big⟩ 0x0102]

/-- The same claims, with the gaps filled as soon as they are left. -/
def sampleCallsEarly : List Call :=
  [.leaveGap 2, .fillGap 0 ⟨.two, false, .big⟩ 0x0102, .write [1, 2, 3], .leaveGap 3,
    .fillGap 1 ⟨.two, false, .little⟩ 0x0506, .write [9, 9, 9], .writeInt ⟨.one, false, .big⟩ 7]

def sampleBuffer : Buffer := Array.replicate 10 0xaa

theorem gaps_isolated_sampleCalls :
    Lawful sampleBuffer sampleCalls ∧ Lawful sampleBuffer sampleCallsEarly ∧
      ((Session.start sampleBuffer).run sampleCalls).buffer.position = 9 ∧
      ((Session.start sampleBuffer).run sampleCalls).buffer.bytes.toList =
        [1, 2, 1, 2, 3, 6, 5, 0, 7, 0xaa] ∧
      (Session.start sampleBuffer).run sampleCallsEarly =
        (Session.start sampleBuffer).run sampleCalls := by
  have late : Lawful sampleBuffer sampleCalls := by
    refine ⟨by decide, fun index number format word there => ?_⟩
    rcases index with _ | _ | _ | _ | _ | _ | _ | index <;> cases there <;> decide +kernel
  have early : Lawful sampleBuffer sampleCallsEarly := by
    refine ⟨by decide, fun index number format word there => ?_⟩
    rcases index with _ | _ | _ | _ | _ | _ | _ | index <;> cases there <;> decide +kernel
  have sameFillings : (fillings sampleCallsEarly).Perm (fillings sampleCalls) := .swap _ _ []
  obtain ⟨position, -, bytes, -, -, order⟩ := gaps_isolated sampleBuffer late
  have ends : claimed ((Session.start sampleBuffer).accepted sampleCalls) = 9 := by decide +kernel
  rw [ends] at position
  rw [position] at bytes
  exact ⟨late, early, position, bytes.trans (by decide +kernel),
    order sampleCallsEarly early rfl sameFillings⟩

end RecordLayout.WriteBuffer
