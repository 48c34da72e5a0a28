import PolyCache.Proofs.Leader.Contest

-- What one step of an elector does with its flag and its sessions, whatever wakes it and whatever
-- the server replies.
namespace PolyCache.Leader

section Steps

variable (st : Step)

@[simp] theorem Elector.elector_rest (e : Elector) : e.rest.elector = e := rfl

@[simp] theorem Elector.partings_rest (e : Elector) : e.rest.partings = [] := rfl

@[simp] theorem Step.elector_did (effect : Effect) : (st.did effect).elector = st.elector := rfl

@[simp] theorem Step.partings_did (effect : Effect) :
    (st.did effect).partings = st.partings ++ effect.parting?.toList := by
  cases effect <;> simp [Step.did, Step.partings, Effect.parting?]

@[simp] theorem Step.elector_enter (phase : Phase) :
    (st.enter phase).elector = { st.elector with phase } := rfl

@[simp] theorem Step.partings_enter (phase : Phase) : (st.enter phase).partings = st.partings := rfl

@[simp] theorem Step.elector_setFlag (isLeader : Bool) :
    (st.setFlag isLeader).elector =
      { st.elector with isLeader, flagWrites := st.elector.flagWrites + 1 } := rfl

@[simp] theorem Step.partings_setFlag (isLeader : Bool) :
    (st.setFlag isLeader).partings = st.partings := rfl

@[simp] theorem Step.elector_pin (session : Option SessionId) :
    (st.pin session).elector = { st.elector with session } := rfl

@[simp] theorem Step.partings_pin (session : Option SessionId) :
    (st.pin session).partings = st.partings := rfl

@[simp] theorem Step.elector_log (level : Level) (message : String)
    (more : List (String × String)) : (st.log level message more).elector = st.elector := rfl

@[simp] theorem Step.partings_log (level : Level) (message : String)
    (more : List (String × String)) : (st.log level message more).partings = st.partings := by
  simp [Step.log, Effect.parting?]

@[simp] theorem Step.elector_finish : st.finish.elector = { st.elector with phase := .ended } := rfl

@[simp] theorem Step.partings_finish : st.finish.partings = st.partings := by
  simp [Step.finish]

theorem Step.report_eq (operation : Operation) (fault : Fault) :
    ∃ errors, (st.report operation fault).elector = { st.elector with errors } ∧
      (st.report operation fault).partings = st.partings := by
  simp only [Step.report, Step.queue]
  split
  · exact ⟨_, rfl, by simp [Step.partings, Step.did, Step.log, Effect.parting?]⟩
  · exact ⟨st.elector.errors, rfl, by simp [Effect.parting?]⟩

@[simp] theorem Step.partings_report (operation : Operation) (fault : Fault) :
    (st.report operation fault).partings = st.partings :=
  (st.report_eq operation fault).choose_spec.2

@[simp] theorem Step.key_report (operation : Operation) (fault : Fault) :
    (st.report operation fault).elector.key = st.elector.key := by
  obtain ⟨errors, he, -⟩ := st.report_eq operation fault
  rw [he]

@[simp] theorem Step.session_report (operation : Operation) (fault : Fault) :
    (st.report operation fault).elector.session = st.elector.session := by
  obtain ⟨errors, he, -⟩ := st.report_eq operation fault
  rw [he]

@[simp] theorem Step.isLeader_report (operation : Operation) (fault : Fault) :
    (st.report operation fault).elector.isLeader = st.elector.isLeader := by
  obtain ⟨errors, he, -⟩ := st.report_eq operation fault
  rw [he]

@[simp] theorem Step.phase_report (operation : Operation) (fault : Fault) :
    (st.report operation fault).elector.phase = st.elector.phase := by
  obtain ⟨errors, he, -⟩ := st.report_eq operation fault
  rw [he]

end Steps

@[simp] theorem Step.elector_stepDown (st : Step) :
    st.stepDown.elector =
      { st.elector with
        isLeader := false, session := none, flagWrites := st.elector.flagWrites + 1 } := by
  unfold Step.stepDown
  cases h : st.elector.session <;> rfl

@[simp] theorem Step.partings_stepDown (st : Step) :
    st.stepDown.partings = st.partings ++ st.elector.session.toList.map fun s => ⟨s, false⟩ := by
  unfold Step.stepDown
  cases h : st.elector.session <;> simp [Effect.parting?]

def Phase.released? : Phase → Option SessionId
  | .releasing s => some s
  | _ => none

def Reply.granted? : Reply → Option SessionId
  | .session s => some s
  | _ => none

namespace Elector

-- An elector leads with a pinned session only, and never while it seeks the lock.
def IsSound (e : Elector) : Prop :=
  match e.phase with
  | .idle => e.isLeader = true → e.session.isSome = true
  | .trying s => e.isLeader = false ∧ e.session = some s
  | .verifying s => e.isLeader = true ∧ e.session = some s
  | .acquiring | .releasing _ | .ended => e.isLeader = false ∧ e.session = none

-- Whether a reply is one to the call that the elector waits for.
def Expects (e : Elector) : Reply → Prop
  | .session _ => e.call? = some .acquire
  | .answer _ => ∃ call, e.call? = some call ∧ call ≠ .acquire
  | .failed _ => e.call?.isSome = true

-- The sessions in an elector's hands.
def sessions (e : Elector) : List SessionId := e.session.toList ++ e.phase.released?.toList

end Elector

def Step.sessions (st : Step) : List SessionId :=
  st.elector.sessions ++ st.partings.map (·.session)

-- What a step does in all cases, with the reply to the elector's call if there is one: no session
-- gets lost or comes from nowhere, none is pinned but the one just granted, and the elector leads
-- after it only if it has led before on the same session or has just been told that it holds the
-- lock. An elector that stops to lead has no session.
structure Elector.Advances (e : Elector) (reply : Option Reply) (st : Step) : Prop where
  key : st.elector.key = e.key
  sound : st.elector.IsSound
  sessions : st.sessions.Perm (e.sessions ++ (reply.bind Reply.granted?).toList)
  pinned : ∀ s, st.elector.session = some s → e.session = some s ∨ reply = some (.session s)
  leads : st.elector.isLeader = true → st.elector.session = e.session ∧
    (e.isLeader = true ∨ reply = some (.answer true) ∧ ∃ s, e.phase = .trying s)
  lowers : e.isLeader = true → st.elector.isLeader = false → st.elector.session = none

namespace Elector

variable {e : Elector}

theorem isSound_new (key : LockKey) (session : SessionId) : (new key session).IsSound := by
  simp [IsSound, new]

theorem phase_of_acquire (h : e.call? = some .acquire) : e.phase = .acquiring := by
  cases hp : e.phase <;> simp [call?, hp] at h ⊢

-- After a reply an elector is done, or seeks the lock on a session that it has obtained.
theorem resume_phase {reply : Reply} (hx : e.Expects reply) :
    (e.resume reply).elector.phase = .idle ∨ (e.resume reply).elector.phase = .ended ∨
      ∃ s, (e.resume reply).elector.phase = .trying s := by
  cases hp : e.phase with
  | idle | ended => cases reply <;> simp [Expects, call?, hp] at hx
  | acquiring =>
      cases reply with
      | answer yes => simp [Expects, call?, hp] at hx
      | session s | failed fault => simp [resume, hp]
  | trying s | verifying s | releasing s =>
      cases reply with
      | session t => simp [Expects, call?, hp] at hx
      | answer yes => cases yes <;> simp [resume, hp]
      | failed fault => simp [resume, hp]

-- Unfolds what is said of a step to the fields of its elector.
theorem advances_of {reply : Option Reply} {st : Step} (key : st.elector.key = e.key)
    (sound : st.elector.IsSound)
    (sessions : (st.elector.session.toList ++ st.elector.phase.released?.toList ++
      st.partings.map (·.session)).Perm
        (e.session.toList ++ e.phase.released?.toList ++
          (reply.bind Reply.granted?).toList))
    (pinned : ∀ s, st.elector.session = some s → e.session = some s ∨ reply = some (.session s))
    (leads : st.elector.isLeader = true → st.elector.session = e.session ∧
      (e.isLeader = true ∨ reply = some (.answer true) ∧ ∃ s, e.phase = .trying s))
    (lowers : e.isLeader = true → st.elector.isLeader = false → st.elector.session = none) :
    e.Advances reply st :=
  ⟨key, sound, sessions, pinned, leads, lowers⟩

theorem check_advances (hs : e.IsSound) (hi : e.phase = .idle) (isClosed : SessionId → Bool) :
    e.Advances none (e.check isClosed) := by
  unfold check
  by_cases hl : e.isLeader = true
  · rw [if_pos hl]
    exact ⟨rfl, hs, by simp [Step.sessions], fun _ h => Or.inl h, fun _ => ⟨rfl, Or.inl hl⟩,
      by simp [hl]⟩
  · rw [if_neg hl]
    cases hp : e.session with
    | none => apply advances_of <;> simp_all [IsSound, Phase.released?]
    | some s =>
        dsimp only
        by_cases hc : isClosed s = true
        · rw [if_pos hc]
          apply advances_of <;> simp_all [IsSound, Phase.released?, Effect.parting?]
        · rw [if_neg hc]
          apply advances_of <;> simp_all [IsSound, Phase.released?]

theorem heartbeat_advances (hs : e.IsSound) (hi : e.phase = .idle)
    (isClosed : SessionId → Bool) : e.Advances none (e.heartbeat isClosed) := by
  unfold heartbeat
  by_cases hl : e.isLeader = true
  · rw [if_pos hl]
    cases hp : e.session with
    | none => simp_all [IsSound]
    | some s =>
        dsimp only
        by_cases hc : isClosed s = true
        · rw [if_pos hc]
          apply advances_of <;> simp_all [IsSound, Phase.released?]
        · rw [if_neg hc]
          apply advances_of <;> simp_all [IsSound, Phase.released?]
  · rw [if_neg hl]
    exact ⟨rfl, hs, by simp [Step.sessions], fun _ h => Or.inl h, fun h => absurd h hl,
      fun h => absurd h hl⟩

theorem stop_advances (hi : e.phase = .idle) : e.Advances none e.stop := by
  unfold stop
  cases hp : e.session with
  | none => apply advances_of <;> simp_all [IsSound, Phase.released?]
  | some s =>
      dsimp only
      by_cases hl : e.isLeader = true
      · rw [if_pos hl]
        apply advances_of <;> simp_all [IsSound, Phase.released?]
      · rw [if_neg hl]
        apply advances_of <;> simp_all [IsSound, Phase.released?, Effect.parting?]

theorem wake_advances (hs : e.IsSound) (hi : e.phase = .idle) (isClosed : SessionId → Bool)
    (cause : Wake) : e.Advances none (e.wake isClosed cause) := by
  cases cause with
  | check => exact check_advances hs hi isClosed
  | heartbeat => exact heartbeat_advances hs hi isClosed
  | stop => exact stop_advances hi

theorem resume_advances (hs : e.IsSound) {reply : Reply} (hr : e.Expects reply) :
    e.Advances (some reply) (e.resume reply) := by
  cases hp : e.phase with
  | idle | ended => cases reply <;> simp_all [Expects, call?]
  | acquiring =>
      cases reply with
      | session s =>
        apply advances_of <;> simp_all [IsSound, Phase.released?, resume, Reply.granted?]
      | answer yes => simp_all [Expects, call?]
      | failed fault =>
          apply advances_of <;> simp_all [IsSound, Phase.released?, resume, Reply.granted?]
  | trying s =>
      cases reply with
      | session t => simp_all [Expects, call?]
      | answer yes =>
          cases yes <;> apply advances_of <;>
            simp_all [IsSound, Phase.released?, resume, Reply.granted?]
      | failed fault =>
          apply advances_of <;> simp_all [IsSound, Phase.released?, resume, Reply.granted?]
  | verifying s =>
      cases reply with
      | session t => simp_all [Expects, call?]
      | answer yes =>
          cases yes <;> apply advances_of <;>
            simp_all [IsSound, Phase.released?, resume, Reply.granted?]
      | failed fault =>
          apply advances_of <;> simp_all [IsSound, Phase.released?, resume, Reply.granted?]
  | releasing s =>
      cases reply with
      | session t => simp_all [Expects, call?]
      | answer yes =>
          apply advances_of <;>
            simp_all [IsSound, Phase.released?, resume, Reply.granted?, Effect.parting?]
      | failed fault =>
          apply advances_of <;>
            simp_all [IsSound, Phase.released?, resume, Reply.granted?, Effect.parting?]

end Elector

end PolyCache.Leader
