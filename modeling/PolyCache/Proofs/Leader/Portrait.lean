import PolyCache.Leader.Election
import PolyCache.Proofs.Leader.Departure

-- What a lock server has to do with a contest. A portrait of a server tells which states of a
-- contest it shows, and it is faithful if all that the server does for its electors is what may
-- happen in the contest.
namespace PolyCache.Leader

-- The session that a call is made on.
def Call.session? : Call → Option SessionId
  | .acquire => none
  | .tryLock s _ | .holdsLock s _ | .unlock s _ => some s

namespace Elector

variable {e : Elector}

theorem IsSound.mem_sessions (he : e.IsSound) {call : Call} (calls : e.call? = some call)
    {s : SessionId} (hs : call.session? = some s) : s ∈ e.sessions := by
  unfold IsSound at he
  unfold call? at calls
  cases hp : e.phase with
  | idle | ended => simp [hp] at calls
  | acquiring =>
      obtain rfl : .acquire = call := by simpa [hp] using calls
      cases hs
  | trying t | verifying t =>
      simp only [hp, Option.some.injEq] at calls he
      subst calls
      obtain rfl := Option.some.inj hs
      simp [sessions, he.2]
  | releasing t =>
      simp only [hp, Option.some.injEq] at calls
      subst calls
      obtain rfl := Option.some.inj hs
      simp [sessions, hp, Phase.released?]

theorem phase_of_no_call (h : e.call? = none) (hended : e.hasEnded = false) : e.phase = .idle := by
  cases hp : e.phase <;> simp [call?, hasEnded, hp] at h hended ⊢

-- An elector that wakes looks at no session but its own.
theorem wake_congr {f g : SessionId → Bool} (h : ∀ s, e.session = some s → f s = g s)
    (cause : Wake) : e.wake f cause = e.wake g cause := by
  cases hs : e.session with
  | none => cases cause <;> simp [wake, check, heartbeat, hs]
  | some s => cases cause <;> simp [wake, check, heartbeat, hs, h s hs]

end Elector

namespace Contest

variable {w u v : Contest} {a : Act} {i : ContenderId} {c : Contender} {call : Call}
  {before after : Option Reply}

-- A contender calls on a session that is open as far as anybody has been told.
theorem Sound.session_of_call (hw : w.Sound) (hc : w.contenders[i]? = some c)
    (calls : c.elector.call? = some call) {s : SessionId} (hs : call.session? = some s) :
    s ∈ w.opened ∧ s ∉ w.closing := by
  have hmem : s ∈ c.sessions := List.mem_append_left _ (List.mem_append_left _
    ((hw.elector_of hc).mem_sessions calls hs))
  exact ⟨hw.opened s (mem_places hc hmem), hw.notMem_closing hc hmem⟩

-- An act in which neither a call nor a session nor the lock gets lost.
def IsOrdinary : Act → Prop
  | .serve _ (.unheard _) | .disconnect _ | .usurp _ => False
  | _ => True

theorem IsOrdinary.isHeard (ha : IsOrdinary a) : IsHeard a := by
  unfold IsOrdinary at ha
  unfold IsHeard
  split at ha <;> simp_all

-- The contest goes on to another state in the ordinary way.
def Becomes (w u : Contest) : Prop := ∃ h, Run w h u ∧ ∀ x ∈ h, IsOrdinary x.2

theorem Becomes.refl (w : Contest) : w.Becomes w := ⟨[], .rest, by simp⟩

theorem Becomes.trans (hu : w.Becomes u) (hv : u.Becomes v) : w.Becomes v := by
  obtain ⟨h, hr, hh⟩ := hu
  obtain ⟨g, hg, hgs⟩ := hv
  refine ⟨g ++ h, hr.append hg, fun x hx => ?_⟩
  exact (List.mem_append.mp hx).elim (hgs x) (hh x)

theorem Next.becomes (h : w.Next a u) (ha : IsOrdinary a) : w.Becomes u :=
  ⟨[(w, a)], .step .rest h, by simpa using ha⟩

theorem put_same (hc : w.contenders[i]? = some c) : w.put i c = w := by
  obtain ⟨hi, rfl⟩ := List.getElem?_eq_some_iff.mp hc
  simp [put]

-- What the server does for a call at one time, with the reply that the call is sure to get before
-- and after it.
inductive Attends (w : Contest) (call : Call) : Option Reply → Option Reply → Contest → Prop where
  | rest (reply : Option Reply) : Attends w call reply reply w
  | grant {u : Contest} {s : SessionId} (acquires : call = .acquire)
      (grant : w.handOut? s = some u) : Attends w call none (some (.session s)) u
  | answer {u : Contest} {yes : Bool} (done : w.perform? call = some (yes, u)) :
      Attends w call none (some (.answer yes)) u
  | fail (fault : Fault) : Attends w call none (some (.failed fault)) w

theorem Attends.contenders_eq (ha : w.Attends call before after u) (hw : w.Sound) :
    u.contenders = w.contenders := by
  cases ha with
  | rest | fail => rfl
  | grant acquires grant =>
      obtain ⟨idle, opened, alive, rfl, -, -, -⟩ := handOut?_eq hw grant
      rfl
  | answer done =>
      obtain ⟨locks, depth, -, rfl⟩ := perform?_eq hw.locks done
      rfl

-- A session for which there is no contender yet leaves the contest in order.
theorem Attends.sound_and_guarded (ha : w.Attends .acquire before after u) (hw : w.Sound)
    (hg : w.Guarded) : u.Sound ∧ u.Guarded := by
  cases ha with
  | rest | fail => exact ⟨hw, hg⟩
  | grant acquires grant =>
      obtain ⟨-, -, -, -, hu, -, -⟩ := handOut?_eq hw grant
      exact ⟨hu, (hg.handOut grant).1⟩
  | answer done => cases done

theorem Attends.trans {last : Option Reply} (hu : w.Attends call before after u)
    (hv : u.Attends call after last v) : w.Attends call before last v := by
  cases hu with
  | rest => exact hv
  | grant acquires grant =>
      cases hv
      exact .grant acquires grant
  | answer done =>
      cases hv
      exact .answer done
  | fail fault =>
      cases hv
      exact .fail fault

-- Done for the call of a contender, it is an act of the contest.
theorem Attends.becomes (ha : w.Attends call before after u) (hc : w.contenders[i]? = some c)
    (gone : c.partings = []) (replied : c.reply = before) (calls : c.elector.call? = some call) :
    w.Becomes (u.put i { c with reply := after }) := by
  cases ha with
  | rest =>
      rw [← replied, put_same hc]
      exact .refl w
  | grant acquires grant =>
      exact (Next.grant hc ⟨gone, replied⟩ (acquires ▸ calls) grant).becomes trivial
  | answer done => exact (Next.answer hc ⟨gone, replied⟩ calls done).becomes trivial
  | fail fault => exact (Next.fail hc ⟨gone, replied⟩ calls fault).becomes trivial

theorem Next.key (hw : w.Sound) (h : w.Next a u) : u.key = w.key := by
  cases h with
  | start grant | grant _ _ _ grant =>
      obtain ⟨idle, opened, alive, rfl, -, -, -⟩ := handOut?_eq hw grant
      rfl
  | answer _ _ _ done | unheard _ _ _ done =>
      obtain ⟨locks, depth, -, rfl⟩ := perform?_eq hw.locks done
      rfl
  | wake | fail | deliver | read | retire | disconnect => rfl
  | part =>
      unfold dispose
      split <;> rfl
  | @usurp outsider => cases outsider <;> rfl

theorem Run.key {h : History} (hr : Run w h u) (hw : w.Sound) : u.key = w.key := by
  induction hr with
  | rest => rfl
  | step before next ih => exact (next.key (before.sound hw)).trans ih

end Contest

-- Parts with a session in the way that it has been let go of.
def LockServer.part {σ : Type} [LockServer σ] (s : σ) (p : Parting) : σ :=
  if p.isIntact then giveBack s p.session else discard s p.session

def Progress.reply? {π : Type} (settled? : π → Option Reply) : Progress π → Option Reply
  | .reply answer => some answer
  | .pending work => settled? work

structure Portrait (σ : Type) [LockServer σ] where
  locks : σ → Locks
  -- the server's part in the state of a contest, whoever the contenders are
  Shows : σ → Contest → Prop
  -- the reply that a call is sure to get, though work on it is left
  settled? : LockServer.Work σ → Option Reply
  -- which call some work is for
  Carries : σ → Call → LockServer.Work σ → Prop

namespace Portrait

variable {σ : Type} [LockServer σ]

-- The work on calls goes on as before.
def Keeps (p : Portrait σ) (s t : σ) : Prop :=
  ∀ call work, p.Carries s call work → p.Carries t call work

-- The server has attended to a call.
structure Attends (p : Portrait σ) (s : σ) (w : Contest) (call : Call) (before : Option Reply)
    (result : Progress (LockServer.Work σ) × σ) : Prop where
  shows : ∃ u, w.Attends call before (result.1.reply? p.settled?) u ∧ p.Shows result.2 u
  carries : ∀ work, result.1 = .pending work → p.Carries result.2 call work
  keeps : p.Keeps s result.2

-- The contest goes on to what the server shows, and the contenders stay as they are.
def Reaches (p : Portrait σ) (w : Contest) (s : σ) : Prop :=
  ∃ u, w.Becomes u ∧ u.contenders = w.contenders ∧ p.Shows s u

structure IsFaithful (p : Portrait σ) : Prop where
  locks {s : σ} {w : Contest} (hs : p.Shows s w) : w.locks = p.locks s
  shows_contenders {s : σ} {w : Contest} (hs : p.Shows s w) (contenders : List Contender) :
    p.Shows s { w with contenders }
  place {s t : σ} (h : LockServer.admit? s = some t) : p.Keeps s t ∧ ∀ w, p.Shows s w → p.Shows t w
  start {s : σ} {w : Contest} {call : Call} (hs : p.Shows s w) (hw : w.Sound) (hg : w.Guarded)
    (hcall : ∀ t, call.session? = some t → t ∈ w.opened ∧ t ∉ w.closing) :
    p.Attends s w call none (LockServer.start s call)
  proceed {s : σ} {w : Contest} {call : Call} {work : LockServer.Work σ} (hs : p.Shows s w)
    (hw : w.Sound) (hg : w.Guarded) (hc : p.Carries s call work) :
    p.Attends s w call (p.settled? work) (LockServer.proceed s work)
  -- a session is there after two rounds at most
  prompt {s : σ} {work : LockServer.Work σ} (hc : p.Carries s .acquire work) :
    ∃ reply t, LockServer.proceed s work = (.reply reply, t)
  isClosed {s : σ} {w : Contest} {t : SessionId} (hs : p.Shows s w) (ht : t ∉ w.closing)
    (hc : LockServer.isClosed s t = true) : t ∉ w.alive
  part {s : σ} {w : Contest} (hs : p.Shows s w) (q : Parting) :
    ∃ keeps, p.Reaches (w.dispose q keeps) (LockServer.part s q)
  carries_part {s : σ} {call : Call} {work : LockServer.Work σ} {q : Parting}
    (hc : p.Carries s call work) (hq : call.session? ≠ some q.session) :
    p.Carries (LockServer.part s q) call work
  endRound {s : σ} {w : Contest} (hs : p.Shows s w) : p.Reaches w (LockServer.endRound s)
  carries_endRound (s : σ) : p.Keeps s (LockServer.endRound s)

end Portrait

end PolyCache.Leader
