import PolyCache.Proofs.Leader.Election
import PolyCache.Proofs.Leader.LockRows

-- The two lock servers have faithful portraits, so that the elections on them are contests.
namespace PolyCache.Leader

-- What a call does to the locks.
def Call.effect : Call → Locks → Bool × Locks
  | .acquire, l => (false, l)
  | .tryLock s key, l => ((l.take key s).isHeldBy key s, l.take key s)
  | .holdsLock s key, l => (l.isHeldBy key s, l)
  | .unlock s key, l => (l.isHeldBy key s, l.release key s)

namespace Locks

theorem releaseAll_releaseAll (l : Locks) (f g : SessionId → Bool) :
    (l.releaseAll f).releaseAll g = l.releaseAll fun s => f s || g s := by
  simp [releaseAll, List.filter_filter, Bool.and_comm]

theorem releaseAll_nil (l : Locks) : l.releaseAll (List.contains []) = l := by
  simp [releaseAll]

-- A key has one row, if it is held.
theorem countHeld_pos_iff {l : Locks} (hl : l.WellFormed) (key : LockKey) (s : SessionId) :
    0 < countHeld l.rows key s ↔ l.isHeldBy key s = true := by
  rw [rows_eq, countHeld_rows, List.count_pos_iff, isHeldBy_iff, holder?]
  rw [hl.distinct.lookup_eq_some_iff]
  simp [requests]

end Locks

namespace Contest

variable {w u : Contest} {call : Call} {s : SessionId}

-- While the lock is held once at most, a call does what it says.
theorem Guarded.perform? (hg : w.Guarded) (hs : call.session? = some s) (halive : s ∈ w.alive) :
    ∃ depth, w.perform? call =
      some ((call.effect w.locks).1, { w with locks := (call.effect w.locks).2, depth }) := by
  cases call with
  | acquire => cases hs
  | tryLock t key =>
      obtain rfl := Option.some.inj hs
      exact ⟨_, if_pos halive⟩
  | holdsLock t key =>
      obtain rfl := Option.some.inj hs
      exact ⟨w.depth, if_pos halive⟩
  | unlock t key =>
      obtain rfl := Option.some.inj hs
      simp only [Contest.perform?, if_pos halive, Call.effect, Locks.release]
      by_cases hheld : w.locks.isHeldBy key t = true
      · exact ⟨0, by simp [hheld, hg.single]⟩
      · exact ⟨w.depth, by simp [hheld]⟩

theorem Next.free (w : Contest) : w.Next (.usurp none) (w.yieldTo none) := .usurp (by simp)

-- Some sessions have been ended, one after the other.
structure Ended (w : Contest) (sessions : List SessionId) (u : Contest) : Prop where
  locks : u.locks = w.locks.releaseAll sessions.contains
  alive : ∀ s, s ∈ u.alive ↔ s ∈ w.alive ∧ s ∉ sessions
  opened : u.opened = w.opened
  idle : u.idle = w.idle
  closing : u.closing = w.closing
  contenders : u.contenders = w.contenders

theorem ended_finish {sessions : List SessionId} (hu : Ended (w.finish s) sessions u) :
    Ended w (s :: sessions) u := by
  refine ⟨?_, fun t => ?_, hu.opened, hu.idle, hu.closing, hu.contenders⟩
  · rw [hu.locks, finish, Locks.releaseAll_releaseAll]
    rfl
  · rw [hu.alive]
    simp [finish, and_assoc]

theorem exists_ended (act : SessionId → Act) (sessions : List SessionId)
    (hact : ∀ (v : Contest) s, v.closing = w.closing → s ∈ sessions → v.Next (act s) (v.finish s)) :
    ∃ h u, Run w h u ∧ (∀ x ∈ h, ∃ s, x.2 = act s) ∧ Ended w sessions u := by
  induction sessions generalizing w with
  | nil => exact ⟨[], w, .rest, by simp, (Locks.releaseAll_nil _).symm, by simp, rfl, rfl, rfl, rfl⟩
  | cons s sessions ih =>
      obtain ⟨h, u, hr, hh, hu⟩ := ih (w := w.finish s)
        fun v t hv ht => hact v t hv (List.mem_cons_of_mem s ht)
      have hfirst := Run.rest.step (hact w s rfl List.mem_cons_self)
      refine ⟨h ++ [(w, act s)], u, hfirst.append hr, fun x hx => ?_, ended_finish hu⟩
      rcases List.mem_append.mp hx with hx | hx
      · exact hh x hx
      · obtain rfl := List.mem_singleton.mp hx
        exact ⟨s, rfl⟩

end Contest

def Call.query? : Call → Option (CallName × SessionId × LockKey)
  | .acquire => none
  | .tryLock s key => some (.tryLock, s, key)
  | .holdsLock s key => some (.holdsLock, s, key)
  | .unlock s key => some (.unlock, s, key)

-- What a pool answers to a query is what the call does to the locks.
theorem Pool.answer_eq {call : Call} {name : CallName} {s : SessionId} {key : LockKey} {l : Locks}
    (hl : l.WellFormed) (hq : call.query? = some (name, s, key)) :
    Pool.answer l s key name = call.effect l := by
  cases call with
  | acquire => cases hq
  | tryLock t k | unlock t k =>
      cases hq
      rfl
  | holdsLock t k =>
      cases hq
      have hcount := Locks.countHeld_pos_iff hl key s
      simp only [answer, Call.effect, hcount, Bool.decide_eq_true]

theorem Call.session?_of_query {call : Call} {name : CallName} {s : SessionId} {key : LockKey}
    (hq : call.query? = some (name, s, key)) : call.session? = some s := by
  cases call <;> cases hq <;> rfl

namespace Pool

variable {p q : Pool} {w u : Contest} {call : Call} {s : SessionId} {key : LockKey}

-- The part of a pool in a contest. The server may still have connections that have been closed, and
-- dead ones are dropped some time after they have come back.
structure Shows (p : Pool) (w : Contest) : Prop where
  locks : w.locks = p.locks
  alive : ∀ s ∈ p.alive, s ∈ w.alive
  ended : ∀ s ∈ w.alive, s ∈ p.alive ∨ s ∈ p.closing
  closing : ∀ s ∈ p.closing, s ∈ w.closing ∧ s ∉ p.alive
  idle : p.idle.Sublist w.idle
  opened : ∀ s ∈ w.opened, s ≤ p.opened

def Carries (p : Pool) (call : Call) : PoolWork → Prop
  | .connecting _ => call = .acquire
  | .preparing name s key | .executing name s key =>
    call.query? = some (name, s, key) ∧ s ∈ p.alive

-- A session is sure to be had as soon as its connection is opened.
def portrait : Portrait Pool where
  locks := Pool.locks
  Shows := Shows
  settled?
    | .connecting s => some (.session s)
    | .preparing .. | .executing .. => none
  Carries := Carries

theorem Shows.of_same (hs : p.Shows w) (hlocks : q.locks = p.locks) (halive : q.alive = p.alive)
    (hclosing : q.closing = p.closing) (hidle : q.idle = p.idle) (hopened : q.opened = p.opened) :
    q.Shows w := by
  obtain ⟨locks, opened, taken, alive, idle, closing, isRefusing, failing, events⟩ := q
  cases hlocks
  cases halive
  cases hclosing
  cases hidle
  cases hopened
  exact ⟨hs.locks, hs.alive, hs.ended, hs.closing, hs.idle, hs.opened⟩

-- The pool works on a call for as long as the connection is there.
theorem keeps_of_alive (halive : ∀ s ∈ p.alive, s ∈ q.alive) : portrait.Keeps p q := by
  intro call work hc
  cases work with
  | connecting s => exact hc
  | preparing name s key | executing name s key => exact ⟨hc.1, halive s hc.2⟩

theorem attends_connect (hs : p.Shows w) (hw : w.Sound) :
    portrait.Attends p w .acquire none p.connect := by
  unfold connect
  split
  · exact ⟨⟨w, .fail _, hs.of_same rfl rfl rfl rfl rfl⟩, by simp, keeps_of_alive fun _ h => h⟩
  · have hnew : p.opened + 1 ∉ w.opened := fun h => Nat.not_succ_le_self _ (hs.opened _ h)
    have hidle : p.opened + 1 ∉ w.idle := fun h => hnew (hw.opened _ (by simp [Contest.places, h]))
    have hclosing : ∀ s ∈ p.closing, s ≠ p.opened + 1 := by
      rintro s hc rfl
      exact hnew (hw.opened _ (by simp [Contest.places, (hs.closing _ hc).1]))
    have hgrant : w.handOut? (p.opened + 1) = some { w with
        opened := (p.opened + 1) :: w.opened, alive := (p.opened + 1) :: w.alive } := by
      rw [Contest.handOut?, if_neg hidle, if_neg hnew]
    refine ⟨⟨_, .grant rfl hgrant, ?_⟩, ?_, keeps_of_alive fun s h => List.mem_append_left _ h⟩
    · refine ⟨hs.locks, ?_, ?_, ?_, hs.idle, ?_⟩
      · intro s h
        rcases List.mem_append.mp h with h | h
        · exact List.mem_cons_of_mem _ (hs.alive s h)
        · exact List.mem_singleton.mp h ▸ List.mem_cons_self
      · intro s h
        rcases List.mem_cons.mp h with rfl | h
        · exact Or.inl (List.mem_append_right _ List.mem_cons_self)
        · exact (hs.ended s h).imp_left (List.mem_append_left _)
      · intro s h
        refine ⟨(hs.closing s h).1, fun ha => ?_⟩
        rcases List.mem_append.mp ha with ha | ha
        · exact (hs.closing s h).2 ha
        · exact hclosing s h (List.mem_singleton.mp ha)
      · intro s h
        rcases List.mem_cons.mp h with rfl | h
        · exact Nat.le_refl _
        · exact Nat.le_succ_of_le (hs.opened s h)
    · rintro work ⟨⟩
      rfl

theorem attends_acquire (hs : p.Shows w) (hw : w.Sound) :
    portrait.Attends p w .acquire none p.acquire := by
  unfold acquire
  split
  · rename_i s idle hdrop
    have hsub : (s :: idle).Sublist w.idle := by
      rw [← hdrop]
      exact (List.dropWhile_sublist _).trans hs.idle
    have hgrant : w.handOut? s = some { w with idle := w.idle.erase s } := by
      rw [Contest.handOut?, if_pos (hsub.subset List.mem_cons_self)]
    refine ⟨⟨_, .grant rfl hgrant, ?_⟩, by simp, keeps_of_alive fun _ h => h⟩
    refine ⟨hs.locks, hs.alive, hs.ended, hs.closing, ?_, hs.opened⟩
    simpa using hsub.erase s
  · have hdropped : Shows { p with idle := [] } w :=
      ⟨hs.locks, hs.alive, hs.ended, hs.closing, List.nil_sublist _, hs.opened⟩
    have hkept : portrait.Keeps p { p with idle := [] } := keeps_of_alive fun _ h => h
    obtain ⟨hshows, hcarries, hkeeps⟩ := attends_connect hdropped hw
    exact ⟨hshows, hcarries, fun call work hc => hkeeps call work (hkept call work hc)⟩

theorem attends_startQuery (hs : p.Shows w) {name : CallName}
    (hq : call.query? = some (name, s, key)) :
    portrait.Attends p w call none (p.startQuery name s key) := by
  unfold startQuery
  split
  · rename_i halive
    refine ⟨⟨w, .rest _, hs⟩, ?_, fun _ _ hc => hc⟩
    rintro work ⟨⟩
    exact ⟨hq, by simpa [isAlive] using halive⟩
  · exact ⟨⟨w, .fail _, hs⟩, by simp, fun _ _ hc => hc⟩

theorem attends_start (hs : p.Shows w) (hw : w.Sound) :
    portrait.Attends p w call none (p.start call) := by
  cases call with
  | acquire => exact attends_acquire hs hw
  | tryLock | holdsLock | unlock => exact attends_startQuery hs rfl

theorem attends_execute (hs : p.Shows w) (hw : w.Sound) (hg : w.Guarded) {name : CallName}
    (hq : call.query? = some (name, s, key)) (halive : s ∈ p.alive) :
    portrait.Attends p w call none (p.proceed (.executing name s key)) := by
  unfold proceed execute
  dsimp only
  split
  · exact ⟨⟨w, .fail _, hs.of_same rfl rfl rfl rfl rfl⟩, by simp, keeps_of_alive fun _ h => h⟩
  · obtain ⟨depth, hdone⟩ := hg.perform? (Call.session?_of_query hq) (hs.alive s halive)
    have hanswer : answer p.locks s key name = call.effect w.locks := by
      rw [← hs.locks, answer_eq hw.locks hq]
    show portrait.Attends p w call none (.reply (.answer (answer p.locks s key name).1),
      { p.record (.executed (query name) key s) with locks := (answer p.locks s key name).2 })
    rw [hanswer]
    refine ⟨⟨_, .answer hdone, ?_⟩, by simp, keeps_of_alive fun _ h => h⟩
    exact ⟨rfl, hs.alive, hs.ended, hs.closing, hs.idle, hs.opened⟩

theorem attends_proceed (hs : p.Shows w) (hw : w.Sound) (hg : w.Guarded) {work : PoolWork}
    (hc : p.Carries call work) :
    portrait.Attends p w call (portrait.settled? work) (p.proceed work) := by
  cases work with
  | connecting s => exact ⟨⟨w, .rest _, hs⟩, by simp [proceed], fun _ _ hc => hc⟩
  | preparing name s key =>
      refine ⟨⟨w, .rest none, hs.of_same rfl rfl rfl rfl rfl⟩, ?_, keeps_of_alive fun _ h => h⟩
      rintro work ⟨⟩
      exact hc
  | executing name s key => exact attends_execute hs hw hg hc.1 hc.2

-- A session that is given back goes to the pool, and one that is discarded is closed.
theorem reaches_part (hs : p.Shows w) (d : Parting) :
    ∃ keeps, portrait.Reaches (w.dispose d keeps) (LockServer.part p d) := by
  refine ⟨true, _, .refl _, rfl, ?_⟩
  obtain ⟨s, isIntact⟩ := d
  cases isIntact with
  | true =>
      exact ⟨hs.locks, hs.alive, hs.ended, hs.closing, hs.idle.append_right [s], hs.opened⟩
  | false =>
      refine ⟨hs.locks, fun t ht => hs.alive t (List.mem_filter.mp ht).1, fun t ht => ?_,
        fun t ht => ?_, hs.idle, hs.opened⟩
      · by_cases hts : t = s
        · exact Or.inr (List.mem_append_right _ (List.mem_singleton.mpr hts))
        · exact (hs.ended t ht).imp (fun h => List.mem_filter.mpr ⟨h, by simpa using hts⟩)
            (List.mem_append_left _)
      · show t ∈ w.closing ++ [s] ∧ t ∉ p.alive.filter fun c => !(c == s)
        rcases List.mem_append.mp ht with ht | ht
        · obtain ⟨hclosing, halive⟩ := hs.closing t ht
          exact ⟨List.mem_append_left _ hclosing, fun h => halive (List.mem_filter.mp h).1⟩
        · obtain rfl := List.mem_singleton.mp ht
          exact ⟨List.mem_append_right _ List.mem_cons_self, by simp⟩

theorem carries_part {work : PoolWork} (hc : p.Carries call work) {d : Parting}
    (hd : call.session? ≠ some d.session) : Carries (LockServer.part p d) call work := by
  obtain ⟨s, isIntact⟩ := d
  cases isIntact with
  | true => exact keeps_of_alive (p := p) (fun _ h => h) call work hc
  | false =>
      cases work with
      | connecting t => exact hc
      | preparing name t key | executing name t key =>
          obtain ⟨hq, halive⟩ := hc
          refine ⟨hq, List.mem_filter.mpr ⟨halive, ?_⟩⟩
          rw [Call.session?_of_query hq] at hd
          simpa using hd

-- The server ends the connections that have been closed.
theorem reaches_endRound (hs : p.Shows w) : portrait.Reaches w p.endRound := by
  obtain ⟨h, u, hr, hh, hu⟩ := Contest.exists_ended Act.retire p.closing
    fun v s hv hm => .retire (hv ▸ (hs.closing s hm).1)
  refine ⟨u, ⟨h, hr, fun x hx => ?_⟩, hu.contenders, ?_⟩
  · obtain ⟨s, hs⟩ := hh x hx
    rw [hs]
    trivial
  · refine ⟨?_, fun s hm => ?_, fun s hm => ?_, by simp [endRound], ?_, ?_⟩
    · rw [hu.locks, hs.locks]
      rfl
    · exact (hu.alive s).mpr ⟨hs.alive s hm, fun hc => (hs.closing s hc).2 hm⟩
    · obtain ⟨halive, hnot⟩ := (hu.alive s).mp hm
      exact Or.inl ((hs.ended s halive).resolve_right hnot)
    · rw [hu.idle]
      exact hs.idle
    · rw [hu.opened]
      exact hs.opened

theorem portrait_isFaithful : portrait.IsFaithful where
  locks hs := hs.locks
  shows_contenders hs contenders := ⟨hs.locks, hs.alive, hs.ended, hs.closing, hs.idle, hs.opened⟩
  place {p q} h := by
    obtain ⟨-, h⟩ := Option.ite_none_right_eq_some.mp h
    obtain rfl := Option.some.inj h
    exact ⟨keeps_of_alive fun _ h => h, fun w hs => hs.of_same rfl rfl rfl rfl rfl⟩
  start hs hw hg hcall := attends_start hs hw
  proceed hs hw hg hc := attends_proceed hs hw hg hc
  prompt {p work} hc := by
    cases work with
    | connecting s => exact ⟨_, _, rfl⟩
    | preparing | executing => cases hc.1
  isClosed {p w s} hs hclosing hc halive := by
    have hdead : s ∉ p.alive := by simpa [LockServer.isClosed, isAlive] using hc
    exact (hs.ended s halive).elim hdead fun h => hclosing (hs.closing s h).1
  part hs d := reaches_part hs d
  carries_part hc hd := carries_part hc hd
  endRound hs := reaches_endRound hs
  carries_endRound p := keeps_of_alive fun _ h => h

theorem shows_new (key : LockKey) : Shows new (.new key) where
  locks := rfl
  alive := by simp [new]
  ended := by simp [Contest.new]
  closing := by simp [new]
  idle := List.nil_sublist _
  opened := by simp [Contest.new]

-- Calls fail from now on that have not failed so far, or the other way round, and the events are
-- taken to be looked at.
inductive Adjusts : Election Pool → Pool → Prop where
  | fail {e : Election Pool} (isRefusing : Bool) (failing : List CallName) :
      Adjusts e { e.server with isRefusing, failing }
  | takeEvents {e : Election Pool} : Adjusts e e.server.takeEvents.2

-- All connections are cut while no call is with the server, or the lock is freed. An outsider that
-- takes the lock is left out: its session would need a number that no connection gets later.
inductive Meddles (key : LockKey) : Election Pool → Pool → Prop where
  | adjust {e : Election Pool} {p : Pool} (adjusts : Adjusts e p) : Meddles key e p
  | kill {e : Election Pool} (unserved : ∀ c ∈ e.candidates, ∀ work, c.standing ≠ .served work) :
      Meddles key e e.server.kill
  | free {e : Election Pool} :
      Meddles key e { e.server with locks := e.server.locks.free key }

variable {e : Election Pool}

theorem Adjusts.follows (h : Adjusts e p) (hf : portrait.Follows key e w) :
    portrait.Follows key { e with server := p } w := by
  cases h with
  | fail | takeEvents =>
      exact ⟨hf.next (.refl w) (hf.orderly.keeps (keeps_of_alive fun _ h => h))
        (Shows.of_same hf.shows rfl rfl rfl rfl rfl), hf.contenders⟩

theorem shows_kill (hs : p.Shows w) (hu : Contest.Ended w p.alive u) : p.kill.Shows u where
  locks := by
    rw [hu.locks, hs.locks]
    rfl
  alive := by simp [kill]
  ended s hm := by
    obtain ⟨halive, hnot⟩ := (hu.alive s).mp hm
    exact Or.inr ((hs.ended s halive).resolve_left hnot)
  closing s hm := by
    rw [hu.closing]
    exact ⟨(hs.closing s hm).1, by simp [kill]⟩
  idle := by
    rw [hu.idle]
    exact hs.idle
  opened := by
    rw [hu.opened]
    exact hs.opened

theorem Meddles.portrays (h : Meddles key e p)
    (hp : portrait.Portrays Contest.IsHeard key e) :
    portrait.Portrays Contest.IsHeard key { e with server := p } := by
  cases h with
  | adjust adjusts =>
      exact hp.next (fun _ ha => ha.isHeard) fun w hf => (adjusts.follows hf).catches
  | kill unserved =>
      refine hp.meddle (fun _ ha => ha) fun w hf => ⟨hf.orderly.of_unserved unserved, ?_⟩
      obtain ⟨g, u, hg, hgs, hu⟩ := Contest.exists_ended (w := w) Act.disconnect e.server.alive
        fun v s _ _ => .disconnect s
      refine ⟨g, u, hg, fun x hx => ?_, shows_kill hf.shows hu, hu.contenders⟩
      obtain ⟨s, hs⟩ := hgs x hx
      rw [hs]
      trivial
  | free =>
      refine hp.meddle (fun _ ha => ha) fun w hf => ?_
      have horderly := hf.orderly.keeps (t := { e.server with locks := e.server.locks.free key })
        (keeps_of_alive fun _ h => h)
      refine ⟨horderly, _, _, .step .rest (.free w), by simp [Contest.IsHeard], ?_, rfl⟩
      obtain ⟨hlocks, halive, hended, hclosing, hidle, hopened⟩ : Shows e.server w := hf.shows
      refine ⟨?_, halive, hended, hclosing, hidle, hopened⟩
      rw [Contest.yieldTo, hlocks, hf.key]

-- Every election on a pool of connections is a contest.
theorem election_is_contest (h : Election.Reached key new (Meddles key) e) :
    ∃ h w, Contest.Run (.new key) h w ∧ (∀ x ∈ h, Contest.IsHeard x.2) ∧
      w.contenders = portrait.contenders e ∧ w.locks = e.server.locks :=
  (h.portrays portrait_isFaithful (fun _ ha => ha.isHeard) (shows_new key)
    fun _ _ hm hp => hm.portrays hp).exists_run portrait_isFaithful

-- While no connection is cut and nobody else touches the lock, at most one candidate leads.
theorem leader_holds_lock (h : Election.Reached key new Adjusts e) {i : CandidateId}
    {c : Candidate (LockServer.Work Pool)} (hc : e.candidate? i = some c)
    (hl : c.elector.isLeader = true) :
    ∃ s, c.elector.session = some s ∧ e.server.locks.holder? key = some s ∧
      ∀ j d, e.candidate? j = some d → d.elector.isLeader = true → j = i :=
  (h.portrays portrait_isFaithful (fun _ ha => ha) (shows_new key) fun _ _ hm hp =>
    hp.next (fun _ ha => ha) fun _ hf => (hm.follows hf).catches).leader portrait_isFaithful hc hl

-- The candidate that looks first leads, on its own connection.
example :
    let join (e : Election Pool) (name : String) (check : Duration) : Election Pool :=
      (e.start name 7 check defaultHeartbeatPeriod).2
    let e := (join (join (.new new) "a" (.ofParts 5 0)) "b" (.ofParts 4 0)).advance (.ofParts 4 0)
    ((e.advance (.ofParts 1 0)).candidates.map fun c => c.elector.isLeader,
      e.server.locks.holder? 7) = ([false, true], some 2) := by
  decide +kernel

end Pool

namespace LocalServer

variable {p q : LocalServer} {w : Contest} {call : Call} {s : SessionId} {key : LockKey}

-- Here a session ends as soon as somebody lets go of it, and none is kept for later.
structure Shows (p : LocalServer) (w : Contest) : Prop where
  locks : w.locks = p.locks
  idle : w.idle = []
  opened : ∀ s ∈ w.opened, s ≤ p.opened
  alive : ∀ s ∈ w.opened, s ∈ w.alive ∨ s ∈ w.closing
  closed : p.closed = []

-- All calls are answered at once.
def portrait : Portrait LocalServer where
  locks := LocalServer.locks
  Shows := Shows
  settled? work := nomatch work
  Carries _ _ work := nomatch work

theorem portrait_keeps : portrait.Keeps p q := fun _ work _ => nomatch work

theorem shows_acquire (hs : p.Shows w) :
    ∃ u, w.Attends .acquire none (some p.acquire.1) u ∧ p.acquire.2.Shows u := by
  unfold acquire
  split
  · exact ⟨w, .fail _, hs.locks, hs.idle, hs.opened, hs.alive, hs.closed⟩
  · have hnew : p.opened + 1 ∉ w.opened := fun h => Nat.not_succ_le_self _ (hs.opened _ h)
    have hgrant : w.handOut? (p.opened + 1) = some { w with
        opened := (p.opened + 1) :: w.opened, alive := (p.opened + 1) :: w.alive } := by
      rw [Contest.handOut?, hs.idle, if_neg (by simp), if_neg hnew]
    refine ⟨_, .grant rfl hgrant, hs.locks, hs.idle, ?_, ?_, hs.closed⟩
    · intro s h
      rcases List.mem_cons.mp h with rfl | h
      · exact Nat.le_refl _
      · exact Nat.le_succ_of_le (hs.opened s h)
    · intro s h
      rcases List.mem_cons.mp h with rfl | h
      · exact Or.inl List.mem_cons_self
      · exact (hs.alive s h).imp_left (List.mem_cons_of_mem _)

-- A call on a session fails, or does to the locks what it says.
theorem shows_onSession (hs : p.Shows w) (hg : w.Guarded) (hcall : call.session? = some s)
    (hopen : s ∈ w.opened ∧ s ∉ w.closing) (name : CallName) {act : Locks → Bool × Locks}
    (hact : act p.locks = call.effect p.locks) :
    ∃ u, w.Attends call none (some (p.onSession name s key act).1) u ∧
      (p.onSession name s key act).2.Shows u := by
  obtain ⟨depth, hdone⟩ := hg.perform? hcall ((hs.alive s hopen.1).resolve_right hopen.2)
  unfold onSession
  split
  · exact ⟨w, .fail _, hs.locks, hs.idle, hs.opened, hs.alive, hs.closed⟩
  · rw [hact, ← hs.locks]
    exact ⟨_, .answer hdone, rfl, hs.idle, hs.opened, hs.alive, hs.closed⟩

theorem shows_call (hs : p.Shows w) (hg : w.Guarded)
    (hcall : ∀ s, call.session? = some s → s ∈ w.opened ∧ s ∉ w.closing) :
    ∃ u, w.Attends call none (some (p.call call).1) u ∧ (p.call call).2.Shows u := by
  cases call with
  | acquire => exact shows_acquire hs
  | tryLock s key => exact shows_onSession hs hg rfl (hcall s rfl) .tryLock rfl
  | holdsLock s key => exact shows_onSession hs hg rfl (hcall s rfl) .holdsLock rfl
  | unlock s key => exact shows_onSession hs hg rfl (hcall s rfl) .unlock rfl

-- A session that somebody lets go of is closed and ended.
theorem reaches_finish (hs : p.Shows w) (d : Parting) :
    portrait.Reaches (w.dispose d false) (p.finish d.session) := by
  have hclosed : w.dispose d false = { w with closing := w.closing ++ [d.session] } := by
    simp [Contest.dispose]
  rw [hclosed]
  have hretire := (Contest.Next.retire (w := { w with closing := w.closing ++ [d.session] })
    (List.mem_append_right _ List.mem_cons_self)).becomes trivial
  refine ⟨_, hretire, rfl, ?_, hs.idle, hs.opened, fun s hm => ?_, ?_⟩
  · show w.locks.releaseAll (· == d.session) = p.locks.releaseAll (· == d.session)
    rw [hs.locks]
  · by_cases hsd : s = d.session
    · exact Or.inr (List.mem_append_right _ (List.mem_singleton.mpr hsd))
    · exact (hs.alive s hm).imp (fun h => List.mem_filter.mpr ⟨h, by simpa using hsd⟩)
        (List.mem_append_left _)
  · show p.closed.filter _ = []
    rw [hs.closed]
    rfl

theorem portrait_isFaithful : portrait.IsFaithful where
  locks hs := hs.locks
  shows_contenders hs contenders := ⟨hs.locks, hs.idle, hs.opened, hs.alive, hs.closed⟩
  place {p q} h := by
    obtain rfl := Option.some.inj h
    exact ⟨portrait_keeps, fun _ hs => hs⟩
  start hs hw hg hcall := ⟨shows_call hs hg hcall, (nomatch ·), portrait_keeps⟩
  proceed {p w call work} := nomatch work
  prompt {p work} := nomatch work
  isClosed {p w s} hs hclosing hc := by
    obtain ⟨-, -, -, -, hclosed⟩ : Shows p w := hs
    simp [LockServer.isClosed, hclosed] at hc
  part {p w} hs d := by
    have hpart : LockServer.part p d = p.finish d.session := by
      unfold LockServer.part
      split <;> rfl
    rw [hpart]
    exact ⟨false, reaches_finish hs d⟩
  carries_part {p call work} := nomatch work
  endRound {p w} hs := ⟨w, .refl w, rfl, hs⟩
  carries_endRound _ := portrait_keeps

theorem shows_new (key : LockKey) : Shows new (.new key) where
  locks := rfl
  idle := rfl
  opened := by simp [Contest.new]
  alive := by simp [Contest.new]
  closed := rfl

inductive Adjusts : Election LocalServer → LocalServer → Prop where
  | fail {e : Election LocalServer} (failing : List CallName) :
      Adjusts e { e.server with failing }
  | takeEvents {e : Election LocalServer} : Adjusts e e.server.takeEvents.2

-- The lock may be freed. Sessions are not ended behind the backs of their owners, since this server
-- goes on to answer calls on such a session.
inductive Meddles (key : LockKey) : Election LocalServer → LocalServer → Prop where
  | adjust {e : Election LocalServer} {p : LocalServer} (adjusts : Adjusts e p) : Meddles key e p
  | free {e : Election LocalServer} :
      Meddles key e { e.server with locks := e.server.locks.free key }

variable {e : Election LocalServer}

theorem Adjusts.follows (h : Adjusts e p) (hf : portrait.Follows key e w) :
    portrait.Follows key { e with server := p } w := by
  obtain ⟨hlocks, hidle, hopened, halive, hclosed⟩ : Shows e.server w := hf.shows
  cases h with
  | fail | takeEvents =>
      exact ⟨hf.next (.refl w) (hf.orderly.keeps portrait_keeps)
        ⟨hlocks, hidle, hopened, halive, hclosed⟩, hf.contenders⟩

theorem Meddles.portrays (h : Meddles key e p)
    (hp : portrait.Portrays Contest.IsHeard key e) :
    portrait.Portrays Contest.IsHeard key { e with server := p } := by
  cases h with
  | adjust adjusts =>
      exact hp.next (fun _ ha => ha.isHeard) fun w hf => (adjusts.follows hf).catches
  | free =>
      refine hp.meddle (fun _ ha => ha) fun w hf => ⟨hf.orderly.keeps portrait_keeps,
        _, _, .step .rest (.free w), by simp [Contest.IsHeard], ?_, rfl⟩
      obtain ⟨hlocks, hidle, hopened, halive, hclosed⟩ : Shows e.server w := hf.shows
      refine ⟨?_, hidle, hopened, halive, hclosed⟩
      rw [Contest.yieldTo, hlocks, hf.key]

-- Every election on a server in the same process is a contest.
theorem election_is_contest (h : Election.Reached key new (Meddles key) e) :
    ∃ h w, Contest.Run (.new key) h w ∧ (∀ x ∈ h, Contest.IsHeard x.2) ∧
      w.contenders = portrait.contenders e ∧ w.locks = e.server.locks :=
  (h.portrays portrait_isFaithful (fun _ ha => ha.isHeard) (shows_new key)
    fun _ _ hm hp => hm.portrays hp).exists_run portrait_isFaithful

-- While nobody else touches the lock, at most one candidate leads.
theorem leader_holds_lock (h : Election.Reached key new Adjusts e) {i : CandidateId}
    {c : Candidate (LockServer.Work LocalServer)} (hc : e.candidate? i = some c)
    (hl : c.elector.isLeader = true) :
    ∃ s, c.elector.session = some s ∧ e.server.locks.holder? key = some s ∧
      ∀ j d, e.candidate? j = some d → d.elector.isLeader = true → j = i :=
  (h.portrays portrait_isFaithful (fun _ ha => ha) (shows_new key) fun _ _ hm hp =>
    hp.next (fun _ ha => ha) fun _ hf => (hm.follows hf).catches).leader portrait_isFaithful hc hl

end LocalServer

end PolyCache.Leader
