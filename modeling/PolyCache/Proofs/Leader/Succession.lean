import PolyCache.Proofs.Leader.Leadership

-- A contender that has lost the lock steps down at its next heartbeat, and then has to obtain a
-- session and the lock anew.
namespace PolyCache.Leader

namespace Contest

variable {w u : Contest} {a : Act} {i j : ContenderId} {c d : Contender} {s : SessionId}
  {h : History}

-- The contender waits for an answer to its heartbeat that will not be yes.
def Doomed (i : ContenderId) (s : SessionId) (w : Contest) : Prop :=
  ∃ c, w.contenders[i]? = some c ∧ c.elector.phase = .verifying s ∧
    c.reply ≠ some (.answer true) ∧ w.holder? ≠ some s

-- The contender has stepped down and has no session yet.
def SteppedDown (i : ContenderId) (w : Contest) : Prop :=
  ∃ c, w.contenders[i]? = some c ∧ c.elector.isLeader = false ∧ c.elector.session = none ∧
    c.reply = none

theorem Sound.leads_of_verifying (hw : w.Sound) (hc : w.contenders[i]? = some c)
    (hp : c.elector.phase = .verifying s) :
    c.elector.isLeader = true ∧ c.elector.session = some s := by
  have he := hw.elector_of hc
  simpa only [Elector.IsSound, hp] using he

theorem Next.doomed (hw : w.Sound) (h : w.Next a u) (hd : w.Doomed i s) :
    u.Doomed i s ∨ u.SteppedDown i := by
  obtain ⟨c, hc, hp, hr, hlost⟩ := hd
  obtain ⟨hl, hs⟩ := hw.leads_of_verifying hc hp
  obtain ⟨d, hd, hmove⟩ := h.move hw hc
  have hstays (hdp : d.elector.phase = .verifying s) (hdr : d.reply ≠ some (.answer true)) :
      u.Doomed i s :=
    ⟨d, hd, hdp, hdr, (h.lost hw hc hl hs hlost hd ((hw.next h).leads_of_verifying hd hdp).1).2⟩
  cases hmove with
  | rest other => exact Or.inl (hstays hp hr)
  | wake settled idle cause notices => simp [hp] at idle
  | grant call t => simp [Elector.call?, hp] at call
  | @answer v call calls yes done =>
      simp only [Elector.call?, hp, hw.key_of hc, Option.some.injEq] at calls
      subst calls
      have hno : yes ≠ true := fun hyes => hlost ((holdsLock_spec done).2.mp hyes)
      exact Or.inl (hstays hp (by simpa using hno))
  | fail fate fault => exact Or.inl (hstays hp (by simp))
  | @deliver reply replied =>
      refine Or.inr ⟨_, hd, ?_⟩
      cases reply with
      | session t =>
          have hx : c.elector.Expects (.session t) := hw.reply_of hc replied
          simp [Elector.Expects, Elector.call?, hp] at hx
      | answer yes =>
          obtain rfl : yes = false := by
            cases yes with
            | false => rfl
            | true => exact False.elim (hr replied)
          simp [Contender.after, Elector.resume, hp]
      | failed fault => simp [Contender.after, Elector.resume, hp]
  | part partings keeps => exact Or.inl (hstays hp hr)
  | read => exact Or.inl (hstays hp hr)

theorem SteppedDown.not_leads (h : w.SteppedDown i) : ¬w.Leads i := by
  rintro ⟨d, hd, hleads⟩
  obtain ⟨c, hc, hl, -, -⟩ := h
  obtain rfl := Option.some.inj (hc.symm.trans hd)
  simp [hl] at hleads

theorem SteppedDown.not_beats (hw : w.Sound) (h : w.SteppedDown i) : ¬w.Beats i := by
  rintro ⟨d, s, hd, hp⟩
  exact h.not_leads ⟨d, hd, (hw.leads_of_verifying hd hp).1⟩

theorem Run.doomed (hr : Run w h u) (hw : w.Sound) (hd : w.Doomed i s)
    (hbeats : ∀ x ∈ h, Beats i x.1) : u.Doomed i s ∨ u.SteppedDown i := by
  induction hr with
  | rest => exact Or.inl hd
  | step before next ih =>
      rcases ih fun x hx => hbeats x (List.mem_cons_of_mem _ hx) with hdoomed | hdown
      · exact next.doomed (before.sound hw) hdoomed
      · exact False.elim (hdown.not_beats (before.sound hw) (hbeats _ List.mem_cons_self))

-- A run that begins where a heartbeat is not under way has no act during it.
theorem Run.eq_of_beats (hr : Run w h u) (hw : ¬Beats i w) (hbeats : ∀ x ∈ h, Beats i x.1) :
    u = w := by
  induction hr with
  | rest => rfl
  | step before next ih =>
      have hx := hbeats _ List.mem_cons_self
      rw [ih fun x hx => hbeats x (List.mem_cons_of_mem _ hx)] at hx
      exact False.elim (hw hx)

theorem Heartbeat.sound (hb : Heartbeat i w u) (hw : w.Sound) : u.Sound := by
  obtain ⟨notices, v, h, first, hr, -, -⟩ := hb
  exact hr.sound (hw.next first)

-- A leader that has lost the lock steps down at its heartbeat, whatever else happens during it.
theorem Heartbeat.steppedDown (hb : Heartbeat i w u) (hw : w.Sound)
    (hc : w.contenders[i]? = some c) (hl : c.elector.isLeader = true)
    (hs : c.elector.session = some s) (hlost : w.holder? ≠ some s) : u.SteppedDown i := by
  obtain ⟨notices, v, h, first, hr, hbeats, hend⟩ := hb
  have hv := hw.next first
  have hholder : v.holder? = w.holder? := by cases first; rfl
  obtain ⟨d, hd, hmove⟩ := first.move hw hc
  cases hmove with
  | rest other => exact False.elim (other rfl)
  | wake settled idle =>
      by_cases hclosed : w.isSeenClosed notices s = true
      · have hdown : v.SteppedDown i := by
          refine ⟨_, hd, ?_⟩
          simp [Contender.after, Elector.wake, Elector.heartbeat, hl, hs, hclosed]
        rw [hr.eq_of_beats (hdown.not_beats hv) hbeats]
        exact hdown
      · have hdoomed : v.Doomed i s := by
          refine ⟨_, hd, ?_, ?_, hholder ▸ hlost⟩ <;>
            simp [Contender.after, Elector.wake, Elector.heartbeat, hl, hs, hclosed]
        rcases hr.doomed hv hdoomed hbeats with ⟨x, hx, hp, -⟩ | hdown
        · exact False.elim (hend ⟨x, s, hx, hp⟩)
        · exact hdown

-- All that a contender has, it has obtained during the history.
structure Fresh (i : ContenderId) (h : History) (c : Contender) : Prop where
  granted : ∀ s, c.elector.session = some s ∨ c.reply = some (.session s) →
    ∃ y ∈ h, y.2 = .serve i (.granted s)
  regains : c.elector.isLeader = true ∨
    (∃ s, c.elector.phase = .trying s) ∧ c.reply = some (.answer true) → Regains i h

theorem Regains.cons (hr : Regains i h) (x : Contest × Act) : Regains i (x :: h) := by
  obtain ⟨s, later, y, earlier, rfl, htakes, hgranted⟩ := hr
  exact ⟨s, x :: later, y, earlier, rfl, htakes, hgranted⟩

theorem Fresh.granted_cons (hf : Fresh i h c) (x : Contest × Act)
    (hs : c.elector.session = some s ∨ c.reply = some (.session s)) :
    ∃ y ∈ x :: h, y.2 = .serve i (.granted s) := by
  obtain ⟨y, hy, ha⟩ := hf.granted s hs
  exact ⟨y, List.mem_cons_of_mem _ hy, ha⟩

-- A step of the elector adds nothing to what it has been given.
theorem Fresh.after (hf : Fresh i h c) {st : Step} (hst : c.elector.Advances c.reply st)
    (x : Contest × Act) : Fresh i (x :: h) (.after st) where
  granted := by
    rintro t (ht | ht)
    · exact hf.granted_cons x (hst.pinned t ht)
    · cases ht
  regains := by
    rintro (hl | ⟨-, ht⟩)
    · obtain ⟨-, hold | ⟨hyes, htrying⟩⟩ := hst.leads hl
      · exact (hf.regains (Or.inl hold)).cons x
      · exact (hf.regains (Or.inr ⟨htrying, hyes⟩)).cons x
    · cases ht

theorem Fresh.move (hf : Fresh i h c) (hw : w.Sound) (hc : w.contenders[i]? = some c)
    (hm : w.Move i c a d) : Fresh i ((w, a) :: h) d := by
  have he := hw.elector_of hc
  cases hm with
  | rest other => exact ⟨fun t ht => hf.granted_cons _ ht, fun hl => (hf.regains hl).cons _⟩
  | wake settled idle cause notices =>
      apply hf.after
      rw [settled.2]
      exact Elector.wake_advances he idle _ cause
  | grant call t =>
      refine ⟨?_, ?_⟩
      · rintro x (hx | hx)
        · exact hf.granted_cons _ (Or.inl hx)
        · obtain rfl : t = x := by simpa using hx
          exact ⟨_, List.mem_cons_self, rfl⟩
      · rintro (hl | ⟨-, hx⟩)
        · exact (hf.regains (Or.inl hl)).cons _
        · simp at hx
  | @answer v call calls yes done =>
      refine ⟨?_, ?_⟩
      · rintro x (hx | hx)
        · exact hf.granted_cons _ (Or.inl hx)
        · simp at hx
      · rintro (hl | ⟨⟨t, ht⟩, hx⟩)
        · exact (hf.regains (Or.inl hl)).cons _
        · obtain rfl : yes = true := by simpa using hx
          have hp : c.elector.phase = .trying t := ht
          simp only [Elector.IsSound, hp] at he
          have hcall : w.call? i = some (.tryLock t c.elector.key) := by
            simp [call?, hc, Elector.call?, hp]
          exact ⟨t, [], _, h, rfl, ⟨rfl, _, hcall⟩, hf.granted t (Or.inl he.2)⟩
  | fail fate fault =>
      refine ⟨?_, ?_⟩
      · rintro x (hx | hx)
        · exact hf.granted_cons _ (Or.inl hx)
        · simp at hx
      · rintro (hl | ⟨-, hx⟩)
        · exact (hf.regains (Or.inl hl)).cons _
        · simp at hx
  | deliver replied =>
      apply hf.after
      rw [replied]
      exact Elector.resume_advances he (hw.reply_of hc replied)
  | part partings keeps =>
      exact ⟨fun t ht => hf.granted_cons _ ht, fun hl => (hf.regains hl).cons _⟩
  | read => exact ⟨fun t ht => hf.granted_cons _ ht, fun hl => (hf.regains hl).cons _⟩

theorem Run.fresh (hr : Run w h u) (hw : w.Sound) (hc : w.contenders[i]? = some c)
    (hf : Fresh i [] c) : ∃ d, u.contenders[i]? = some d ∧ Fresh i h d := by
  induction hr with
  | rest => exact ⟨c, hc, hf⟩
  | step before next ih =>
      obtain ⟨x, hx, hfresh⟩ := ih
      obtain ⟨d, hd, hmove⟩ := next.move (before.sound hw) hx
      exact ⟨d, hd, hfresh.move (before.sound hw) hx hmove⟩

theorem SteppedDown.staysDown (hd : w.SteppedDown i) (hw : w.Sound) : StaysDown i w := by
  rintro h u hr ⟨x, hx, hl⟩
  obtain ⟨c, hc, hfollows, hsession, hreply⟩ := hd
  have hf : Fresh i [] c := ⟨by simp [hsession, hreply], by simp [hfollows, hreply]⟩
  obtain ⟨d, hd, hfresh⟩ := hr.fresh hw hc hf
  obtain rfl := Option.some.inj (hx.symm.trans hd)
  exact hfresh.regains (Or.inl hl)

-- However a contender ceases to lead, it has no session then.
theorem Next.steppedDown (hw : w.Sound) (h : w.Next a u) (hl : w.Leads i) (hu : ¬u.Leads i) :
    u.SteppedDown i := by
  obtain ⟨c, hc, hl⟩ := hl
  obtain ⟨d, hd, hmove⟩ := h.move hw hc
  have hfollows : d.elector.isLeader = false := by
    cases hx : d.elector.isLeader with
    | false => rfl
    | true => exact False.elim (hu ⟨d, hd, hx⟩)
  have he := hw.elector_of hc
  cases hmove with
  | rest | grant | answer | fail | part | read => simp [hl, Elector.takeErrors] at hfollows
  | wake settled idle cause notices =>
      exact ⟨_, hd, hfollows, (Elector.wake_advances he idle _ cause).lowers hl hfollows, rfl⟩
  | deliver replied =>
      exact ⟨_, hd, hfollows,
        (Elector.resume_advances he (hw.reply_of hc replied)).lowers hl hfollows, rfl⟩

theorem Run.steppedDown (hr : Run w h u) (hw : w.Sound) (hl : w.Leads i)
    (hleads : ∀ x ∈ h, x.1.Leads i) (hu : ¬u.Leads i) : u.SteppedDown i := by
  cases hr with
  | rest => exact False.elim (hu hl)
  | step before next =>
      exact next.steppedDown (before.sound hw) (hleads _ List.mem_cons_self) hu

theorem not_stale (hlost : ∀ x ∈ h, ∀ s, ¬Loses s x.1 x.2) : ¬Stale i s h := by
  induction h with
  | nil => exact id
  | cons x h ih =>
      rintro ⟨-, hl | hs⟩
      · exact hlost x List.mem_cons_self s hl
      · exact ih (fun y hy => hlost y (List.mem_cons_of_mem _ hy)) hs

-- A leader holds the lock on its pinned session unless that has lost its connection or the lock
-- since the leader was last told that it holds it. In that case the next heartbeat of the
-- leader ends its leadership, if that has not ended before, and it stays ended until the lock
-- is taken on a session obtained afterwards. So one leader at most is not stale, and without a
-- loss there is one at most.
theorem leader_holds_or_steps_down {key : LockKey} (hr : Run (new key) h w) :
    (∀ i, w.Leads i → ∃ s, w.Pins i s ∧ (w.holder? = some s ∨ Stale i s h)) ∧
    (∀ i s, w.Leads i → w.Pins i s → Stale i s h →
      ∀ h₁ u, Run w h₁ u → (∀ x ∈ h₁, x.1.Leads i) →
        (u.Leads i → ∀ v, Heartbeat i u v → ¬v.Leads i ∧ StaysDown i v) ∧
        (¬u.Leads i → StaysDown i u)) ∧
    (∀ i j s t, w.Leads i → w.Pins i s → ¬Stale i s h → w.Leads j → w.Pins j t → ¬Stale j t h →
      i = j) ∧
    ((∀ x ∈ h, ∀ s, ¬Loses s x.1 x.2) → ∀ i j, w.Leads i → w.Leads j → i = j) := by
  have hw := hr.sound (sound_new key)
  have hpins : ∀ i, w.Leads i → ∃ s, w.Pins i s := by
    rintro i ⟨c, hc, hl⟩
    obtain ⟨s, hs⟩ := (hw.elector_of hc).session_of_isLeader hl
    exact ⟨s, c, hc, hs⟩
  -- for a leader, to be stale is to hold the lock no longer
  have hstale : ∀ i s, w.Leads i → w.Pins i s → (Stale i s h ↔ w.holder? ≠ some s) := by
    rintro i s ⟨c, hc, hl⟩ ⟨d, hd, hs⟩
    obtain rfl := Option.some.inj (hc.symm.trans hd)
    exact hr.stale_iff hc ⟨hs, Or.inl hl⟩
  have hunique : ∀ i j s t, w.Leads i → w.Pins i s → ¬Stale i s h → w.Leads j → w.Pins j t →
      ¬Stale j t h → i = j := by
    intro i j s t hi hs hsi hj ht htj
    rw [hstale i s hi hs, not_not] at hsi
    rw [hstale j t hj ht, not_not] at htj
    obtain rfl := Option.some.inj (hsi.symm.trans htj)
    obtain ⟨c, hc, hcs⟩ := hs
    obtain ⟨d, hd, hds⟩ := ht
    exact hw.owner_unique hc hd (Contender.mem_sessions_of_session hcs)
      (Contender.mem_sessions_of_session hds)
  refine ⟨?_, ?_, hunique, ?_⟩
  · intro i hi
    obtain ⟨s, hs⟩ := hpins i hi
    refine ⟨s, hs, ?_⟩
    rw [hstale i s hi hs]
    exact eq_or_ne _ _
  · rintro i s hi hs hlost h₁ u hrun hleads
    rw [hstale i s hi hs] at hlost
    obtain ⟨c, hc, hcs⟩ := hs
    have hu := hrun.sound hw
    constructor
    · rintro ⟨d, hd, hl⟩ v hbeat
      obtain ⟨hds, hdlost⟩ := hrun.lost hw hc hcs hlost hleads hd hl
      have hdown := hbeat.steppedDown hu hd hl hds hdlost
      exact ⟨hdown.not_leads, hdown.staysDown (hbeat.sound hu)⟩
    · intro hends
      exact (hrun.steppedDown hw hi hleads hends).staysDown hu
  · intro hloses i j hi hj
    obtain ⟨s, hs⟩ := hpins i hi
    obtain ⟨t, ht⟩ := hpins j hj
    exact hunique i j s t hi hs (not_stale hloses) hj ht (not_stale hloses)

-- The first leader has lost its connection and the second has taken the lock: both lead until the
-- heartbeat of the first.
theorem lost_leader_steps_down : ∃ h w, Run (new 7) h w ∧ w.Leads 0 ∧ w.Leads 1 ∧ w.Pins 0 1 ∧
    Stale 0 1 h ∧ ∃ v, Heartbeat 0 w v ∧ ¬v.Leads 0 := by
  have h₁ := (Run.rest : Run (new 7) [] _).step (.start (s := 1) rfl) |>.step (.start (s := 2) rfl)
  have h₂ := h₁.step (.wake (i := 0) rfl ⟨rfl, rfl⟩ rfl .check false)
    |>.step (.answer (i := 0) rfl ⟨rfl, rfl⟩ rfl rfl) |>.step (.deliver (i := 0) rfl rfl rfl)
  have h₃ := h₂.step (.disconnect 1) |>.step (.wake (i := 1) rfl ⟨rfl, rfl⟩ rfl .check false)
    |>.step (.answer (i := 1) rfl ⟨rfl, rfl⟩ rfl rfl) |>.step (.deliver (i := 1) rfl rfl rfl)
  obtain ⟨hholds, hsteps, -, -⟩ := leader_holds_or_steps_down h₃
  obtain ⟨s, ⟨c, hc, hs⟩, hlock⟩ := hholds 0 ⟨_, rfl, rfl⟩
  obtain rfl := Option.some.inj hc
  obtain rfl := Option.some.inj hs
  have hstale := hlock.resolve_left (by decide)
  have hnext := (hsteps 0 1 ⟨_, rfl, rfl⟩ ⟨_, rfl, rfl⟩ hstale [] _ .rest (by simp)).1 ⟨_, rfl, rfl⟩
  refine ⟨_, _, h₃, ⟨_, rfl, rfl⟩, ⟨_, rfl, rfl⟩, ⟨_, rfl, rfl⟩, hstale, ?_⟩
  refine Exists.imp (fun v hv => ⟨hv, (hnext v hv).1⟩) ?_
  refine ⟨_, true, _, [], .wake rfl ⟨rfl, rfl⟩ rfl .heartbeat true, .rest, by simp, ?_⟩
  rintro ⟨c, s, hc, hp⟩
  obtain rfl := Option.some.inj hc
  cases hp

end Contest

end PolyCache.Leader
