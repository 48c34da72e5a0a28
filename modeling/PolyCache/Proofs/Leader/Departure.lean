import PolyCache.Proofs.Leader.Custody

-- What is left of a contender that has stopped. Each session that it has ever pinned is in the
-- pool, closed, or with another contender, and the lock is with none of its sessions.
namespace PolyCache.Leader

-- The sessions that a contender has or is about to let go of.
def Contender.held (c : Contender) : List SessionId :=
  c.elector.sessions ++ c.partings.map (·.session)

-- Only a leader that is told to stop goes on to free its lock.
theorem Elector.wake_releasing {e : Elector} {isClosed : SessionId → Bool} {cause : Wake}
    {s : SessionId} (hi : e.phase = .idle)
    (hp : (e.wake isClosed cause).elector.phase = .releasing s) :
    cause = .stop ∧ e.isLeader = true ∧ e.session = some s := by
  have hcheck : (e.check isClosed).elector.phase ≠ .releasing s := by
    unfold check
    split
    · simp [hi]
    split
    · simp
    split <;> simp
  have hheartbeat : (e.heartbeat isClosed).elector.phase ≠ .releasing s := by
    unfold heartbeat
    dsimp only
    split
    · split
      · simp [hi]
      · split <;> simp [hi]
    · simp [hi]
  cases cause with
  | check => exact absurd hp hcheck
  | heartbeat => exact absurd hp hheartbeat
  | stop =>
      simp only [wake, stop] at hp
      cases hs : e.session with
      | none => simp [hs] at hp
      | some t =>
          by_cases hl : e.isLeader = true
          · simp only [hs, if_pos hl, Step.elector_enter, Phase.releasing.injEq] at hp
            exact ⟨rfl, hl, congrArg some hp⟩
          · simp [hs, hl] at hp

theorem Elector.resume_releasing {e : Elector} {reply : Reply} {s : SessionId}
    (hx : e.Expects reply) : (e.resume reply).elector.phase ≠ .releasing s := by
  intro hp
  obtain h | h | ⟨t, h⟩ := resume_phase hx <;> cases h.symm.trans hp

namespace Contest

variable {w u : Contest} {a : Act} {i j : ContenderId} {c d : Contender} {s t : SessionId}
  {h h' : History}

-- All states of a run, the latest first.
def states (h : History) (w : Contest) : List Contest := w :: h.map Prod.fst

-- In one of the states, the latest first, the contender has pinned the session, and no other has
-- since.
def PinnedLast (i : ContenderId) (s : SessionId) : List Contest → Prop
  | [] => False
  | w :: states => w.Pins i s ∨ (∀ j, w.Pins j s → j = i) ∧ PinnedLast i s states

-- The contender has come to its end, and all its sessions have arrived where they are to go.
def HasStopped (i : ContenderId) (w : Contest) : Prop :=
  ∃ c, w.contenders[i]? = some c ∧ c.elector.phase = .ended ∧ c.partings = []

-- The contender led, with the session pinned, when it was told to stop.
def ToldToStop (i : ContenderId) (s : SessionId) (h : History) : Prop :=
  ∃ x ∈ h, (∃ notices, x.2 = .wake i .stop notices) ∧ x.1.Leads i ∧ x.1.Pins i s

-- The session has been discarded, and the server has yet to end it.
def IsEnding (s : SessionId) (w : Contest) : Prop := s ∈ w.closing ∧ s ∈ w.alive

-- Where a session may be that the contender was the last to pin.
def Traced (i : ContenderId) (s : SessionId) (w : Contest) : Prop :=
  (∃ c, w.contenders[i]? = some c ∧ s ∈ c.held) ∨
    (∃ (j : ContenderId) (c : Contender), w.contenders[j]? = some c ∧
      c.reply = some (.session s)) ∨
    s ∈ w.idle ∨ s ∈ w.closing

theorem Pins.traced (h : w.Pins i s) : w.Traced i s := by
  obtain ⟨c, hc, hs⟩ := h
  exact Or.inl ⟨c, hc, by simp [Contender.held, Elector.sessions, hs]⟩

theorem Traced.put (ht : w.Traced i s) (hc : w.contenders[j]? = some c)
    (hheld : s ∈ c.held → s ∈ d.held)
    (hreply : c.reply = some (.session s) → d.reply = some (.session s)) :
    (w.put j d).Traced i s := by
  rcases ht with ⟨x, hx, hs⟩ | ⟨k, x, hx, hr⟩ | hpool
  · by_cases hij : i = j
    · subst hij
      obtain rfl := Option.some.inj (hc.symm.trans hx)
      exact Or.inl ⟨d, put_self hc d, hheld hs⟩
    · exact Or.inl ⟨x, (put_other hij d).trans hx, hs⟩
  · by_cases hkj : k = j
    · subst hkj
      obtain rfl := Option.some.inj (hc.symm.trans hx)
      exact Or.inr (Or.inl ⟨k, d, put_self hc d, hreply hr⟩)
    · exact Or.inr (Or.inl ⟨k, x, (put_other hkj d).trans hx, hr⟩)
  · exact Or.inr (Or.inr hpool)

-- Only the session that is handed out leaves the pool.
theorem Traced.handOut (ht : w.Traced i s) (h : w.handOut? t = some u) (hne : s ≠ t) :
    u.Traced i s := by
  unfold handOut? at h
  split at h
  · obtain rfl := Option.some.inj h
    exact ht.imp_right fun h => h.imp_right fun h => h.imp_left (List.mem_erase_of_ne hne).mpr
  · split at h
    · cases h
    · obtain rfl := Option.some.inj h
      exact ht

theorem mem_held_after {st : Step} {reply : Option Reply} (hst : c.elector.Advances reply st)
    (hgone : c.partings = []) (hs : s ∈ c.held) : s ∈ (Contender.after st).held := by
  have hs : s ∈ c.elector.sessions := by simpa [Contender.held, hgone] using hs
  exact hst.sessions.mem_iff.mpr (List.mem_append_left _ hs)

theorem Traced.start (ht : w.Traced i s) (h : w.handOut? t = some u) :
    Traced i s { u with contenders := u.contenders ++ [.new w.key t] } ∨
      ∃ j, Pins { u with contenders := u.contenders ++ [.new w.key t] } j s := by
  by_cases hst : s = t
  · subst hst
    exact Or.inr ⟨u.contenders.length, .new w.key s, by simp, rfl⟩
  · have hold {k : ContenderId} {x : Contender} (hx : u.contenders[k]? = some x) :
        (u.contenders ++ [.new w.key t])[k]? = some x := by
      obtain ⟨hk, -⟩ := List.getElem?_eq_some_iff.mp hx
      exact (List.getElem?_append_left hk).trans hx
    rcases ht.handOut h hst with ⟨x, hx, hs⟩ | ⟨k, x, hx, hr⟩ | hpool
    · exact Or.inl (Or.inl ⟨x, hold hx, hs⟩)
    · exact Or.inl (Or.inr (Or.inl ⟨k, x, hold hx, hr⟩))
    · exact Or.inl (Or.inr (Or.inr hpool))

theorem Traced.grant (ht : w.Traced i s) (hc : w.contenders[j]? = some c)
    (hsettled : c.IsSettled) (h : w.handOut? t = some u) (hu : u.contenders = w.contenders) :
    (u.put j { c with reply := some (.session t) }).Traced i s := by
  have hc' : u.contenders[j]? = some c := hu ▸ hc
  by_cases hst : s = t
  · subst hst
    exact Or.inr (Or.inl ⟨j, _, put_self hc' _, rfl⟩)
  · exact (ht.handOut h hst).put hc' id (by simp [hsettled.2])

-- A session that has been granted is pinned when its contender learns of it.
theorem Traced.deliver (ht : w.Traced i s) (hw : w.Sound) (hc : w.contenders[j]? = some c)
    (hgone : c.partings = []) {reply : Reply} (hr : c.reply = some reply) :
    (w.put j (.after (c.elector.resume reply))).Traced i s ∨
      ∃ k, (w.put j (.after (c.elector.resume reply))).Pins k s := by
  by_cases hs : reply = .session s
  · subst hs
    have hx : c.elector.call? = some .acquire := hw.reply_of hc hr
    have hp := Elector.phase_of_acquire hx
    exact Or.inr ⟨j, _, put_self hc _, by simp [Contender.after, Elector.resume, hp]⟩
  · have hst := Elector.resume_advances (hw.elector_of hc) (hw.reply_of hc hr)
    exact Or.inl (ht.put hc (mem_held_after hst hgone) (by simp [hr, hs]))

theorem Traced.part (ht : w.Traced i s) (hc : w.contenders[j]? = some c) {p : Parting}
    {partings : List Parting} (hfirst : c.partings = p :: partings) (keeps : Bool) :
    ((w.put j { c with partings }).dispose p keeps).Traced i s := by
  by_cases hs : s = p.session
  · subst hs
    unfold dispose
    split
    · exact Or.inr (Or.inr (Or.inl (List.mem_append_right _ List.mem_cons_self)))
    · exact Or.inr (Or.inr (Or.inr (List.mem_append_right _ List.mem_cons_self)))
  · have hput : (w.put j { c with partings }).Traced i s :=
      ht.put hc (by simp [Contender.held, hfirst, hs]) id
    unfold dispose
    split
    · exact hput.imp_right fun h => h.imp_right fun h => h.imp_left (List.mem_append_left _)
    · exact hput.imp_right fun h => h.imp_right fun h => h.imp_right (List.mem_append_left _)

theorem Traced.next (ht : w.Traced i s) (hw : w.Sound) (h : w.Next a u) :
    u.Traced i s ∨ ∃ j, u.Pins j s := by
  cases h with
  | start grant => exact ht.start grant
  | wake found settled idle cause notices =>
      have hst := Elector.wake_advances (hw.elector_of found) idle (w.isSeenClosed notices) cause
      exact Or.inl (ht.put found (mem_held_after hst settled.1) (by simp [settled.2]))
  | grant found settled call grant =>
      obtain ⟨idle, opened, alive, hu, -, -, -⟩ := handOut?_eq hw grant
      exact Or.inl (ht.grant found settled grant (by rw [hu]))
  | answer found settled calls done | unheard found settled calls done =>
      obtain ⟨locks, depth, -, rfl⟩ := perform?_eq hw.locks done
      exact Or.inl (Traced.put ht found id (by simp [settled.2]))
  | fail found settled => exact Or.inl (ht.put found id (by simp [settled.2]))
  | deliver found gone replied => exact ht.deliver hw found gone replied
  | part found first keeps => exact Or.inl (ht.part found first keeps)
  | read found => exact Or.inl (ht.put found id id)
  | retire closed => exact Or.inl ht
  | disconnect t => exact Or.inl ht
  | @usurp outsider fresh => cases outsider <;> exact Or.inl ht

theorem Run.traced {key : LockKey} (hr : Run (new key) h w) (hp : PinnedLast i s (states h w)) :
    w.Traced i s := by
  induction hr with
  | rest =>
      obtain ⟨c, hc, -⟩ | ⟨-, hp⟩ := hp
      · simp [new] at hc
      · cases hp
  | step before next ih =>
      rcases hp with hpins | ⟨honly, hp⟩
      · exact hpins.traced
      · rcases (ih hp).next (before.sound (sound_new key)) next with ht | ⟨j, hj⟩
        · exact ht
        · obtain rfl := honly j hj
          exact hj.traced

-- Without a call there is no reply.
theorem Sound.reply_none (hw : w.Sound) (hc : w.contenders[i]? = some c)
    (hcall : c.elector.call? = none) : c.reply = none := by
  cases hr : c.reply with
  | none => rfl
  | some reply =>
      have hx := hw.reply_of hc hr
      cases reply <;> simp [Elector.Expects, hcall] at hx

theorem Next.hasStopped (hw : w.Sound) (h : w.Next a u) (hs : w.HasStopped i) :
    u.HasStopped i := by
  obtain ⟨c, hc, hp, hgone⟩ := hs
  have hcall : c.elector.call? = none := by simp [Elector.call?, hp]
  have hreply := hw.reply_none hc hcall
  by_cases hi : a.contender? = some i
  · cases h.does hc hi with
    | wake settled idle => cases hp.symm.trans idle
    | grant settled calls | answer settled calls | unheard settled calls | fail settled calls =>
        cases hcall.symm.trans calls
    | deliver gone replied => cases hreply.symm.trans replied
    | part first => cases hgone.symm.trans first
    | read => exact ⟨_, put_self hc _, hp, hgone⟩
  · exact ⟨c, h.same hw hc hi, hp, hgone⟩

theorem Run.hasStopped (hr : Run w h u) (hw : w.Sound) (hs : w.HasStopped i) : u.HasStopped i := by
  induction hr with
  | rest => exact hs
  | step before next ih => exact next.hasStopped (before.sound hw) ih

theorem HasStopped.empty (hs : w.HasStopped i) (hw : w.Sound) (hc : w.contenders[i]? = some c) :
    c.elector.isLeader = false ∧ c.held = [] := by
  obtain ⟨x, hx, hp, hgone⟩ := hs
  obtain rfl := Option.some.inj (hx.symm.trans hc)
  have he := hw.elector_of hc
  simp only [Elector.IsSound, hp] at he
  exact ⟨he.1, by simp [Contender.held, Elector.sessions, hp, he.2, hgone, Phase.released?]⟩

theorem HasStopped.not_leads (hs : w.HasStopped i) (hw : w.Sound) : ¬w.Leads i := by
  rintro ⟨c, hc, hl⟩
  rw [(hs.empty hw hc).1] at hl
  cases hl

-- If a session that a stopped contender was the last to pin holds the lock, it has been discarded.
theorem HasStopped.isEnding (hs : w.HasStopped i) (hw : w.Sound) (hg : w.Guarded)
    (ht : w.Traced i s) (ho : w.holder? = some s) : w.IsEnding s := by
  rcases ht with ⟨c, hc, hin⟩ | ⟨j, c, hc, hr⟩ | hidle | hclosing
  · rw [(hs.empty hw hc).2] at hin
    cases hin
  · exact absurd ho ((hg.contenders j c hc).granted s hr)
  · exact absurd ho (hg.idle s hidle)
  · exact ⟨hclosing, (hg.alive s ho).1⟩

theorem Run.append {g : History} {v : Contest} (hr : Run w h v) (hg : Run v g u) :
    Run w (g ++ h) u := by
  induction hg with
  | rest => exact hr
  | step before next ih => exact .step ih next

theorem Next.toldToStop (hw : w.Sound) (h : w.Next a u)
    (before : ∀ c, w.contenders[i]? = some c → c.elector.phase = .releasing s → ToldToStop i s h')
    (hd : u.contenders[i]? = some d) (hp : d.elector.phase = .releasing s) :
    ToldToStop i s ((w, a) :: h') := by
  have hold {c : Contender} (hc : w.contenders[i]? = some c)
      (hcp : c.elector.phase = .releasing s) :
      ToldToStop i s ((w, a) :: h') := by
    obtain ⟨x, hx, htold⟩ := before c hc hcp
    exact ⟨x, List.mem_cons_of_mem _ hx, htold⟩
  rcases h.found hw hd with ⟨c, hc⟩ | ⟨t, -, -, rfl⟩
  · obtain ⟨x, hx, hmove⟩ := h.move hw hc
    obtain rfl := Option.some.inj (hd.symm.trans hx)
    cases hmove with
    | rest | grant | answer | fail | part | read => exact hold hc hp
    | wake settled idle cause notices =>
        obtain ⟨rfl, hl, hs⟩ := Elector.wake_releasing idle hp
        exact ⟨_, List.mem_cons_self, ⟨notices, rfl⟩, ⟨c, hc, hl⟩, c, hc, hs⟩
    | deliver replied => exact absurd hp (Elector.resume_releasing (hw.reply_of hc replied))
  · cases hp

theorem Run.toldToStop {key : LockKey} (hr : Run (new key) h w) (hc : w.contenders[i]? = some c)
    (hp : c.elector.phase = .releasing s) : ToldToStop i s h := by
  induction hr generalizing c with
  | rest => simp [new] at hc
  | step before next ih =>
      exact next.toldToStop (before.sound (sound_new key)) (fun c hc hp => ih hc hp) hc hp

theorem releasing_of_call {key : LockKey} (hcall : w.call? i = some (.unlock s key)) :
    ∃ c, w.contenders[i]? = some c ∧ c.elector.phase = .releasing s := by
  obtain ⟨c, hc, hcall⟩ := Option.bind_eq_some_iff.mp hcall
  refine ⟨c, hc, ?_⟩
  unfold Elector.call? at hcall
  cases hp : c.elector.phase <;> simp [hp] at hcall
  rw [hcall.1]

-- A run on a server that ends a session when it is discarded, and on which a call that fails has no
-- effect.
inductive PromptRun (start : Contest) : History → Contest → Prop where
  | rest : PromptRun start [] start
  | step {h : History} {w u : Contest} {a : Act} (before : PromptRun start h w)
      (next : w.Next a u) (heard : IsHeard a) (ended : ∀ s, ¬u.IsEnding s) :
      PromptRun start ((w, a) :: h) u
  | discard {h : History} {w v : Contest} {a : Act} {s : SessionId} (before : PromptRun start h w)
      (next : w.Next a v) (heard : IsHeard a) (closed : s ∈ v.closing)
      (ended : ∀ t, ¬(v.finish s).IsEnding t) :
      PromptRun start ((v, .retire s) :: (w, a) :: h) (v.finish s)

theorem PromptRun.run (hr : PromptRun w h u) : Run w h u := by
  induction hr with
  | rest => exact .rest
  | step before next heard ended ih => exact ih.step next
  | discard before next heard closed ended ih => exact (ih.step next).step (.retire closed)

theorem PromptRun.heard (hr : PromptRun w h u) : ∀ x ∈ h, IsHeard x.2 := by
  induction hr with
  | rest => simp
  | step before next heard ended ih => exact List.forall_mem_cons.mpr ⟨heard, ih⟩
  | discard before next heard closed ended ih =>
      exact List.forall_mem_cons.mpr ⟨trivial, List.forall_mem_cons.mpr ⟨heard, ih⟩⟩

theorem PromptRun.ended (hr : PromptRun w h u) (hw : ∀ s, ¬w.IsEnding s) :
    ∀ s, ¬u.IsEnding s := by
  cases hr with
  | rest => exact hw
  | step before next heard ended => exact ended
  | discard before next heard closed ended => exact ended

-- A follower that is not in the middle of a step has no lock on its session, no session has taken
-- the lock twice, and none in the pool has it. A contender that has stopped never leads again, and
-- none of the sessions that it has ever pinned has the lock, unless another contender has pinned
-- it since. The lock is freed by contenders only that led when they were told to stop.
theorem no_lock_outlives_leadership {key : LockKey} (hr : PromptRun (new key) h w) :
    (∀ i s, w.Pins i s → ¬w.Leads i → w.call? i = none → w.holder? ≠ some s) ∧
    w.depth ≤ 1 ∧
    (∀ s ∈ w.idle, w.holder? ≠ some s) ∧
    (∀ i, w.HasStopped i → ∀ g u, PromptRun w g u →
      ¬u.Leads i ∧ ∀ s, PinnedLast i s (states (g ++ h) u) → u.holder? ≠ some s) ∧
    ∀ i s k, w.call? i = some (.unlock s k) → ToldToStop i s h := by
  have hw := hr.run.sound (sound_new key)
  have hg := hr.run.guarded (sound_new key) (guarded_new key) hr.heard
  have hended := hr.ended fun s hs => by cases hs.1
  refine ⟨fun i s => hg.follower, hg.single, hg.idle, ?_, ?_⟩
  · intro i hstopped g u hrun
    have hu := hrun.run.sound hw
    have hends := hrun.run.hasStopped hw hstopped
    refine ⟨hends.not_leads hu, fun s hp ho => hrun.ended hended s ?_⟩
    exact hends.isEnding hu (hrun.run.guarded hw hg hrun.heard)
      ((hr.run.append hrun.run).traced hp) ho
  · intro i s k hcall
    obtain ⟨c, hc, hp⟩ := releasing_of_call hcall
    exact hr.run.toldToStop hc hp

-- The leader's lock could not be freed when it was told to stop, so its session has been discarded,
-- while another contender waits with a session of its own.
theorem failed_unlock_leaves_no_lock : ∃ h w, PromptRun (new 7) h w ∧ w.HasStopped 0 ∧
    PinnedLast 0 1 (states h w) ∧ w.holder? ≠ some 1 ∧ w.Pins 1 2 ∧ w.holder? ≠ some 2 := by
  have hnone {w : Contest} (hw : w.closing = []) (s : SessionId) : ¬w.IsEnding s := by
    simp [IsEnding, hw]
  have h₁ :=
    (PromptRun.rest : PromptRun (new 7) [] _).step (.start (s := 1) rfl) trivial (hnone rfl)
    |>.step (.start (s := 2) rfl) trivial (hnone rfl)
  have h₂ := h₁.step (.wake (i := 0) rfl ⟨rfl, rfl⟩ rfl .check false) trivial (hnone rfl)
    |>.step (.answer (i := 0) rfl ⟨rfl, rfl⟩ rfl rfl) trivial (hnone rfl)
    |>.step (.deliver (i := 0) rfl rfl rfl) trivial (hnone rfl)
  have h₃ := h₂.step (.wake (i := 0) rfl ⟨rfl, rfl⟩ rfl .stop false) trivial (hnone rfl)
    |>.step (.fail (i := 0) rfl ⟨rfl, rfl⟩ rfl .sessionLost) trivial (hnone rfl)
    |>.step (.deliver (i := 0) rfl rfl rfl) trivial (hnone rfl)
  have h₄ := h₃.discard (s := 1) (.part (i := 0) rfl rfl false) trivial List.mem_cons_self (by
    rintro t ⟨ht, hlive⟩
    obtain rfl := List.mem_singleton.mp ht
    exact absurd hlive (by decide))
  obtain ⟨hfollower, -, -, hstopped, -⟩ := no_lock_outlives_leadership h₄
  have hnobody {w : Contest} (hw : ∀ c ∈ w.contenders, c.elector.session ≠ some 1) :
      ∀ j, w.Pins j 1 → j = 0 := fun j ⟨c, hc, hs⟩ =>
    absurd hs (hw c (List.mem_of_getElem? hc))
  refine ⟨_, _, h₄, ⟨_, rfl, rfl, rfl⟩, ?pinned, (hstopped 0 ⟨_, rfl, rfl, rfl⟩ [] _ .rest).2 1
    ?pinned, ⟨_, rfl, rfl⟩, hfollower 1 2 ⟨_, rfl, rfl⟩ ?_ rfl⟩
  · refine .inr ⟨hnobody (by decide), .inr ⟨hnobody (by decide), .inr ⟨hnobody (by decide),
      .inr ⟨hnobody (by decide), .inr ⟨hnobody (by decide), .inl ?_⟩⟩⟩⟩⟩
    exact ⟨_, rfl, rfl⟩
  · rintro ⟨c, hc, hl⟩
    obtain rfl := Option.some.inj hc
    cases hl

end Contest

end PolyCache.Leader
