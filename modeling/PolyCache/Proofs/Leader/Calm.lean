import PolyCache.Proofs.Leader.Departure

-- How a contender fares while nothing goes wrong for it: a heartbeat makes a leader without
-- the lock step down, and the next check takes the lock, on the pinned session if it is
-- open and on a new one if not.
namespace PolyCache.Leader

def Act.waking? (i : ContenderId) : Act → Option Wake
  | .wake j cause _ => if j = i then some cause else none
  | _ => none

-- An elector that has been told that it holds the lock leads, on the same session.
theorem Elector.resume_told {e : Elector} (he : e.IsSound) (hx : e.Expects (.answer true))
    {s : SessionId} (hs : e.session = some s) :
    (e.resume (.answer true)).elector.isLeader = true ∧
      (e.resume (.answer true)).elector.session = some s := by
  cases hp : e.phase with
  | idle | acquiring | ended => simp [Expects, call?, hp] at hx
  | trying t => simp [resume, hp, hs]
  | verifying t =>
      simp only [IsSound, hp] at he
      simp [resume, hp, hs, he.1]
  | releasing t =>
      simp only [IsSound, hp, hs] at he
      cases he.2

namespace Contest

variable {w u : Contest} {a : Act} {i : ContenderId} {c d : Contender} {s t : SessionId}
  {h g : History} {key : LockKey}

-- What a contender has been woken for in a run, the latest first.
def wakings (i : ContenderId) (h : History) : List Wake := h.filterMap fun x => x.2.waking? i

-- Between two steps.
def AtRest (i : ContenderId) (w : Contest) : Prop :=
  ∃ c, w.contenders[i]? = some c ∧ c.IsSettled ∧ c.elector.phase = .idle

-- The lock is free, or with a session in the contender's hands.
def IsFreeFor (i : ContenderId) (w : Contest) : Prop :=
  ∀ s, w.holder? = some s → ∃ c, w.contenders[i]? = some c ∧ s ∈ c.sessions

-- No call of the contender fails, and nobody loses a connection or the lock.
structure Spares (i : ContenderId) (w : Contest) (a : Act) : Prop where
  unheard : ∀ fault, a ≠ .serve i (.unheard fault)
  failed : ∀ fault, a ≠ .serve i (.failed fault)
  kept : ∀ s, ¬Loses s w a

-- A run in which nothing goes wrong for the contender, and nobody else has the lock.
structure IsCalm (i : ContenderId) (h : History) (u : Contest) : Prop where
  acts : ∀ x ∈ h, Spares i x.1 x.2
  free : ∀ v ∈ states h u, v.IsFreeFor i

-- The contender leads, and its session is open and holds the lock.
def HoldsOffice (i : ContenderId) (w : Contest) : Prop :=
  w.Leads i ∧ ∃ s, w.Pins i s ∧ s ∈ w.alive ∧ w.holder? = some s

section Holder

theorem alive_subset_of_handOut (h : w.handOut? s = some u) : w.alive ⊆ u.alive := by
  unfold handOut? at h
  split at h
  · obtain rfl := Option.some.inj h
    exact List.Subset.refl _
  · split at h
    · cases h
    · obtain rfl := Option.some.inj h
      exact List.subset_cons_self _ _

-- A call gives the lock to nobody but an open session.
theorem Sound.perform_alive (hw : w.Sound) (hc : w.contenders[i]? = some c) {call : Call}
    (calls : c.elector.call? = some call) {yes : Bool} (done : w.perform? call = some (yes, u)) :
    u.alive = w.alive ∧ ∀ s, u.holder? = some s → w.holder? = some s ∨ s ∈ w.alive := by
  unfold Elector.call? at calls
  cases hp : c.elector.phase with
  | idle | ended => simp [hp] at calls
  | acquiring =>
      simp only [hp, Option.some.injEq] at calls
      subst calls
      cases done
  | trying t =>
      simp only [hp, hw.key_of hc, Option.some.injEq] at calls
      subst calls
      have hholder := (tryLock_spec done).1
      simp only [perform?, Option.ite_none_right_eq_some, Option.some.injEq, Prod.mk.injEq] at done
      obtain ⟨halive, -, rfl⟩ := done
      refine ⟨rfl, fun s hs => ?_⟩
      rw [hholder] at hs
      cases ho : w.holder? with
      | none =>
          rw [ho] at hs
          obtain rfl := Option.some.inj hs
          exact Or.inr halive
      | some x =>
          rw [ho] at hs
          exact Or.inl hs
  | verifying t =>
      simp only [hp, hw.key_of hc, Option.some.injEq] at calls
      subst calls
      obtain ⟨rfl, -⟩ := holdsLock_spec done
      exact ⟨rfl, fun s hs => Or.inl hs⟩
  | releasing t =>
      simp only [hp, hw.key_of hc, Option.some.injEq] at calls
      subst calls
      have hholder (s : SessionId) (hne : s ≠ t) := (unlock_spec done hne).mp
      simp only [perform?, Option.ite_none_right_eq_some, Option.some.injEq, Prod.mk.injEq] at done
      obtain ⟨halive, -, hu⟩ := done
      refine ⟨?_, fun s hs => ?_⟩
      · rw [← hu]
        split
        · rfl
        · split <;> rfl
      · by_cases hst : s = t
        · exact Or.inr (hst ▸ halive)
        · exact Or.inl (hholder s hst hs)

-- The session that holds the lock is open.
theorem Next.holder_alive (hw : w.Sound) (hlive : ∀ s, w.holder? = some s → s ∈ w.alive)
    (h : w.Next a u) : ∀ s, u.holder? = some s → s ∈ u.alive := by
  intro s ho
  cases h with
  | start grant | grant found settled call grant =>
      have hsub := alive_subset_of_handOut grant
      obtain ⟨idle, opened, alive, rfl, -, -, -⟩ := handOut?_eq hw grant
      exact hsub (hlive s ho)
  | wake | fail | deliver | read => exact hlive s ho
  | answer found settled calls done | unheard found settled calls done =>
      obtain ⟨halive, hholder⟩ := hw.perform_alive found calls done
      rcases hholder s ho with hold | hs
      · exact halive ▸ hlive s hold
      · exact halive ▸ hs
  | part found first keeps =>
      unfold dispose at ho ⊢
      split at ho <;> split <;> exact hlive s ho
  | @retire t closed =>
      obtain ⟨hold, hne⟩ := (finish_holder? hw t).mp ho
      exact List.mem_filter.mpr ⟨hlive s hold, by simpa using hne⟩
  | disconnect t =>
      obtain ⟨hold, hne⟩ := (finish_holder? hw t).mp ho
      exact List.mem_filter.mpr ⟨hlive s hold, by simpa using hne⟩
  | @usurp outsider fresh =>
      cases outsider with
      | none => simp [holder?, yieldTo] at ho
      | some t =>
          obtain rfl : t = s := by simpa [holder?, yieldTo] using ho
          exact List.mem_cons_self

theorem Run.holder_alive (hr : Run (new key) h w) : ∀ s, w.holder? = some s → s ∈ w.alive := by
  induction hr with
  | rest => simp [new, holder?]
  | step before next ih => exact next.holder_alive (before.sound (sound_new key)) ih

end Holder

-- A contender that is about to lead, or leads rightly.
inductive Rising (w : Contest) (c : Contender) : Prop where
  | acquiring (phase : c.elector.phase = .acquiring)
      (heard : ∀ fault, c.reply ≠ some (.failed fault))
  | trying {s : SessionId} (phase : c.elector.phase = .trying s) (silent : c.reply = none)
  | secure {s : SessionId} (told : c.IsTold s) (holds : w.holder? = some s)
      (heard : c.reply = none ∨ c.reply = some (.answer true))

-- A contender that is about to find out whether it leads rightly, or knows.
inductive Settling (w : Contest) (c : Contender) : Prop where
  | follower (follows : c.elector.isLeader = false) (idle : c.elector.phase = .idle)
  | verifying {s : SessionId} (phase : c.elector.phase = .verifying s)
      (heard : c.reply = none ∨ c.reply = some (.answer false))
  | rising (rising : Rising w c)

-- A contender that has been told that it holds the lock holds it through all acts of others that
-- spare it.
theorem Next.secure (hw : w.Sound) (h : w.Next a u) (hc : w.contenders[i]? = some c)
    (ha : Spares i w a) (hi : a.contender? ≠ some i) (ht : c.IsTold s) (hs : w.holder? = some s) :
    u.holder? = some s := by
  by_contra hlost
  have hanswer : ∀ yes, a ≠ .serve i (.answered yes) := by
    rintro yes rfl
    exact hi rfl
  rcases (h.holder?_iff hw hc ht hanswer).mp hlost with hloses | hnot
  · exact ha.kept s hloses
  · exact hnot hs

-- When nobody else has the lock, a contender that seeks it gets it.
theorem IsFreeFor.tryLock (hfree : w.IsFreeFor i) (hw : w.Sound) (hc : w.contenders[i]? = some c)
    (hsettled : c.IsSettled) (hp : c.elector.phase = .trying s) {yes : Bool}
    (done : w.perform? (.tryLock s w.key) = some (yes, u)) :
    yes = true ∧ u.holder? = some s := by
  have hs : c.elector.session = some s := by
    have he := hw.elector_of hc
    simp only [Elector.IsSound, hp] at he
    exact he.2
  have hsessions : c.sessions = [s] := by
    simp [Contender.sessions, Elector.sessions, hs, hp, hsettled.1, hsettled.2, Phase.released?]
  obtain ⟨hholder, hyes⟩ := tryLock_spec done
  have hgot : u.holder? = some s := by
    rw [hholder]
    cases ho : w.holder? with
    | none => rfl
    | some t =>
        obtain ⟨x, hx, ht⟩ := hfree t ho
        obtain rfl := Option.some.inj (hc.symm.trans hx)
        rw [hsessions, List.mem_singleton] at ht
        rw [ht, Option.getD_some]
  exact ⟨hyes.mpr hgot, hgot⟩

-- What counts is the same after the act.
theorem Rising.of_same (hr : Rising w c) (hphase : d.elector.phase = c.elector.phase)
    (hsession : d.elector.session = c.elector.session)
    (hleader : d.elector.isLeader = c.elector.isLeader) (hreply : d.reply = c.reply)
    (hholder : ∀ s, c.IsTold s → w.holder? = some s → u.holder? = some s) : Rising u d := by
  cases hr with
  | acquiring phase heard => exact .acquiring (hphase.trans phase) (by rwa [hreply])
  | trying phase silent => exact .trying (hphase.trans phase) (hreply.trans silent)
  | @secure s told holds heard =>
      refine .secure ?_ (hholder s told holds) (by rwa [hreply])
      rwa [Contender.IsTold, hsession, hleader, hphase, hreply]

-- A leader in office does not see its session closed.
theorem Rising.wake (hr : Rising w c) (hlive : ∀ s, w.holder? = some s → s ∈ w.alive)
    (idle : c.elector.phase = .idle)
    {cause : Wake} (hcause : cause ≠ .stop) (notices : Bool) :
    Rising w (.after (c.elector.wake (w.isSeenClosed notices) cause)) := by
  cases hr with
  | acquiring phase => cases idle.symm.trans phase
  | trying phase => cases idle.symm.trans phase
  | @secure s told holds heard =>
      obtain ⟨hs, hl | ⟨hp, -⟩⟩ := told
      · have hopen : w.isSeenClosed notices s = false := by
          simp [isSeenClosed, hlive s holds]
        cases cause with
        | check =>
            refine .secure ⟨?_, Or.inl ?_⟩ holds (Or.inl rfl) <;>
              simp [Contender.after, Elector.wake, Elector.check, hl, hs]
        | heartbeat =>
            refine .secure ⟨?_, Or.inl ?_⟩ holds (Or.inl rfl) <;>
              simp [Contender.after, Elector.wake, Elector.heartbeat, hl, hs, hopen]
        | stop => exact absurd rfl hcause
      · cases idle.symm.trans hp

-- The server answers a follower that it has got the lock, and a leader in office that it has it.
theorem Rising.answer (hr : Rising w c) (hw : w.Sound) (hc : w.contenders[i]? = some c)
    (hfree : w.IsFreeFor i) (hsettled : c.IsSettled) {call : Call}
    (calls : c.elector.call? = some call) {yes : Bool} (done : w.perform? call = some (yes, u)) :
    Rising u { c with reply := some (.answer yes) } := by
  have he := hw.elector_of hc
  cases hr with
  | acquiring phase =>
      obtain rfl : .acquire = call := by simpa [Elector.call?, phase] using calls
      cases done
  | @trying s phase =>
      obtain rfl : .tryLock s w.key = call := by
        simpa [Elector.call?, phase, hw.key_of hc] using calls
      obtain ⟨rfl, hgot⟩ := hfree.tryLock hw hc hsettled phase done
      simp only [Elector.IsSound, phase] at he
      exact .secure ⟨he.2, Or.inr ⟨phase, rfl⟩⟩ hgot (Or.inr rfl)
  | @secure s told holds heard =>
      obtain ⟨hs, hl | ⟨-, hreply⟩⟩ := told
      · obtain ⟨t, hp, rfl⟩ := he.verifying_of_isLeader calls hl
        rw [hw.key_of hc] at done
        obtain rfl : t = s := by
          simp only [Elector.IsSound, hp] at he
          exact Option.some.inj (he.2.symm.trans hs)
        obtain ⟨rfl, hyes⟩ := holdsLock_spec done
        obtain rfl := hyes.mpr holds
        exact .secure ⟨hs, Or.inl hl⟩ holds (Or.inr rfl)
      · rw [hsettled.2] at hreply
        cases hreply

theorem Rising.deliver (hr : Rising w c) (hw : w.Sound) (hc : w.contenders[i]? = some c)
    {reply : Reply} (replied : c.reply = some reply) :
    Rising w (.after (c.elector.resume reply)) := by
  have hx := hw.reply_of hc replied
  cases hr with
  | acquiring phase heard =>
      cases reply with
      | session t =>
          refine .trying (s := t) ?_ rfl
          simp [Contender.after, Elector.resume, phase]
      | answer yes => simp [Elector.Expects, Elector.call?, phase] at hx
      | failed fault => exact absurd replied (heard fault)
  | trying phase silent =>
      rw [silent] at replied
      cases replied
  | @secure s told holds heard =>
      obtain rfl : reply = .answer true := by simpa [replied] using heard
      obtain ⟨hl, hs⟩ := Elector.resume_told (hw.elector_of hc) hx told.1
      exact .secure ⟨hs, Or.inl hl⟩ holds (Or.inl rfl)

theorem Rising.next (hr : Rising w c) (hw : w.Sound)
    (hlive : ∀ s, w.holder? = some s → s ∈ w.alive) (h : w.Next a u)
    (hc : w.contenders[i]? = some c) (ha : Spares i w a) (hfree : w.IsFreeFor i)
    (hstop : a.waking? i ≠ some .stop) : ∃ d, u.contenders[i]? = some d ∧ Rising u d := by
  by_cases hi : a.contender? = some i
  · cases h.does hc hi with
    | wake settled idle cause notices =>
        have hcause : cause ≠ .stop := by simpa [Act.waking?] using hstop
        exact ⟨_, put_self hc _, (hr.wake hlive idle hcause notices).of_same rfl rfl rfl rfl
          fun s _ hs => hs⟩
    | grant settled call grant =>
        obtain ⟨idle, opened, alive, rfl, -, -, -⟩ := handOut?_eq hw grant
        exact ⟨_, put_self hc _, .acquiring (Elector.phase_of_acquire call) (by simp)⟩
    | @answer v call yes settled calls done =>
        have hrising := hr.answer hw hc hfree settled calls done
        obtain ⟨locks, depth, -, rfl⟩ := perform?_eq hw.locks done
        exact ⟨_, put_self hc _, hrising.of_same rfl rfl rfl rfl fun s _ hs => hs⟩
    | unheard settled calls done fault => exact absurd rfl (ha.unheard fault)
    | fail settled calls fault => exact absurd rfl (ha.failed fault)
    | deliver gone replied =>
        exact ⟨_, put_self hc _, (hr.deliver hw hc replied).of_same rfl rfl rfl rfl
          fun s _ hs => hs⟩
    | part first keeps =>
        refine ⟨_, put_dispose hc _ _ keeps, hr.of_same rfl rfl rfl rfl fun s _ hs => ?_⟩
        rw [holder?_dispose]
        exact hs
    | read => exact ⟨_, put_self hc _, hr.of_same rfl rfl rfl rfl fun s _ hs => hs⟩
  · exact ⟨c, h.same hw hc hi, hr.of_same rfl rfl rfl rfl fun s => h.secure hw hc ha hi⟩

-- A follower that checks goes on to seek the lock, on its session or on a new one.
theorem rising_of_check {e : Elector} (follows : e.isLeader = false) (isClosed : SessionId → Bool) :
    Rising w (.after (e.check isClosed)) := by
  cases hs : e.session with
  | none =>
      refine .acquiring ?_ nofun
      simp [Contender.after, Elector.check, follows, hs]
  | some s =>
      by_cases hclosed : isClosed s = true
      · refine .acquiring ?_ nofun
        simp [Contender.after, Elector.check, follows, hs, hclosed]
      · refine .trying (s := s) ?_ rfl
        simp [Contender.after, Elector.check, follows, hs, hclosed]

-- A heartbeat that finds the session closed ends leadership at once, another asks the server.
theorem settling_of_heartbeat {e : Elector} (he : e.IsSound) (idle : e.phase = .idle)
    (isClosed : SessionId → Bool) : Settling w (.after (e.heartbeat isClosed)) := by
  by_cases hl : e.isLeader = true
  · obtain ⟨s, hs⟩ := he.session_of_isLeader hl
    by_cases hclosed : isClosed s = true
    · refine .follower ?_ ?_ <;> simp [Contender.after, Elector.heartbeat, hl, hs, hclosed, idle]
    · refine .verifying (s := s) ?_ (Or.inl rfl)
      simp [Contender.after, Elector.heartbeat, hl, hs, hclosed]
  · refine .follower ?_ ?_ <;> simp [Contender.after, Elector.heartbeat, hl, idle]

theorem Next.settling_follower (h : w.Next a u) (hw : w.Sound) (hc : w.contenders[i]? = some c)
    (follows : c.elector.isLeader = false) (idle : c.elector.phase = .idle)
    (hstop : a.waking? i ≠ some .stop) : ∃ d, u.contenders[i]? = some d ∧ Settling u d := by
  by_cases hi : a.contender? = some i
  · cases h.does hc hi with
    | wake settled idle cause notices =>
        refine ⟨_, put_self hc _, ?_⟩
        cases cause with
        | check => exact .rising (rising_of_check follows _)
        | heartbeat => exact settling_of_heartbeat (hw.elector_of hc) idle _
        | stop => simp [Act.waking?] at hstop
    | grant settled call grant => simp [Elector.call?, idle] at call
    | answer settled calls done | unheard settled calls done | fail settled calls =>
        simp [Elector.call?, idle] at calls
    | @deliver reply gone replied =>
        have hx := hw.reply_of hc replied
        cases reply <;> simp [Elector.Expects, Elector.call?, idle] at hx
    | part first keeps => exact ⟨_, put_dispose hc _ _ keeps, .follower follows idle⟩
    | read => exact ⟨_, put_self hc _, .follower follows idle⟩
  · exact ⟨c, h.same hw hc hi, .follower follows idle⟩

-- A leader that asks whether it holds the lock goes on in office, or learns that it is a follower.
theorem Next.settling_verifying (h : w.Next a u) (hw : w.Sound) (hc : w.contenders[i]? = some c)
    (phase : c.elector.phase = .verifying s)
    (heard : c.reply = none ∨ c.reply = some (.answer false)) (ha : Spares i w a) :
    ∃ d, u.contenders[i]? = some d ∧ Settling u d := by
  by_cases hi : a.contender? = some i
  · cases h.does hc hi with
    | wake settled idle cause notices => cases idle.symm.trans phase
    | grant settled call grant => simp [Elector.call?, phase] at call
    | @answer v call yes settled calls done =>
        obtain rfl : .holdsLock s w.key = call := by
          simpa [Elector.call?, phase, hw.key_of hc] using calls
        obtain ⟨rfl, hyes⟩ := holdsLock_spec done
        have he := hw.elector_of hc
        simp only [Elector.IsSound, phase] at he
        refine ⟨_, put_self hc _, ?_⟩
        cases yes with
        | true => exact .rising (.secure ⟨he.2, Or.inl he.1⟩ (hyes.mp rfl) (Or.inr rfl))
        | false => exact .verifying phase (Or.inr rfl)
    | unheard settled calls done fault => exact absurd rfl (ha.unheard fault)
    | fail settled calls fault => exact absurd rfl (ha.failed fault)
    | @deliver reply gone replied =>
        obtain rfl : reply = .answer false := by simpa [replied] using heard
        refine ⟨_, put_self hc _, .follower ?_ ?_⟩ <;> simp [Contender.after, Elector.resume, phase]
    | part first keeps => exact ⟨_, put_dispose hc _ _ keeps, .verifying phase heard⟩
    | read => exact ⟨_, put_self hc _, .verifying phase heard⟩
  · exact ⟨c, h.same hw hc hi, .verifying phase heard⟩

theorem Settling.next (hr : Settling w c) (hw : w.Sound)
    (hlive : ∀ s, w.holder? = some s → s ∈ w.alive) (h : w.Next a u)
    (hc : w.contenders[i]? = some c) (ha : Spares i w a) (hfree : w.IsFreeFor i)
    (hstop : a.waking? i ≠ some .stop) : ∃ d, u.contenders[i]? = some d ∧ Settling u d := by
  cases hr with
  | rising hrising =>
      obtain ⟨d, hd, hnext⟩ := hrising.next hw hlive h hc ha hfree hstop
      exact ⟨d, hd, .rising hnext⟩
  | follower follows idle => exact h.settling_follower hw hc follows idle hstop
  | verifying phase heard => exact h.settling_verifying hw hc phase heard ha

-- What an act wakes a contender for is what the contender does.
theorem Next.waking (h : w.Next a u) {cause : Wake} (hcause : a.waking? i = some cause) :
    ∃ c notices, w.contenders[i]? = some c ∧ c.elector.phase = .idle ∧
      u.contenders[i]? = some (.after (c.elector.wake (w.isSeenClosed notices) cause)) := by
  unfold Act.waking? at hcause
  split at hcause
  · rename_i j cause' notices
    split at hcause
    · rename_i hj
      obtain rfl := Option.some.inj hcause
      subst hj
      cases h with
      | wake found settled idle => exact ⟨_, _, found, idle, put_self found _⟩
    · cases hcause
  · cases hcause

theorem Settling.checked (hr : Settling w c) (idle : c.elector.phase = .idle)
    (hc : w.contenders[i]? = some c) (hw : w.Sound)
    (hlive : ∀ s, w.holder? = some s → s ∈ w.alive) (h : w.Next a u) (ha : Spares i w a)
    (hfree : w.IsFreeFor i) (hcheck : a.waking? i = some .check) :
    ∃ d, u.contenders[i]? = some d ∧ Rising u d := by
  cases hr with
  | follower follows =>
      obtain ⟨x, notices, hx, -, hu⟩ := h.waking hcheck
      obtain rfl := Option.some.inj (hc.symm.trans hx)
      exact ⟨_, hu, rising_of_check follows _⟩
  | verifying phase => cases idle.symm.trans phase
  | rising hrising => exact hrising.next hw hlive h hc ha hfree (by rw [hcheck]; nofun)

theorem wakings_cons (x : Contest × Act) (h : History) :
    wakings i (x :: h) = (x.2.waking? i).toList ++ wakings i h := by
  unfold wakings
  rw [List.filterMap_cons]
  cases x.2.waking? i <;> rfl

theorem IsCalm.of_cons {x : Contest × Act} {v : Contest} (hv : x.1 = v)
    (hcalm : IsCalm i (x :: h) u) : Spares i v x.2 ∧ v.IsFreeFor i ∧ IsCalm i h v := by
  subst hv
  refine ⟨hcalm.acts x List.mem_cons_self, hcalm.free _ (by simp [states]), ?_, ?_⟩
  · intro y hy
    exact hcalm.acts y (List.mem_cons_of_mem _ hy)
  · intro v hv
    exact hcalm.free v (List.mem_cons_of_mem _ (by simpa [states] using hv))

-- A heartbeat settles what came before, and calm keeps it settled.
theorem Run.settling (hr : Run (new key) g w) (hrun : Run w h u) (hcalm : IsCalm i h u)
    (hstop : .stop ∉ wakings i h)
    (hstart : (∃ c, w.contenders[i]? = some c ∧ Settling w c) ∨ .heartbeat ∈ wakings i h) :
    ∃ c, u.contenders[i]? = some c ∧ Settling u c := by
  induction hrun with
  | rest => exact hstart.resolve_right (by simp [wakings])
  | @step h v u a before next ih =>
      have hv := hr.append before
      have hw := hv.sound (sound_new key)
      obtain ⟨ha, hfree, hcalm⟩ := hcalm.of_cons rfl
      rw [wakings_cons, List.mem_append] at hstart
      rw [wakings_cons, List.mem_append, not_or] at hstop
      by_cases hbeat : a.waking? i = some .heartbeat
      · obtain ⟨c, notices, hc, idle, hu⟩ := next.waking hbeat
        exact ⟨_, hu, settling_of_heartbeat (hw.elector_of hc) idle _⟩
      · have hrest : .heartbeat ∉ (a.waking? i).toList := by simpa using hbeat
        obtain ⟨c, hc, hsettling⟩ :=
          ih hcalm hstop.2 (hstart.imp_right fun h => h.resolve_left hrest)
        exact hsettling.next hw hv.holder_alive next hc ha hfree (by simpa using hstop.1)

-- A check after that takes the lock, and calm keeps it.
theorem Run.rising (hr : Run (new key) g w) (hrun : Run w h u) (hcalm : IsCalm i h u)
    (hstop : .stop ∉ wakings i h)
    (hwakings : (∃ c, w.contenders[i]? = some c ∧ Settling w c) ∧ .check ∈ wakings i h ∨
      [.check, .heartbeat].Sublist (wakings i h)) :
    ∃ c, u.contenders[i]? = some c ∧ Rising u c := by
  induction hrun with
  | rest => simp [wakings] at hwakings
  | @step h v u a before next ih =>
      have hv := hr.append before
      have hw := hv.sound (sound_new key)
      obtain ⟨ha, hfree, hcalm⟩ := hcalm.of_cons rfl
      rw [wakings_cons] at hwakings
      rw [wakings_cons, List.mem_append, not_or] at hstop
      by_cases hcheck : a.waking? i = some .check
      · have hsettled : (∃ c, w.contenders[i]? = some c ∧ Settling w c) ∨
            .heartbeat ∈ wakings i h := by
          refine hwakings.imp And.left fun hsub => ?_
          rw [hcheck] at hsub
          exact List.singleton_sublist.mp (List.cons_sublist_cons.mp hsub)
        obtain ⟨c, hc, hsettling⟩ := hr.settling before hcalm hstop.2 hsettled
        obtain ⟨x, notices, hx, idle, -⟩ := next.waking hcheck
        obtain rfl := Option.some.inj (hc.symm.trans hx)
        exact hsettling.checked idle hc hw hv.holder_alive next ha hfree hcheck
      · have hbefore : (∃ c, w.contenders[i]? = some c ∧ Settling w c) ∧ .check ∈ wakings i h ∨
            [.check, .heartbeat].Sublist (wakings i h) := by
          cases hcause : a.waking? i with
          | none => simpa [hcause] using hwakings
          | some cause =>
              have hne : cause ≠ .check := fun heq => hcheck (heq ▸ hcause)
              rw [hcause] at hwakings
              refine hwakings.imp (And.imp_right ?_) ?_
              · exact fun hm => (List.mem_cons.mp hm).resolve_left hne.symm
              · intro hsub
                cases hsub with
                | cons _ hsub => exact hsub
                | cons_cons => exact absurd rfl hne
        obtain ⟨c, hc, hrising⟩ := ih hcalm hstop.2 hbefore
        exact hrising.next hw hv.holder_alive next hc ha hfree (by simpa using hstop.1)

theorem Rising.holdsOffice (hr : Rising w c) (hc : w.contenders[i]? = some c)
    (idle : c.elector.phase = .idle) (hlive : ∀ s, w.holder? = some s → s ∈ w.alive) :
    w.HoldsOffice i := by
  cases hr with
  | acquiring phase => cases idle.symm.trans phase
  | trying phase => cases idle.symm.trans phase
  | @secure s told holds =>
      obtain ⟨hs, hl | ⟨hp, -⟩⟩ := told
      · exact ⟨⟨c, hc, hl⟩, s, ⟨c, hc, hs⟩, hlive s holds, holds⟩
      · cases idle.symm.trans hp

end Contest

end PolyCache.Leader
