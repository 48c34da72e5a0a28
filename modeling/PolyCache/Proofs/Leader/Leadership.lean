import PolyCache.Proofs.Leader.Moves

-- Who leads. An elector that leads holds the lock on its pinned session, or the session has lost
-- its connection or the lock since the elector was last told that it holds it.
namespace PolyCache.Leader

-- The contender has been told that its session holds the lock, though it may have to act on it yet.
def Contender.IsTold (c : Contender) (s : SessionId) : Prop :=
  c.elector.session = some s ∧
    (c.elector.isLeader = true ∨ c.elector.phase = .trying s ∧ c.reply = some (.answer true))

theorem Elector.IsSound.session_of_isLeader {e : Elector} (he : e.IsSound)
    (hl : e.isLeader = true) : ∃ s, e.session = some s := by
  unfold IsSound at he
  split at he
  · exact Option.isSome_iff_exists.mp (he hl)
  · exact ⟨_, he.2⟩
  · exact ⟨_, he.2⟩
  all_goals simp [hl] at he

-- An elector that leads while it waits for an answer waits for that to its heartbeat.
theorem Elector.IsSound.verifying_of_isLeader {e : Elector} (he : e.IsSound) {call : Call}
    (hcall : e.call? = some call) (hl : e.isLeader = true) :
    ∃ t, e.phase = .verifying t ∧ call = .holdsLock t e.key := by
  unfold Elector.IsSound at he
  unfold Elector.call? at hcall
  cases hp : e.phase with
  | verifying t => exact ⟨t, rfl, by simpa [hp] using hcall.symm⟩
  | idle | ended => simp [hp] at hcall
  | acquiring | trying _ | releasing _ => simp [hp, hl] at he

namespace Contest

variable {w u : Contest} {a : Act} {i j : ContenderId} {c d : Contender} {s : SessionId}
  {h : History}

theorem not_confirms (ha : a ≠ .serve i (.answered true)) : ¬Confirms i w a := by
  rintro ⟨s, h | h⟩ <;> exact ha h.1

theorem not_loses (hd : ∀ t, a ≠ .disconnect t) (hu : ∀ t, a ≠ .usurp t) : ¬Loses s w a := by
  rintro (h | ⟨-, t, h⟩)
  · exact hd s h
  · exact hu t h

theorem tryLock_spec {t : SessionId} {yes : Bool}
    (h : w.perform? (.tryLock t w.key) = some (yes, u)) :
    u.holder? = some (w.holder?.getD t) ∧ (yes = true ↔ u.holder? = some t) := by
  simp only [perform?, Option.ite_none_right_eq_some, Option.some.injEq, Prod.mk.injEq] at h
  obtain ⟨-, rfl, rfl⟩ := h
  exact ⟨Locks.holder?_take _ _ _, Locks.isHeldBy_iff⟩

theorem holdsLock_spec {t : SessionId} {yes : Bool}
    (h : w.perform? (.holdsLock t w.key) = some (yes, u)) :
    u = w ∧ (yes = true ↔ w.holder? = some t) := by
  simp only [perform?, Option.ite_none_right_eq_some, Option.some.injEq, Prod.mk.injEq] at h
  obtain ⟨-, rfl, rfl⟩ := h
  exact ⟨rfl, Locks.isHeldBy_iff⟩

theorem unlock_spec {t : SessionId} {yes : Bool}
    (h : w.perform? (.unlock t w.key) = some (yes, u)) (hne : s ≠ t) :
    u.holder? = some s ↔ w.holder? = some s := by
  simp only [perform?, Option.ite_none_right_eq_some, Option.some.injEq, Prod.mk.injEq] at h
  obtain ⟨-, -, rfl⟩ := h
  split
  · rfl
  split
  · simp only [holder?, Locks.holder?_release, Option.filter_eq_some_iff, decide_eq_true_eq]
    exact ⟨fun h => h.1, fun h => ⟨h, hne⟩⟩
  · rfl

theorem finish_holder? (hw : w.Sound) (t : SessionId) :
    (w.finish t).holder? = some s ↔ w.holder? = some s ∧ s ≠ t := by
  simp only [holder?, finish, Locks.holder?_releaseAll hw.locks, Option.filter_eq_some_iff,
    Bool.not_eq_true', beq_eq_false_iff_ne]

theorem yieldTo_holder? {outsider : Option SessionId} (hs : s ∉ outsider) :
    (w.yieldTo outsider).holder? ≠ some s := by
  cases outsider with
  | none => simp [holder?, yieldTo]
  | some t =>
      simp only [holder?, yieldTo, Locks.holder?_give]
      exact fun h => hs (Option.mem_def.mpr h)

-- A call concerns the sessions in the hands of the contender, and no other.
theorem Sound.perform_holder? (hw : w.Sound) (hc : w.contenders[j]? = some c) {call : Call}
    (calls : c.elector.call? = some call) {yes : Bool} (done : w.perform? call = some (yes, u))
    (hs : s ∉ c.sessions) : u.holder? = some s ↔ w.holder? = some s := by
  have he := hw.elector_of hc
  have hne : ∀ t, c.elector.session = some t ∨ c.elector.phase = .releasing t → s ≠ t := by
    rintro t (ht | ht) rfl <;>
      exact hs (by simp [Contender.sessions, Elector.sessions, ht, Phase.released?])
  unfold Elector.IsSound at he
  unfold Elector.call? at calls
  cases hp : c.elector.phase with
  | idle | ended => simp [hp] at calls
  | acquiring =>
      simp only [hp, Option.some.injEq] at calls
      subst calls
      cases done
  | trying t =>
      simp only [hp, hw.key_of hc, Option.some.injEq] at calls he
      subst calls
      rw [(tryLock_spec done).1]
      have ht := hne t (Or.inl he.2)
      cases w.holder? <;> simp [Ne.symm ht]
  | verifying t =>
      simp only [hp, hw.key_of hc, Option.some.injEq] at calls
      subst calls
      rw [(holdsLock_spec done).1]
  | releasing t =>
      simp only [hp, hw.key_of hc, Option.some.injEq] at calls
      subst calls
      exact unlock_spec done (hne t (Or.inr hp))

-- What an act means for a contender that has been told after it that its session holds the lock.
inductive Verdict (i : ContenderId) (s : SessionId) (w : Contest) (a : Act) (u : Contest) :
    Prop where
  -- it has just been told, and rightly
  | confirmed (confirms : Confirms i w a) (holds : u.holder? = some s) (pins : w.Pins i s)
      (led : w.Leads i → w.holder? = some s)
  -- it had been told before, and still holds the lock unless it has just lost it
  | kept (silent : ¬Confirms i w a) (c : Contender) (found : w.contenders[i]? = some c)
      (told : c.IsTold s) (holds : u.holder? ≠ some s ↔ Loses s w a ∨ w.holder? ≠ some s)

theorem verdict_answer (hw : w.Sound) (hc : w.contenders[i]? = some c) {call : Call}
    (calls : c.elector.call? = some call) {yes : Bool} (done : w.perform? call = some (yes, u))
    (ht : ({ c with reply := some (.answer yes) } : Contender).IsTold s) :
    Verdict i s w (.serve i (.answered yes)) (u.put i { c with reply := some (.answer yes) }) := by
  have he := hw.elector_of hc
  have hcall : w.call? i = some call := by simp [call?, hc, calls]
  obtain ⟨hs, ht⟩ := ht
  simp only [Option.some.injEq, Reply.answer.injEq] at ht
  unfold Elector.IsSound at he
  unfold Elector.call? at calls
  cases hp : c.elector.phase with
  | idle | ended => simp [hp] at calls
  | acquiring =>
      simp only [hp, Option.some.injEq] at calls
      subst calls
      cases done
  | trying t =>
      simp only [hp, hw.key_of hc, Option.some.injEq] at calls he ht
      subst calls
      obtain ⟨hfollows, hpinned⟩ := he
      obtain rfl : t = s := Option.some.inj (hpinned.symm.trans hs)
      obtain rfl : yes = true := by simpa [hfollows] using ht
      refine .confirmed ⟨t, Or.inl ⟨rfl, _, hcall⟩⟩ ((tryLock_spec done).2.mp rfl) ⟨c, hc, hs⟩ ?_
      rintro ⟨x, hx, hleads⟩
      obtain rfl := Option.some.inj (hc.symm.trans hx)
      simp [hfollows] at hleads
  | verifying t =>
      simp only [hp, hw.key_of hc, Option.some.injEq] at calls he
      subst calls
      obtain ⟨hleads, hpinned⟩ := he
      obtain rfl : t = s := Option.some.inj (hpinned.symm.trans hs)
      obtain ⟨rfl, hyes⟩ := holdsLock_spec done
      cases yes with
      | true =>
          have hholds := hyes.mp rfl
          exact .confirmed ⟨t, Or.inr ⟨rfl, _, hcall⟩⟩ hholds ⟨c, hc, hs⟩ fun _ => hholds
      | false =>
          refine .kept (not_confirms (by simp)) c hc ⟨hs, Or.inl hleads⟩ ?_
          exact (or_iff_right (not_loses (by simp) (by simp))).symm
  | releasing t =>
      simp only [hp] at he
      rw [he.2] at hs
      cases hs

-- Only an answer of the server tells a contender anything.
theorem Move.told (hm : w.Move i c a d) (hw : w.Sound) (hc : w.contenders[i]? = some c)
    (ha : ∀ yes, a ≠ .serve i (.answered yes)) (ht : d.IsTold s) : c.IsTold s := by
  have he := hw.elector_of hc
  obtain ⟨hs, ht⟩ := ht
  cases hm with
  | rest other => exact ⟨hs, ht⟩
  | wake settled idle cause notices =>
      obtain hl | ⟨-, hr⟩ := ht
      · obtain ⟨hpinned, hleads⟩ :=
          (Elector.wake_advances he idle (w.isSeenClosed notices) cause).leads hl
        exact ⟨hpinned.symm.trans hs, Or.inl (by simpa using hleads)⟩
      · cases hr
  | grant call t =>
      obtain hl | ⟨-, hr⟩ := ht
      · exact ⟨hs, Or.inl hl⟩
      · cases hr
  | answer calls done => exact False.elim (ha _ rfl)
  | fail fate fault =>
      obtain hl | ⟨-, hr⟩ := ht
      · exact ⟨hs, Or.inl hl⟩
      · cases hr
  | deliver replied =>
      obtain hl | ⟨-, hr⟩ := ht
      · have hadv := Elector.resume_advances he (hw.reply_of hc replied)
        obtain ⟨hpinned, hleads | ⟨hyes, x, hx⟩⟩ := hadv.leads hl
        · exact ⟨hpinned.symm.trans hs, Or.inl hleads⟩
        · -- the answer that raises the flag had arrived before
          have hcs := hpinned.symm.trans hs
          simp only [Elector.IsSound, hx] at he
          obtain rfl : x = s := Option.some.inj (he.2.symm.trans hcs)
          exact ⟨hcs, Or.inr ⟨hx, replied.trans hyes⟩⟩
      · cases hr
  | part partings keeps => exact ⟨hs, ht⟩
  | read => exact ⟨hs, ht⟩

-- A contender that has been told so holds the lock until it loses it. Acts of others concern other
-- sessions, and its own free no lock while it leads.
theorem Next.holder?_iff (hw : w.Sound) (h : w.Next a u) (hc : w.contenders[i]? = some c)
    (ht : c.IsTold s) (ha : ∀ yes, a ≠ .serve i (.answered yes)) :
    u.holder? ≠ some s ↔ Loses s w a ∨ w.holder? ≠ some s := by
  have hmem := Contender.mem_sessions_of_session ht.1
  have hother {j : ContenderId} {x : Contender} (hx : w.contenders[j]? = some x) (hij : i ≠ j) :
      s ∉ x.sessions := fun hs => hij (hw.owner_unique hc hx hmem hs)
  cases h with
  | start grant =>
      obtain ⟨idle, opened, alive, rfl, -, -, -⟩ := handOut?_eq hw grant
      exact (or_iff_right (not_loses (by simp) (by simp))).symm
  | grant found settled call grant =>
      obtain ⟨idle, opened, alive, rfl, -, -, -⟩ := handOut?_eq hw grant
      exact (or_iff_right (not_loses (by simp) (by simp))).symm
  | wake | fail | deliver | read =>
      exact (or_iff_right (not_loses (by simp) (by simp))).symm
  | @answer v j x found settled call calls yes done =>
      have hij : i ≠ j := by
        rintro rfl
        exact ha yes rfl
      have hholder : v.holder? = some s ↔ w.holder? = some s :=
        hw.perform_holder? found calls done (hother found hij)
      rw [or_iff_right (not_loses (by simp) (by simp))]
      exact not_congr hholder
  | @unheard v j x found settled call calls yes done fault =>
      rw [or_iff_right (not_loses (by simp) (by simp))]
      by_cases hij : i = j
      · subst hij
        obtain rfl := Option.some.inj (hc.symm.trans found)
        obtain hl | ⟨-, hr⟩ := ht.2
        · -- a leader asks about its lock only, which changes nothing
          obtain ⟨t, -, rfl⟩ := (hw.elector_of hc).verifying_of_isLeader calls hl
          rw [hw.key_of hc] at done
          obtain ⟨rfl, -⟩ := holdsLock_spec done
          exact Iff.rfl
        · rw [settled.2] at hr
          cases hr
      · have hholder : v.holder? = some s ↔ w.holder? = some s :=
          hw.perform_holder? found calls done (hother found hij)
        exact not_congr hholder
  | part found first keeps =>
      rw [or_iff_right (not_loses (by simp) (by simp))]
      unfold dispose
      split <;> exact Iff.rfl
  | @retire t closed =>
      have hne : s ≠ t := by
        rintro rfl
        exact hw.notMem_closing hc hmem closed
      rw [or_iff_right (not_loses (by simp) (by simp)), Ne, finish_holder? hw]
      exact not_congr (and_iff_left hne)
  | disconnect t =>
      rw [Ne, finish_holder? hw, not_and_or, not_not]
      simp only [Loses, Act.disconnect.injEq, reduceCtorEq, exists_false, and_false, or_false]
      rw [or_comm, eq_comm]
  | @usurp outsider fresh =>
      have hopened : s ∈ w.opened := hw.opened s (Sound.mem_places hc hmem)
      have hu : (w.yieldTo outsider).holder? ≠ some s :=
        yieldTo_holder? fun hs => fresh s hs hopened
      by_cases hs : w.holder? = some s
      · exact iff_of_true hu (Or.inl (Or.inr ⟨hs, _, rfl⟩))
      · exact iff_of_true hu (Or.inr hs)

theorem Next.verdict (hw : w.Sound) (h : w.Next a u) (hd : u.contenders[i]? = some d)
    (ht : d.IsTold s) : Verdict i s w a u := by
  rcases h.found hw hd with ⟨c, hc⟩ | ⟨t, -, -, rfl⟩
  · by_cases ha : ∃ yes, a = .serve i (.answered yes)
    · obtain ⟨yes, rfl⟩ := ha
      cases h with
      | answer found settled calls done =>
          obtain ⟨locks, depth, -, rfl⟩ := perform?_eq hw.locks done
          obtain rfl := Option.some.inj ((put_self found _).symm.trans hd)
          exact verdict_answer hw found calls done ht
    · have ha : ∀ yes, a ≠ .serve i (.answered yes) := fun yes heq => ha ⟨yes, heq⟩
      obtain ⟨x, hx, hmove⟩ := h.move hw hc
      obtain rfl := Option.some.inj (hx.symm.trans hd)
      have htold := hmove.told hw hc ha ht
      exact .kept (not_confirms (ha true)) c hc htold (h.holder?_iff hw hc htold ha)
  · simp [Contender.IsTold, Contender.new, Elector.new] at ht

-- The session of a contender that has been told so is stale just when it does not hold the lock.
theorem Run.stale_iff {key : LockKey} (hr : Run (new key) h w) (hc : w.contenders[i]? = some c)
    (ht : c.IsTold s) : Stale i s h ↔ w.holder? ≠ some s := by
  induction hr generalizing c with
  | rest => simp [new] at hc
  | step before next ih =>
      cases next.verdict (before.sound (sound_new key)) hc ht with
      | confirmed confirms holds => exact iff_of_false (fun hs => hs.1 confirms) (not_not.mpr holds)
      | kept silent c found told holds =>
          rw [holds, ← ih found told]
          exact and_iff_right silent

-- A leader that has lost the lock does not get it back while it leads.
theorem Next.lost (hw : w.Sound) (h : w.Next a u) (hc : w.contenders[i]? = some c)
    (hl : c.elector.isLeader = true) (hs : c.elector.session = some s)
    (hlost : w.holder? ≠ some s) (hd : u.contenders[i]? = some d)
    (hld : d.elector.isLeader = true) : d.elector.session = some s ∧ u.holder? ≠ some s := by
  obtain ⟨t, ht⟩ := ((hw.next h).elector_of hd).session_of_isLeader hld
  cases h.verdict hw hd ⟨ht, Or.inl hld⟩ with
  | confirmed confirms holds pins led =>
      obtain ⟨x, hx, hxt⟩ := pins
      obtain rfl := Option.some.inj (hc.symm.trans hx)
      obtain rfl := Option.some.inj (hs.symm.trans hxt)
      exact False.elim (hlost (led ⟨c, hc, hl⟩))
  | kept silent x found told holds =>
      obtain rfl := Option.some.inj (hc.symm.trans found)
      obtain rfl := Option.some.inj (hs.symm.trans told.1)
      exact ⟨ht, holds.mpr (Or.inr hlost)⟩

theorem Run.lost (hr : Run w h u) (hw : w.Sound) (hc : w.contenders[i]? = some c)
    (hs : c.elector.session = some s) (hlost : w.holder? ≠ some s)
    (hleads : ∀ x ∈ h, x.1.Leads i) (hd : u.contenders[i]? = some d)
    (hld : d.elector.isLeader = true) : d.elector.session = some s ∧ u.holder? ≠ some s := by
  induction hr generalizing d with
  | rest =>
      obtain rfl := Option.some.inj (hc.symm.trans hd)
      exact ⟨hs, hlost⟩
  | step before next ih =>
      obtain ⟨x, hx, hlx⟩ := hleads _ List.mem_cons_self
      obtain ⟨hxs, hxlost⟩ := ih (fun y hy => hleads y (List.mem_cons_of_mem _ hy)) hx hlx
      exact next.lost (before.sound hw) hx hlx hxs hxlost hd hld

end Contest

end PolyCache.Leader
