import PolyCache.Proofs.Leader.Leadership

-- Where the session that holds the lock may be. If a call that fails has no effect on the lock, a
-- session in the hands of an elector holds the lock only while the elector leads, is told that it
-- leads, frees the lock or ends the session; and no session takes the lock twice.
namespace PolyCache.Leader

-- What holds of a contender's sessions while `holder` has the lock. The pinned one has it only if
-- the contender has been told so, and those that may be used again do not have it.
structure Contender.Keeps (holder : Option SessionId) (c : Contender) : Prop where
  pinned : ∀ s, c.elector.session = some s → holder = some s → c.IsTold s
  released : ∀ s yes, c.elector.phase = .releasing s → c.reply = some (.answer yes) →
    holder ≠ some s
  parted : ∀ p ∈ c.partings, p.isIntact = true → holder ≠ some p.session
  granted : ∀ s, c.reply = some (.session s) → holder ≠ some s

section Steps

variable {holder : Option SessionId} {e : Elector} {c : Contender} {s : SessionId}

theorem Contender.mem_sessions_of_releasing (h : c.elector.phase = .releasing s) :
    s ∈ c.sessions := by
  simp [sessions, Elector.sessions, h, Phase.released?]

theorem Contender.mem_sessions_of_parting {p : Parting} (h : p ∈ c.partings) :
    p.session ∈ c.sessions := by
  simp only [sessions, List.mem_append, List.mem_map]
  exact Or.inl (Or.inr ⟨p, h, rfl⟩)

theorem Contender.mem_sessions_of_granted (h : c.reply = some (.session s)) : s ∈ c.sessions := by
  simp [sessions, h, Reply.granted?]

-- The lock may go anywhere but to a session of the contender.
theorem Contender.Keeps.of_holder {other : Option SessionId} (hk : c.Keeps holder)
    (h : ∀ s ∈ c.sessions, other = some s → holder = some s) : c.Keeps other where
  pinned s hs ho := hk.pinned s hs (h s (mem_sessions_of_session hs) ho)
  released s yes hp hr ho := hk.released s yes hp hr (h s (mem_sessions_of_releasing hp) ho)
  parted p hp hi ho := hk.parted p hp hi (h p.session (mem_sessions_of_parting hp) ho)
  granted s hr ho := hk.granted s hr (h s (mem_sessions_of_granted hr) ho)

theorem Contender.keeps_new (key : LockKey) (h : holder ≠ some s) :
    (Contender.new key s).Keeps holder where
  pinned t ht ho := by
    obtain rfl : s = t := by simpa [Contender.new, Elector.new] using ht
    exact absurd ho h
  released t yes hp := by cases hp
  parted p hp := by cases hp
  granted t hr := by cases hr

theorem Contender.keeps_after {st : Step}
    (hpinned : ∀ s, st.elector.session = some s → holder = some s → st.elector.isLeader = true)
    (hparted : ∀ p ∈ st.partings, p.isIntact = true → holder ≠ some p.session) :
    (Contender.after st).Keeps holder where
  pinned s hs ho := ⟨hs, Or.inl (hpinned s hs ho)⟩
  released s yes hp hr := by cases hr
  parted := hparted
  granted s hr := by cases hr

-- A follower that wakes has no session with the lock; a leader keeps the session that it pins,
-- frees the lock, or ends the session.
theorem Elector.wake_keeps {isClosed : SessionId → Bool}
    (hpinned : ∀ s, e.session = some s → holder = some s → e.isLeader = true)
    (hclosed : ∀ s, isClosed s = true → holder ≠ some s) (cause : Wake) :
    (Contender.after (e.wake isClosed cause)).Keeps holder := by
  cases cause with
  | check =>
      show (Contender.after (e.check isClosed)).Keeps holder
      unfold check
      by_cases hl : e.isLeader = true
      · rw [if_pos hl]
        exact Contender.keeps_after hpinned (by simp)
      · rw [if_neg hl]
        cases hs : e.session with
        | none => exact Contender.keeps_after (by simp [hs]) (by simp)
        | some s =>
            dsimp only
            by_cases hc : isClosed s = true
            · rw [if_pos hc]
              exact Contender.keeps_after (by simp) (by simpa [Effect.parting?] using hclosed s hc)
            · rw [if_neg hc]
              exact Contender.keeps_after hpinned (by simp)
  | heartbeat =>
      show (Contender.after (e.heartbeat isClosed)).Keeps holder
      unfold heartbeat
      by_cases hl : e.isLeader = true
      · rw [if_pos hl]
        have hlost : (Contender.after (e.rest.stepDown.report .verifyLock .sessionLost)).Keeps
            holder := Contender.keeps_after (by simp) (by simp)
        cases hs : e.session with
        | none => exact hlost
        | some s =>
            dsimp only
            by_cases hc : isClosed s = true
            · rw [if_pos hc]
              exact hlost
            · rw [if_neg hc]
              exact Contender.keeps_after hpinned (by simp)
      · rw [if_neg hl]
        exact Contender.keeps_after hpinned (by simp)
  | stop =>
      show (Contender.after e.stop).Keeps holder
      unfold stop
      cases hs : e.session with
      | none => exact Contender.keeps_after (by simp) (by simp)
      | some s =>
          dsimp only
          by_cases hl : e.isLeader = true
          · rw [if_pos hl]
            exact Contender.keeps_after (by simp) (by simp)
          · rw [if_neg hl]
            refine Contender.keeps_after (by simp) ?_
            simpa [Effect.parting?] using fun ho => hl (hpinned s hs ho)

-- An elector that learns that it holds the lock leads; one that learns anything else has no session
-- with the lock or ends the session.
theorem Contender.Keeps.resume (hk : c.Keeps holder) (he : c.elector.IsSound) {reply : Reply}
    (hr : c.reply = some reply) (hx : c.elector.Expects reply) :
    (Contender.after (c.elector.resume reply)).Keeps holder := by
  have hpinned (s : SessionId) (hs : c.elector.session = some s) (ho : holder = some s) :
      c.elector.isLeader = true ∨ c.elector.phase = .trying s ∧ reply = .answer true := by
    simpa [hr] using (hk.pinned s hs ho).2
  cases hp : c.elector.phase with
  | idle | ended => cases reply <;> simp_all [Elector.Expects, Elector.call?]
  | acquiring =>
      cases reply with
      | session s =>
          apply keeps_after <;> simp_all [Elector.IsSound, Elector.resume, hk.granted s hr]
      | answer yes => simp_all [Elector.Expects, Elector.call?]
      | failed fault => apply keeps_after <;> simp_all [Elector.IsSound, Elector.resume]
  | trying s =>
      cases reply with
      | session t => simp_all [Elector.Expects, Elector.call?]
      | answer yes =>
          cases yes <;> apply keeps_after <;> simp_all [Elector.IsSound, Elector.resume]
      | failed fault => apply keeps_after <;> simp_all [Elector.IsSound, Elector.resume]
  | verifying s =>
      cases reply with
      | session t => simp_all [Elector.Expects, Elector.call?]
      | answer yes =>
          cases yes <;> apply keeps_after <;> simp_all [Elector.IsSound, Elector.resume]
      | failed fault => apply keeps_after <;> simp_all [Elector.IsSound, Elector.resume]
  | releasing s =>
      cases reply with
      | session t => simp_all [Elector.Expects, Elector.call?]
      | answer yes =>
          have hfree := hk.released s yes hp hr
          apply keeps_after <;> simp_all [Elector.IsSound, Elector.resume, Effect.parting?]
      | failed fault =>
          apply keeps_after <;> simp_all [Elector.IsSound, Elector.resume, Effect.parting?]

end Steps

namespace Contest

variable {w u : Contest} {a : Act} {i j : ContenderId} {c d : Contender} {s t : SessionId}

-- The lock is held once at most, by a session that has not ended and that nobody may use again.
structure Guarded (w : Contest) : Prop where
  single : w.depth ≤ 1
  free : w.holder? = none → w.depth = 0
  alive : ∀ s, w.holder? = some s → s ∈ w.alive ∧ s ∈ w.opened
  idle : ∀ s ∈ w.idle, w.holder? ≠ some s
  contenders : ∀ (i : ContenderId) (c : Contender), w.contenders[i]? = some c →
    c.Keeps w.holder?

theorem guarded_new (key : LockKey) : (new key).Guarded where
  single := Nat.zero_le 1
  free _ := rfl
  alive := by simp [new, holder?]
  idle := by simp [new]
  contenders := by simp [new]

theorem get_put (h : (w.put j d).contenders[i]? = some c) :
    i = j ∧ c = d ∨ i ≠ j ∧ w.contenders[i]? = some c := by
  by_cases hij : i = j
  · subst hij
    obtain ⟨x, hx⟩ := found_of_put h
    exact Or.inl ⟨rfl, Option.some.inj (h.symm.trans (put_self hx d))⟩
  · exact Or.inr ⟨hij, (put_other hij d).symm.trans h⟩

theorem Guarded.put (hg : w.Guarded) (hd : d.Keeps w.holder?) : (w.put j d).Guarded where
  single := hg.single
  free := hg.free
  alive := hg.alive
  idle := hg.idle
  contenders i c hc := by
    rcases get_put hc with ⟨-, rfl⟩ | ⟨-, hold⟩
    · exact hd
    · exact hg.contenders i c hold

-- A follower that is not in the middle of a step has no lock on its session.
theorem Guarded.follower (hg : w.Guarded) (hs : w.Pins i s) (hfollows : ¬w.Leads i)
    (hcall : w.call? i = none) : w.holder? ≠ some s := by
  obtain ⟨c, hc, hs⟩ := hs
  intro ho
  obtain ⟨-, hl | ⟨hp, -⟩⟩ := (hg.contenders i c hc).pinned s hs ho
  · exact hfollows ⟨c, hc, hl⟩
  · simp [call?, hc, Elector.call?, hp] at hcall

-- A session that is handed out does not hold the lock.
theorem Guarded.handOut (hg : w.Guarded) (h : w.handOut? s = some u) :
    u.Guarded ∧ u.holder? = w.holder? ∧ u.contenders = w.contenders ∧ w.holder? ≠ some s := by
  unfold handOut? at h
  split at h
  · rename_i hidle
    obtain rfl := Option.some.inj h
    have hrest : ∀ t ∈ w.idle.erase s, w.holder? ≠ some t := fun t ht =>
      hg.idle t (List.mem_of_mem_erase ht)
    exact ⟨⟨hg.single, hg.free, hg.alive, hrest, hg.contenders⟩, rfl, rfl, hg.idle s hidle⟩
  · split at h
    · cases h
    · rename_i hnew
      obtain rfl := Option.some.inj h
      have halive : ∀ t, w.holder? = some t → t ∈ s :: w.alive ∧ t ∈ s :: w.opened := fun t ht =>
        (hg.alive t ht).imp (List.mem_cons_of_mem s) (List.mem_cons_of_mem s)
      exact ⟨⟨hg.single, hg.free, halive, hg.idle, hg.contenders⟩, rfl, rfl,
        fun ho => hnew (hg.alive s ho).2⟩

theorem Guarded.start (hg : w.Guarded) (h : w.handOut? s = some u) :
    Guarded { u with contenders := u.contenders ++ [.new w.key s] } := by
  obtain ⟨hu, hholder, -, hs⟩ := hg.handOut h
  refine ⟨hu.single, hu.free, hu.alive, hu.idle, ?_⟩
  intro i c hc
  rw [List.getElem?_append] at hc
  split at hc
  · exact hu.contenders i c hc
  · obtain rfl := List.mem_singleton.mp (List.mem_of_getElem? hc)
    exact Contender.keeps_new w.key (hholder ▸ hs)

-- What a call of a contender does to the lock: only the contender's own session may get it, which
-- then takes it for the first time, and that the contender is told.
structure Serves (w : Contest) (c : Contender) (yes : Bool) (u : Contest) : Prop where
  single : u.depth ≤ 1
  free : u.holder? = none → u.depth = 0
  holder : ∀ s, u.holder? = some s → w.holder? = some s ∨ s ∈ c.sessions ∧ s ∈ w.alive
  keeps : ({ c with reply := some (.answer yes) } : Contender).Keeps u.holder?

theorem keeps_answer {holder : Option SessionId} {yes : Bool} (hgone : c.partings = [])
    (hpinned : ∀ s, c.elector.session = some s → holder = some s →
      c.elector.isLeader = true ∨ c.elector.phase = .trying s ∧ yes = true)
    (hreleased : ∀ s, c.elector.phase = .releasing s → holder ≠ some s) :
    ({ c with reply := some (.answer yes) } : Contender).Keeps holder where
  pinned s hs ho := by
    refine ⟨hs, (hpinned s hs ho).imp_right fun h => ⟨h.1, ?_⟩⟩
    rw [h.2]
  released s x hp _ := hreleased s hp
  parted p hp := by simp [hgone] at hp
  granted s hr := by simp at hr

theorem Guarded.serves_tryLock (hg : w.Guarded) (hw : w.Sound) (hc : w.contenders[i]? = some c)
    (hsettled : c.IsSettled) (hp : c.elector.phase = .trying t) {yes : Bool}
    (done : w.perform? (.tryLock t w.key) = some (yes, u)) : w.Serves c yes u := by
  have he := hw.elector_of hc
  simp only [Elector.IsSound, hp] at he
  -- the session has not been answered yet, so it does not hold the lock
  have hnot : w.holder? ≠ some t := fun ho => by
    simpa [he.1, hsettled.2] using ((hg.contenders i c hc).pinned t he.2 ho).2
  obtain ⟨hholder, hyes⟩ := tryLock_spec done
  have hsession := Contender.mem_sessions_of_session he.2
  simp only [perform?, Option.ite_none_right_eq_some, Option.some.injEq, Prod.mk.injEq] at done
  obtain ⟨halive, hanswer, rfl⟩ := done
  have hdepth : yes = true → w.depth = 0 := by
    intro h
    rw [hyes, hholder, Option.some.injEq] at h
    cases ho : w.holder? with
    | none => exact hg.free ho
    | some x =>
        rw [ho, Option.getD_some] at h
        exact absurd (h ▸ ho) hnot
  refine ⟨?_, ?_, ?_, keeps_answer hsettled.1 ?_ (by simp [hp])⟩
  · rw [hanswer]
    cases yes with
    | true => exact Nat.succ_le_succ (Nat.le_of_eq (hdepth rfl))
    | false => exact hg.single
  · intro hnone
    rw [hholder] at hnone
    cases hnone
  · intro s ho
    cases hw : w.holder? with
    | none =>
        rw [hholder, hw, Option.getD_none, Option.some.injEq] at ho
        exact Or.inr (ho ▸ ⟨hsession, halive⟩)
    | some x =>
        rw [hholder, hw, Option.getD_some] at ho
        exact Or.inl ho
  · intro s hs ho
    obtain rfl := Option.some.inj (he.2.symm.trans hs)
    exact Or.inr ⟨hp, hyes.mpr ho⟩

theorem Guarded.serves_holdsLock (hg : w.Guarded) (hw : w.Sound) (hc : w.contenders[i]? = some c)
    (hsettled : c.IsSettled) (hp : c.elector.phase = .verifying t) {yes : Bool}
    (done : w.perform? (.holdsLock t w.key) = some (yes, u)) : w.Serves c yes u := by
  obtain ⟨hl, -⟩ : c.elector.isLeader = true ∧ c.elector.session = some t := by
    simpa only [Elector.IsSound, hp] using hw.elector_of hc
  obtain ⟨rfl, -⟩ := holdsLock_spec done
  exact ⟨hg.single, hg.free, fun s ho => Or.inl ho,
    keeps_answer hsettled.1 (fun s hs ho => Or.inl hl) (by simp [hp])⟩

theorem Guarded.serves_unlock (hg : w.Guarded) (hw : w.Sound) (hc : w.contenders[i]? = some c)
    (hsettled : c.IsSettled) (hp : c.elector.phase = .releasing t) {yes : Bool}
    (done : w.perform? (.unlock t w.key) = some (yes, u)) : w.Serves c yes u := by
  have he := hw.elector_of hc
  simp only [Elector.IsSound, hp] at he
  simp only [perform?, Option.ite_none_right_eq_some, Option.some.injEq, Prod.mk.injEq] at done
  obtain ⟨-, -, rfl⟩ := done
  have hpinned : ∀ holder : Option SessionId, ∀ s, c.elector.session = some s → holder = some s →
      c.elector.isLeader = true ∨ c.elector.phase = .trying s ∧ yes = true := by simp [he.2]
  by_cases hheld : w.locks.isHeldBy w.key t = true
  · have hfree : (w.locks.release w.key t).holder? w.key = none := by
      rw [Locks.holder?_release, Locks.isHeldBy_iff.mp hheld]
      simp
    rw [hheld, Bool.not_true, if_neg Bool.false_ne_true, if_pos hg.single]
    refine ⟨Nat.zero_le 1, fun _ => rfl, ?_, keeps_answer hsettled.1 (hpinned _) ?_⟩
    · intro s ho
      cases hfree.symm.trans ho
    · intro s hs ho
      cases hfree.symm.trans ho
  · rw [Bool.not_eq_true] at hheld
    rw [hheld, Bool.not_false, if_pos rfl]
    refine ⟨hg.single, hg.free, fun s ho => Or.inl ho, keeps_answer hsettled.1 (hpinned _) ?_⟩
    intro s hs ho
    obtain rfl : t = s := by simpa [hp] using hs
    rw [Locks.isHeldBy_iff.mpr ho] at hheld
    cases hheld

theorem Guarded.serves (hg : w.Guarded) (hw : w.Sound) (hc : w.contenders[i]? = some c)
    (hsettled : c.IsSettled) {call : Call} (calls : c.elector.call? = some call) {yes : Bool}
    (done : w.perform? call = some (yes, u)) : w.Serves c yes u := by
  unfold Elector.call? at calls
  rw [hw.key_of hc] at calls
  cases hp : c.elector.phase with
  | idle | ended => simp [hp] at calls
  | acquiring =>
      obtain rfl : .acquire = call := by simpa [hp] using calls
      cases done
  | trying t =>
      obtain rfl : .tryLock t w.key = call := by simpa [hp] using calls
      exact hg.serves_tryLock hw hc hsettled hp done
  | verifying t =>
      obtain rfl : .holdsLock t w.key = call := by simpa [hp] using calls
      exact hg.serves_holdsLock hw hc hsettled hp done
  | releasing t =>
      obtain rfl : .unlock t w.key = call := by simpa [hp] using calls
      exact hg.serves_unlock hw hc hsettled hp done

theorem Sound.notMem_idle (hw : w.Sound) (hc : w.contenders[i]? = some c) (hs : s ∈ c.sessions) :
    s ∉ w.idle := by
  intro hm
  have hd := (List.nodup_append.mp (List.nodup_append.mp hw.apart).1).2.2
  exact hd s (List.mem_flatMap.mpr ⟨c, List.mem_of_getElem? hc, hs⟩) s hm rfl

theorem Guarded.answer (hg : w.Guarded) (hw : w.Sound) (hc : w.contenders[i]? = some c)
    (hsettled : c.IsSettled) {call : Call} (calls : c.elector.call? = some call) {yes : Bool}
    (done : w.perform? call = some (yes, u)) :
    (u.put i { c with reply := some (.answer yes) }).Guarded := by
  have hserves := hg.serves hw hc hsettled calls done
  obtain ⟨locks, depth, -, hu⟩ := perform?_eq hw.locks done
  have hopened : ∀ s ∈ c.sessions, s ∈ w.opened := fun s hs =>
    hw.opened s (Sound.mem_places hc hs)
  have halive : u.alive = w.alive ∧ u.opened = w.opened ∧ u.idle = w.idle ∧
      u.contenders = w.contenders := by simp [hu]
  obtain ⟨halive, hopen, hidle, hcontenders⟩ := halive
  refine ⟨hserves.single, hserves.free, ?_, ?_, ?_⟩
  · intro s ho
    show s ∈ u.alive ∧ s ∈ u.opened
    rw [halive, hopen]
    rcases hserves.holder s ho with hold | ⟨hs, hlive⟩
    · exact hg.alive s hold
    · exact ⟨hlive, hopened s hs⟩
  · intro s hs ho
    have hs : s ∈ w.idle := hidle ▸ hs
    rcases hserves.holder s ho with hold | ⟨hin, -⟩
    · exact hg.idle s hs hold
    · exact hw.notMem_idle hc hin hs
  · intro j x hx
    rcases get_put hx with ⟨-, rfl⟩ | ⟨hij, hx⟩
    · exact hserves.keeps
    · rw [hcontenders] at hx
      refine (hg.contenders j x hx).of_holder fun s hs ho => ?_
      exact (hserves.holder s ho).resolve_right fun hin => hij (hw.owner_unique hx hc hs hin.1)

theorem Guarded.part (hg : w.Guarded) (hc : w.contenders[i]? = some c) {p : Parting}
    {partings : List Parting} (hfirst : c.partings = p :: partings) (keeps : Bool) :
    ((w.put i { c with partings }).dispose p keeps).Guarded := by
  have hk := hg.contenders i c hc
  rcases hk with ⟨hpinned, hreleased, hparted, hgranted⟩
  rw [hfirst, List.forall_mem_cons] at hparted
  have hput : (w.put i { c with partings }).Guarded :=
    hg.put ⟨hpinned, hreleased, hparted.2, hgranted⟩
  unfold dispose
  split
  · rename_i hkept
    refine ⟨hput.single, hput.free, hput.alive, ?_, hput.contenders⟩
    intro s hs
    rcases List.mem_append.mp hs with hs | hs
    · exact hput.idle s hs
    · rw [List.mem_singleton.mp hs]
      exact hparted.1 (Bool.and_elim_left hkept)
  · exact ⟨hput.single, hput.free, hput.alive, hput.idle, hput.contenders⟩

theorem Guarded.finish (hg : w.Guarded) (hw : w.Sound) (t : SessionId) : (w.finish t).Guarded := by
  have hholder (s : SessionId) (ho : (w.finish t).holder? = some s) :
      w.holder? = some s ∧ s ≠ t := (finish_holder? hw t).mp ho
  refine ⟨?_, ?_, ?_, ?_, ?_⟩
  · show (if w.holder? = some t then 0 else w.depth) ≤ 1
    split
    · exact Nat.zero_le 1
    · exact hg.single
  · intro hnone
    show (if w.holder? = some t then 0 else w.depth) = 0
    split
    · rfl
    · rename_i hother
      cases ho : w.holder? with
      | none => exact hg.free ho
      | some s =>
          have hne : s ≠ t := by
            rintro rfl
            exact hother ho
          cases hnone.symm.trans ((finish_holder? hw t).mpr ⟨ho, hne⟩)
  · intro s ho
    obtain ⟨hold, hne⟩ := hholder s ho
    exact (hg.alive s hold).imp_left fun h => List.mem_filter.mpr ⟨h, by simpa using hne⟩
  · exact fun s hs ho => hg.idle s hs (hholder s ho).1
  · exact fun i c hc => (hg.contenders i c hc).of_holder fun s _ ho => (hholder s ho).1

theorem Guarded.yieldTo (hg : w.Guarded) (hw : w.Sound) {outsider : Option SessionId}
    (fresh : ∀ s ∈ outsider, s ∉ w.opened) : (w.yieldTo outsider).Guarded := by
  -- nobody in the contest has a session of the outsider
  have hother (s : SessionId) (hs : s ∈ w.opened) : (w.yieldTo outsider).holder? ≠ some s :=
    yieldTo_holder? fun hm => fresh s hm hs
  have hidle : ∀ s ∈ w.idle, (w.yieldTo outsider).holder? ≠ some s := fun s hs =>
    hother s (hw.opened s (by simp [places, hs]))
  have hcontenders : ∀ (i : ContenderId) (c : Contender), w.contenders[i]? = some c →
      c.Keeps (w.yieldTo outsider).holder? := fun i c hc =>
    (hg.contenders i c hc).of_holder fun s hs ho =>
      absurd ho (hother s (hw.opened s (Sound.mem_places hc hs)))
  cases outsider with
  | none =>
      have hnone : (w.yieldTo none).holder? = none := Locks.holder?_free _ _
      refine ⟨Nat.zero_le 1, fun _ => rfl, fun s ho => ?_, hidle, hcontenders⟩
      cases hnone.symm.trans ho
  | some t =>
      have hsome : (w.yieldTo (some t)).holder? = some t := Locks.holder?_give _ _ _
      refine ⟨Nat.le_refl 1, fun hn => ?_, fun s ho => ?_, hidle, hcontenders⟩
      · cases hsome.symm.trans hn
      · obtain rfl := Option.some.inj (hsome.symm.trans ho)
        exact ⟨List.mem_cons_self, List.mem_cons_self⟩

-- If it is a call that fails, it has had no effect.
def IsHeard : Act → Prop
  | .serve _ (.unheard _) => False
  | _ => True

theorem Guarded.next (hg : w.Guarded) (hw : w.Sound) (h : w.Next a u) (ha : IsHeard a) :
    u.Guarded := by
  cases h with
  | start grant => exact hg.start grant
  | @wake i c found settled idle cause notices =>
      have hk := hg.contenders _ _ found
      refine hg.put (Elector.wake_keeps ?_ ?_ cause)
      · intro s hs ho
        simpa [idle] using (hk.pinned s hs ho).2
      · intro s hclosed ho
        simp [isSeenClosed, (hg.alive s ho).1] at hclosed
  | @grant v i c found settled call s grant =>
      obtain ⟨hv, hholder, hcontenders, hs⟩ := hg.handOut grant
      have hk := hg.contenders i c found
      refine hv.put ⟨?_, by simp, ?_, ?_⟩
      · intro t ht ho
        rw [hholder] at ho
        obtain ⟨hsession, hl | ⟨-, hr⟩⟩ := hk.pinned t ht ho
        · exact ⟨hsession, Or.inl hl⟩
        · simp [settled.2] at hr
      · simp [settled.1]
      · rintro t hr
        obtain rfl : s = t := by simpa using hr
        rwa [hholder]
  | answer found settled calls done => exact hg.answer hw found settled calls done
  | unheard => exact ha.elim
  | @fail i c found settled call calls fault =>
      have hk := hg.contenders i c found
      refine hg.put ⟨?_, by simp, by simp [settled.1], by simp⟩
      intro t ht ho
      obtain ⟨hsession, hl | ⟨-, hr⟩⟩ := hk.pinned t ht ho
      · exact ⟨hsession, Or.inl hl⟩
      · simp [settled.2] at hr
  | @deliver i c found gone reply replied =>
      exact hg.put ((hg.contenders i c found).resume (hw.elector_of found) replied
        (hw.reply_of found replied))
  | part found first keeps => exact hg.part found first keeps
  | @read i c found =>
      obtain ⟨hpinned, hreleased, hparted, hgranted⟩ := hg.contenders i c found
      exact hg.put ⟨hpinned, hreleased, hparted, hgranted⟩
  | retire closed => exact hg.finish hw _
  | disconnect t => exact hg.finish hw t
  | usurp fresh => exact hg.yieldTo hw fresh

theorem Run.guarded {h : History} (hr : Run w h u) (hw : w.Sound) (hg : w.Guarded)
    (hh : ∀ x ∈ h, IsHeard x.2) : u.Guarded := by
  induction hr with
  | rest => exact hg
  | step before next ih =>
      obtain ⟨hlast, hbefore⟩ := List.forall_mem_cons.mp hh
      exact (ih hbefore).next (before.sound hw) next hlast

end Contest

end PolyCache.Leader
