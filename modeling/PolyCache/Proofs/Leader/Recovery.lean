import PolyCache.Proofs.Leader.Calm

-- A contender comes to lead once nothing goes wrong any more, whatever has happened before.
namespace PolyCache.Leader

-- Steps that a contender has before it, at most.
def Phase.work : Phase → Nat
  | .acquiring => 4
  | .verifying _ => 3
  | .trying _ => 2
  | .idle | .releasing _ | .ended => 0

def Contender.work (c : Contender) : Nat :=
  c.elector.phase.work + c.partings.length + (if c.reply = none then 1 else 0)

namespace Contest

variable {w u : Contest} {a : Act} {i : ContenderId} {c d : Contender} {s t : SessionId}
  {h g : History} {key : LockKey}

-- A contender that can go on on its own, as far as the server and its sessions are concerned.
structure Underway (w : Contest) (c : Contender) : Prop where
  runs : c.elector.phase ≠ .ended ∧ ∀ s, c.elector.phase ≠ .releasing s
  live : c.elector.phase ≠ .idle →
    ∀ s, c.elector.session = some s ∨ c.reply = some (.session s) → s ∈ w.alive
  heard : ∀ fault, c.reply ≠ some (.failed fault)
  refused : c.reply = some (.answer false) →
    ∀ s, c.elector.phase = .verifying s → w.holder? ≠ some s
  parted : ∀ p ∈ c.partings, w.holder? ≠ some p.session

-- The lock stays free for a contender that does not let go of the session with it.
theorem IsFreeFor.of_sessions (hfree : w.IsFreeFor i) (hc : w.contenders[i]? = some c)
    (hd : u.contenders[i]? = some d)
    (hholder : ∀ s, u.holder? = some s → w.holder? = some s ∨ s ∈ d.sessions)
    (hkept : ∀ s ∈ c.sessions, w.holder? = some s → s ∈ d.sessions) : u.IsFreeFor i := by
  intro s ho
  refine ⟨d, hd, ?_⟩
  rcases hholder s ho with hold | hs
  · obtain ⟨x, hx, hs⟩ := hfree s hold
    obtain rfl := Option.some.inj (hc.symm.trans hx)
    exact hkept s hs hold
  · exact hs

-- What a contender that goes on comes to.
structure Goes (w : Contest) (i : ContenderId) (c : Contender) (a : Act) (u : Contest) : Prop where
  next : w.Next a u
  spares : Spares i w a
  sleeps : a.waking? i = none
  free : u.IsFreeFor i
  there : ∃ d, u.contenders[i]? = some d ∧ Underway u d ∧ d.work < c.work

theorem spares_own {fate : Fate} (hu : ∀ fault, fate ≠ .unheard fault)
    (hf : ∀ fault, fate ≠ .failed fault) : Spares i w (.serve i fate) where
  unheard fault h := hu fault (by simpa using h)
  failed fault h := hf fault (by simpa using h)
  kept s := not_loses (by simp) (by simp)

theorem Underway.part (hd : Underway w c) (hc : w.contenders[i]? = some c)
    (hfree : w.IsFreeFor i) {p : Parting} {partings : List Parting}
    (first : c.partings = p :: partings) :
    Goes w i c (.part i false) ((w.put i { c with partings }).dispose p false) where
  next := .part hc first false
  spares := ⟨by simp, by simp, fun s => not_loses (by simp) (by simp)⟩
  sleeps := rfl
  free := by
    refine hfree.of_sessions hc (put_dispose hc _ _ _) ?_ ?_
    · intro s ho
      rw [holder?_dispose] at ho
      exact Or.inl ho
    · intro s hs ho
      have hne : s ≠ p.session := by
        rintro rfl
        exact hd.parted p (by simp [first]) ho
      simpa [Contender.sessions, first, hne] using hs
  there := by
    refine ⟨_, put_dispose hc _ _ _, ⟨hd.runs, ?_, hd.heard, ?_, ?_⟩, ?_⟩
    · rw [alive_dispose]
      exact hd.live
    · rw [holder?_dispose]
      exact hd.refused
    · intro q hq
      rw [holder?_dispose]
      exact hd.parted q (by rw [first]; exact List.mem_cons_of_mem _ hq)
    · simp [Contender.work, first]

-- An act that leaves the server alone and takes no session from the contender.
theorem Underway.deliver (hd : Underway w c) (hw : w.Sound) (hc : w.contenders[i]? = some c)
    (hfree : w.IsFreeFor i) (gone : c.partings = []) {reply : Reply}
    (replied : c.reply = some reply) :
    Goes w i c (.deliver i) (w.put i (.after (c.elector.resume reply))) where
  next := .deliver hc gone replied
  spares := ⟨by simp, by simp, fun s => not_loses (by simp) (by simp)⟩
  sleeps := rfl
  free := by
    have hst := Elector.resume_advances (hw.elector_of hc) (hw.reply_of hc replied)
    refine hfree.of_sessions hc (put_self hc _) (fun s ho => Or.inl ho) ?_
    intro s hs _
    rw [Contender.sessions_after]
    apply hst.sessions.mem_iff.mpr
    simpa [Contender.sessions, gone, replied] using hs
  there := by
    have he := hw.elector_of hc
    have hx := hw.reply_of hc replied
    refine ⟨_, put_self hc _, ?_⟩
    cases hp : c.elector.phase with
    | idle | ended => cases reply <;> simp [Elector.Expects, Elector.call?, hp] at hx
    | releasing s => exact absurd hp (hd.runs.2 s)
    | acquiring =>
        cases reply with
        | session t =>
            have halive : t ∈ w.alive := hd.live (by simp [hp]) t (Or.inr replied)
            constructor
            · constructor <;> simp [Contender.after, Elector.resume, hp]
              exact halive
            · simp [Contender.work, Contender.after, Elector.resume, Phase.work, hp, gone, replied]
        | answer yes => simp [Elector.Expects, Elector.call?, hp] at hx
        | failed fault => exact absurd replied (hd.heard fault)
    | trying s =>
        cases reply with
        | session t => simp [Elector.Expects, Elector.call?, hp] at hx
        | answer yes =>
            constructor
            · constructor <;> cases yes <;> simp [Contender.after, Elector.resume, hp]
            · cases yes <;>
                simp [Contender.work, Contender.after, Elector.resume, Phase.work, hp, gone,
                  replied]
        | failed fault => exact absurd replied (hd.heard fault)
    | verifying s =>
        simp only [Elector.IsSound, hp] at he
        cases reply with
        | session t => simp [Elector.Expects, Elector.call?, hp] at hx
        | answer yes =>
            cases yes with
            | true =>
                constructor
                · constructor <;> simp [Contender.after, Elector.resume, hp]
                · simp [Contender.work, Contender.after, Elector.resume, Phase.work, hp, gone,
                    replied]
            | false =>
                have hnot : w.holder? ≠ some s := hd.refused replied s hp
                constructor
                · constructor <;> simp [Contender.after, Elector.resume, hp, he.2]
                  exact hnot
                · simp [Contender.work, Contender.after, Elector.resume, Phase.work, hp, gone,
                    replied, he.2]
        | failed fault => exact absurd replied (hd.heard fault)

-- There is always a session that has not been there yet.
private theorem exists_fresh (opened : List SessionId) : ∃ t, t ∉ opened := by
  have hbound : ∃ bound, ∀ s ∈ opened, s < bound := by
    induction opened with
    | nil => exact ⟨0, by simp⟩
    | cons s opened ih =>
        obtain ⟨bound, hb⟩ := ih
        refine ⟨max (s + 1) bound, fun t ht => ?_⟩
        rcases List.mem_cons.mp ht with rfl | ht
        · exact Nat.lt_of_succ_le (Nat.le_max_left _ _)
        · exact Nat.lt_of_lt_of_le (hb t ht) (Nat.le_max_right _ _)
  obtain ⟨bound, hb⟩ := hbound
  exact ⟨bound, fun h => Nat.lt_irrefl _ (hb bound h)⟩

theorem Underway.grant (hd : Underway w c) (hw : w.Sound) (hc : w.contenders[i]? = some c)
    (hfree : w.IsFreeFor i) (hsettled : c.IsSettled) (hp : c.elector.phase = .acquiring) :
    ∃ a u, Goes w i c a u := by
  obtain ⟨t, ht⟩ := exists_fresh w.opened
  have hidle : t ∉ w.idle := fun hm => ht (hw.opened t (by simp [places, hm]))
  have hgrant : w.handOut? t = some { w with opened := t :: w.opened, alive := t :: w.alive } := by
    rw [handOut?, if_neg hidle, if_neg ht]
  have hcall : c.elector.call? = some .acquire := by simp [Elector.call?, hp]
  have he := hw.elector_of hc
  simp only [Elector.IsSound, hp] at he
  refine ⟨_, _, .grant hc hsettled hcall hgrant, spares_own (by simp) (by simp), rfl, ?_, _,
    put_self hc _, ?_, ?_⟩
  · refine hfree.of_sessions hc (put_self hc _) (fun s ho => Or.inl ho) ?_
    intro s hs _
    simp only [Contender.sessions, List.mem_append] at hs ⊢
    exact hs.imp_right fun hm => by simp [hsettled.2] at hm
  · constructor
    · exact hd.runs
    · rintro - s (hs | hs)
      · rw [he.2] at hs
        cases hs
      · obtain rfl : t = s := by simpa using hs
        exact List.mem_cons_self
    · simp
    · simp
    · simp [hsettled.1]
  · simp [Contender.work, hsettled.2]

theorem Underway.tryLock (hd : Underway w c) (hw : w.Sound) (hc : w.contenders[i]? = some c)
    (hfree : w.IsFreeFor i) (hsettled : c.IsSettled) (hp : c.elector.phase = .trying s) :
    ∃ a u, Goes w i c a u := by
  have he := hw.elector_of hc
  simp only [Elector.IsSound, hp] at he
  have halive : s ∈ w.alive := hd.live (by simp [hp]) s (Or.inl he.2)
  have hcall : c.elector.call? = some (.tryLock s w.key) := by
    simp [Elector.call?, hp, hw.key_of hc]
  obtain ⟨yes, v, done⟩ : ∃ yes v, w.perform? (.tryLock s w.key) = some (yes, v) := by
    rw [perform?, if_pos halive]
    exact ⟨_, _, rfl⟩
  have hholder := (tryLock_spec done).1
  have hlive := (hw.perform_alive hc hcall done).1
  obtain ⟨locks, depth, -, rfl⟩ := perform?_eq hw.locks done
  refine ⟨_, _, .answer hc hsettled hcall done, spares_own (by simp) (by simp), rfl, ?_, _,
    put_self hc _, ?_, ?_⟩
  · refine hfree.of_sessions hc (put_self hc _) ?_ ?_
    · intro t ht
      replace ht : some (w.holder?.getD s) = some t := hholder.symm.trans ht
      cases ho : w.holder? with
      | none =>
          rw [ho] at ht
          obtain rfl := Option.some.inj ht
          exact Or.inr (Contender.mem_sessions_of_session he.2)
      | some x =>
          rw [ho] at ht
          exact Or.inl ht
    · intro t ht _
      simpa [Contender.sessions, hsettled.2, Reply.granted?] using ht
  · constructor
    · exact hd.runs
    · rintro - t (ht | ht)
      · exact hd.live (by simp [hp]) t (Or.inl ht)
      · simp at ht
    · simp
    · intro _ t ht
      cases hp.symm.trans ht
    · simp [hsettled.1]
  · simp [Contender.work, hsettled.2]

theorem Underway.holdsLock (hd : Underway w c) (hw : w.Sound) (hc : w.contenders[i]? = some c)
    (hfree : w.IsFreeFor i) (hsettled : c.IsSettled) (hp : c.elector.phase = .verifying s) :
    ∃ a u, Goes w i c a u := by
  have he := hw.elector_of hc
  simp only [Elector.IsSound, hp] at he
  have halive : s ∈ w.alive := hd.live (by simp [hp]) s (Or.inl he.2)
  have hcall : c.elector.call? = some (.holdsLock s w.key) := by
    simp [Elector.call?, hp, hw.key_of hc]
  obtain ⟨yes, v, done⟩ : ∃ yes v, w.perform? (.holdsLock s w.key) = some (yes, v) := by
    rw [perform?, if_pos halive]
    exact ⟨_, _, rfl⟩
  obtain ⟨rfl, hyes⟩ := holdsLock_spec done
  refine ⟨_, _, .answer hc hsettled hcall done, spares_own (by simp) (by simp), rfl, ?_, _,
    put_self hc _, ?_, ?_⟩
  · refine hfree.of_sessions hc (put_self hc _) (fun t ht => Or.inl ht) ?_
    intro t ht _
    simpa [Contender.sessions, hsettled.2, Reply.granted?] using ht
  · constructor
    · exact hd.runs
    · rintro - t (ht | ht)
      · exact hd.live (by simp [hp]) t (Or.inl ht)
      · simp at ht
    · simp
    · intro hr t ht ho
      obtain rfl : s = t := by simpa using hp.symm.trans ht
      obtain rfl : yes = false := by simpa using hr
      cases hyes.mpr ho
    · simp [hsettled.1]
  · simp [Contender.work, hsettled.2]

-- Whatever a contender is about, there is an act with which it goes on.
theorem Underway.goes (hd : Underway w c) (hw : w.Sound) (hc : w.contenders[i]? = some c)
    (hfree : w.IsFreeFor i) (hrest : ¬w.AtRest i) : ∃ a u, Goes w i c a u := by
  cases hpartings : c.partings with
  | cons p partings => exact ⟨_, _, hd.part hc hfree hpartings⟩
  | nil =>
      cases hreply : c.reply with
      | some reply => exact ⟨_, _, hd.deliver hw hc hfree hpartings hreply⟩
      | none =>
          have hsettled : c.IsSettled := ⟨hpartings, hreply⟩
          cases hp : c.elector.phase with
          | idle => exact absurd ⟨c, hc, hsettled, hp⟩ hrest
          | acquiring => exact hd.grant hw hc hfree hsettled hp
          | trying s => exact hd.tryLock hw hc hfree hsettled hp
          | verifying s => exact hd.holdsLock hw hc hfree hsettled hp
          | releasing s => exact absurd hp (hd.runs.2 s)
          | ended => exact absurd hp hd.runs.1

theorem IsCalm.append {v : Contest} (hh : IsCalm i h v) (hg : IsCalm i g u) :
    IsCalm i (g ++ h) u where
  acts x hx := (List.mem_append.mp hx).elim (hg.acts x) (hh.acts x)
  free x hx := by
    simp only [states, List.map_append, List.mem_cons, List.mem_append] at hx
    rcases hx with rfl | hx | hx
    · exact hg.free x List.mem_cons_self
    · exact hg.free x (List.mem_cons_of_mem _ hx)
    · exact hh.free x (List.mem_cons_of_mem _ hx)

theorem wakings_append (g h : History) : wakings i (g ++ h) = wakings i g ++ wakings i h :=
  List.filterMap_append

theorem isCalm_step (ha : Spares i w a) (hw : w.IsFreeFor i) (hu : u.IsFreeFor i) :
    IsCalm i [(w, a)] u where
  acts := by simpa using ha
  free := by
    simp only [states, List.map_cons, List.map_nil, List.mem_cons, List.not_mem_nil, or_false]
    rintro v (rfl | rfl)
    · exact hu
    · exact hw

-- A contender comes to rest, with nothing but its own acts.
theorem Underway.rests {n : Nat} (hn : c.work < n) (hd : Underway w c) (hw : w.Sound)
    (hc : w.contenders[i]? = some c) (hfree : w.IsFreeFor i) :
    ∃ h u, Run w h u ∧ IsCalm i h u ∧ wakings i h = [] ∧ u.AtRest i := by
  induction n generalizing w c with
  | zero => cases hn
  | succ n ih =>
      by_cases hrest : w.AtRest i
      · exact ⟨[], w, .rest, ⟨by simp, by simpa [states] using hfree⟩, rfl, hrest⟩
      · obtain ⟨a, v, hgoes⟩ := hd.goes hw hc hfree hrest
        obtain ⟨d, hdv, hunder, hless⟩ := hgoes.there
        obtain ⟨h, u, hrun, hcalm, hsleeps, hu⟩ :=
          ih (by omega) hunder (hw.next hgoes.next) hdv hgoes.free
        refine ⟨h ++ [(w, a)], u, (Run.rest.step hgoes.next).append hrun,
          (isCalm_step hgoes.spares hfree hgoes.free).append hcalm, ?_, hu⟩
        rw [wakings_append, hsleeps, wakings_cons, hgoes.sleeps]
        rfl

-- A contender that is woken sees whether its session is closed, and what it goes on with is open.
theorem underway_wake (hw : w.Sound) (hlive : ∀ s, w.holder? = some s → s ∈ w.alive)
    (hc : w.contenders[i]? = some c) (idle : c.elector.phase = .idle) {cause : Wake}
    (hcause : cause ≠ .stop) :
    Underway (w.put i (.after (c.elector.wake (w.isSeenClosed true) cause)))
      (.after (c.elector.wake (w.isSeenClosed true) cause)) := by
  have hclosed {s : SessionId} (hs : w.isSeenClosed true s = true) : w.holder? ≠ some s := by
    intro ho
    simp [isSeenClosed, hlive s ho] at hs
  have hopen {s : SessionId} (hs : ¬w.isSeenClosed true s = true) : s ∈ w.alive := by
    simpa [isSeenClosed] using hs
  cases cause with
  | check =>
      by_cases hl : c.elector.isLeader = true
      · constructor <;> simp [Contender.after, Elector.wake, Elector.check, hl, idle]
      · cases hs : c.elector.session with
        | none => constructor <;> simp [Contender.after, Elector.wake, Elector.check, hl, hs]
        | some s =>
            by_cases hseen : w.isSeenClosed true s = true
            · constructor <;>
                simp [Contender.after, Elector.wake, Elector.check, hl, hs, hseen, Effect.parting?]
              exact hclosed hseen
            · constructor <;>
                simp [Contender.after, Elector.wake, Elector.check, hl, hs, hseen]
              exact hopen hseen
  | heartbeat =>
      by_cases hl : c.elector.isLeader = true
      · obtain ⟨s, hs⟩ := (hw.elector_of hc).session_of_isLeader hl
        by_cases hseen : w.isSeenClosed true s = true
        · constructor <;>
            simp [Contender.after, Elector.wake, Elector.heartbeat, hl, hs, hseen, idle]
          exact hclosed hseen
        · constructor <;>
            simp [Contender.after, Elector.wake, Elector.heartbeat, hl, hs, hseen]
          exact hopen hseen
      · constructor <;> simp [Contender.after, Elector.wake, Elector.heartbeat, hl, idle]
  | stop => exact absurd rfl hcause

-- A step can be made from beginning to end if nothing goes wrong.
theorem exists_step (hr : Run (new key) g w) (hrest : w.AtRest i) (hfree : w.IsFreeFor i)
    {cause : Wake} (hcause : cause ≠ .stop) :
    ∃ h u, Run w h u ∧ IsCalm i h u ∧ wakings i h = [cause] ∧ u.AtRest i := by
  have hw := hr.sound (sound_new key)
  obtain ⟨c, hc, hsettled, idle⟩ := hrest
  have next := Next.wake hc hsettled idle cause true
  have hv : IsFreeFor i (w.put i (.after (c.elector.wake (w.isSeenClosed true) cause))) := by
    have hst := Elector.wake_advances (hw.elector_of hc) idle (w.isSeenClosed true) cause
    refine hfree.of_sessions hc (put_self hc _) (fun s ho => Or.inl ho) ?_
    intro s hs _
    rw [Contender.sessions_after]
    apply hst.sessions.mem_iff.mpr
    simpa [Contender.sessions, hsettled.1, hsettled.2] using hs
  have hspares : Spares i w (.wake i cause true) :=
    ⟨by simp, by simp, fun s => not_loses (by simp) (by simp)⟩
  obtain ⟨h, u, hrun, hcalm, hsleeps, hu⟩ :=
    (underway_wake hw hr.holder_alive hc idle hcause).rests (Nat.lt_succ_self _) (hw.next next)
      (put_self hc _) hv
  refine ⟨h ++ [(w, .wake i cause true)], u, (Run.rest.step next).append hrun,
    (isCalm_step hspares hfree hv).append hcalm, ?_, hu⟩
  rw [wakings_append, hsleeps, wakings_cons]
  simp [Act.waking?, wakings]

theorem exists_steps (hr : Run (new key) g w) (hrest : w.AtRest i) (hfree : w.IsFreeFor i)
    (causes : List Wake) (hcauses : .stop ∉ causes) :
    ∃ h u, Run w h u ∧ IsCalm i h u ∧ wakings i h = causes ∧ u.AtRest i := by
  induction causes with
  | nil => exact ⟨[], w, .rest, ⟨by simp, by simpa [states] using hfree⟩, rfl, hrest⟩
  | cons cause causes ih =>
      rw [List.mem_cons, not_or] at hcauses
      obtain ⟨h, v, hrun, hcalm, hwakings, hv⟩ := ih hcauses.2
      obtain ⟨h', u, hrun', hcalm', hwakings', hu⟩ :=
        exists_step (hr.append hrun) hv (hcalm.free v List.mem_cons_self) (Ne.symm hcauses.1)
      refine ⟨h' ++ h, u, hrun.append hrun', hcalm.append hcalm', ?_, hu⟩
      rw [wakings_append, hwakings', hwakings]
      rfl

-- Another contender has the lock, or an outsider.
def IsElsewhere (i : ContenderId) (w : Contest) : Prop :=
  ∃ s, w.holder? = some s ∧
    (s ∉ w.places ∨ ∃ j c, j ≠ i ∧ w.contenders[j]? = some c ∧ s ∈ c.sessions)

-- On a server that ends a session when it is discarded, only sessions in use hold locks.
theorem isFreeFor_iff (hr : PromptRun (new key) g w) : w.IsFreeFor i ↔ ¬w.IsElsewhere i := by
  have hw := hr.run.sound (sound_new key)
  have hg := hr.run.guarded (sound_new key) (guarded_new key) hr.heard
  have hended := hr.ended fun s hs => by cases hs.1
  constructor
  · rintro hfree ⟨s, ho, hnowhere | ⟨j, d, hj, hd, hds⟩⟩
    · obtain ⟨c, hc, hs⟩ := hfree s ho
      exact hnowhere (Sound.mem_places hc hs)
    · obtain ⟨c, hc, hs⟩ := hfree s ho
      exact hj (hw.owner_unique hd hc hds hs)
  · intro helsewhere s ho
    by_contra hnot
    have hplace : s ∈ w.places := by
      by_contra hnowhere
      exact helsewhere ⟨s, ho, Or.inl hnowhere⟩
    simp only [places, List.mem_append, List.mem_flatMap] at hplace
    rcases hplace with (⟨d, hd, hs⟩ | hidle) | hclosing
    · obtain ⟨j, hj⟩ := List.mem_iff_getElem?.mp hd
      refine helsewhere ⟨s, ho, Or.inr ⟨j, d, ?_, hj, hs⟩⟩
      rintro rfl
      exact hnot ⟨d, hj, hs⟩
    · exact hg.idle s hidle ho
    · exact hended s ⟨hclosing, (hg.alive s ho).1⟩

-- From each state that a contender may have come to, a heartbeat and then a check make it leader
-- with an open session that holds the lock, if nothing goes wrong during them and nobody else has
-- the lock; a follower between two steps needs the check only. From a state between two steps such
-- steps can be made, in any order. A session that the contender has discarded is not in its way,
-- if the server ends such sessions at once.
theorem leads_after_heartbeat_and_check (hr : Run (new key) g w) (i : ContenderId) :
    (∀ h u, Run w h u → IsCalm i h u → .stop ∉ wakings i h → u.AtRest i →
      [.check, .heartbeat].Sublist (wakings i h) → u.HoldsOffice i) ∧
    (w.AtRest i → ¬w.Leads i → ∀ h u, Run w h u → IsCalm i h u → .stop ∉ wakings i h →
      u.AtRest i → .check ∈ wakings i h → u.HoldsOffice i) ∧
    (w.AtRest i → w.IsFreeFor i → ∀ causes : List Wake, .stop ∉ causes →
      ∃ h u, Run w h u ∧ IsCalm i h u ∧ wakings i h = causes ∧ u.AtRest i) ∧
    (PromptRun (new key) g w → (w.IsFreeFor i ↔ ¬w.IsElsewhere i)) := by
  have hoffice {h : History} {u : Contest} (hrun : Run w h u) (hrest : u.AtRest i)
      (hrising : ∃ c, u.contenders[i]? = some c ∧ Rising u c) : u.HoldsOffice i := by
    obtain ⟨c, hc, hrising⟩ := hrising
    obtain ⟨d, hd, -, idle⟩ := hrest
    obtain rfl := Option.some.inj (hc.symm.trans hd)
    exact hrising.holdsOffice hc idle (hr.append hrun).holder_alive
  refine ⟨?_, ?_, fun hrest hfree => exists_steps hr hrest hfree, isFreeFor_iff⟩
  · intro h u hrun hcalm hstop hrest hwakings
    exact hoffice hrun hrest (hr.rising hrun hcalm hstop (Or.inr hwakings))
  · intro hrest hfollows h u hrun hcalm hstop hu hcheck
    obtain ⟨c, hc, -, idle⟩ := hrest
    have hsettling : Settling w c := by
      refine .follower ?_ idle
      cases hl : c.elector.isLeader with
      | false => rfl
      | true => exact absurd ⟨c, hc, hl⟩ hfollows
    exact hoffice hrun hu (hr.rising hrun hcalm hstop (Or.inl ⟨⟨c, hc, hsettling⟩, hcheck⟩))

-- A leader whose session has ended without its noticing, and a follower that was refused a
-- new session after its own had ended: the former leads again after a heartbeat and a check,
-- the latter after a check.
theorem lost_sessions_are_replaced :
    (∃ g w, Run (new 7) g w ∧ w.Leads 0 ∧ w.Pins 0 1 ∧ 1 ∉ w.alive ∧
      ∃ h u, Run w h u ∧ IsCalm 0 h u ∧ wakings 0 h = [.check, .heartbeat] ∧ u.HoldsOffice 0) ∧
    (∃ g w, Run (new 7) g w ∧ ¬w.Leads 0 ∧ (∀ s, ¬w.Pins 0 s) ∧
      ∃ h u, Run w h u ∧ IsCalm 0 h u ∧ wakings 0 h = [.check] ∧ u.HoldsOffice 0) := by
  have hstart := (Run.rest : Run (new 7) [] _).step (.start (s := 1) rfl)
  constructor
  · have hled := hstart.step (.wake (i := 0) rfl ⟨rfl, rfl⟩ rfl .check false)
      |>.step (.answer (i := 0) rfl ⟨rfl, rfl⟩ rfl rfl) |>.step (.deliver (i := 0) rfl rfl rfl)
      |>.step (.disconnect 1)
    obtain ⟨hoffice, -, hsteps, -⟩ := leads_after_heartbeat_and_check hled 0
    obtain ⟨h, u, hrun, hcalm, hwakings, hrest⟩ :=
      hsteps ⟨_, rfl, ⟨rfl, rfl⟩, rfl⟩ (by rintro s ⟨⟩) [.check, .heartbeat] (by decide)
    refine ⟨_, _, hled, ⟨_, rfl, rfl⟩, ⟨_, rfl, rfl⟩, by decide, h, u, hrun, hcalm, hwakings, ?_⟩
    exact hoffice h u hrun hcalm (by rw [hwakings]; decide) hrest (by rw [hwakings])
  · -- the state is named by what counts of it
    obtain ⟨g, w, c, hlost, hc, hsettled, hidle, hfollows, hnone, hfree⟩ :
        ∃ g w c, Run (new 7) g w ∧ w.contenders[0]? = some c ∧ c.IsSettled ∧
          c.elector.phase = .idle ∧ c.elector.isLeader = false ∧ c.elector.session = none ∧
          w.holder? = none :=
      ⟨_, _, _, hstart.step (.disconnect 1)
        |>.step (.wake (i := 0) rfl ⟨rfl, rfl⟩ rfl .check true)
        |>.step (.part (i := 0) rfl rfl true)
        |>.step (.fail (i := 0) rfl ⟨rfl, rfl⟩ rfl .poolExhausted)
        |>.step (.deliver (i := 0) rfl rfl rfl), rfl, ⟨rfl, rfl⟩, rfl, rfl, rfl, rfl⟩
    have hl : ¬w.Leads 0 := by
      rintro ⟨d, hd, hl⟩
      obtain rfl := Option.some.inj (hc.symm.trans hd)
      exact absurd hl (by simp [hfollows])
    have hp (s : SessionId) : ¬w.Pins 0 s := by
      rintro ⟨d, hd, hs⟩
      obtain rfl := Option.some.inj (hc.symm.trans hd)
      exact absurd hs (by simp [hnone])
    have hrest : w.AtRest 0 := ⟨c, hc, hsettled, hidle⟩
    obtain ⟨-, hcheck, hsteps, -⟩ := leads_after_heartbeat_and_check hlost 0
    obtain ⟨h, u, hrun, hcalm, hwakings, hu⟩ :=
      hsteps hrest (fun s ho => absurd ho (by simp [hfree])) [.check] (by decide)
    refine ⟨g, w, hlost, hl, hp, h, u, hrun, hcalm, hwakings, ?_⟩
    exact hcheck hrest hl h u hrun hcalm (by rw [hwakings]; decide) hu (by simp [hwakings])

end Contest

end PolyCache.Leader
