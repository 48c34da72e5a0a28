import PolyCache.Proofs.Leader.Calm

-- Sessions are obtained and given up one at a time. What a contender has obtained in a run is what
-- it has given up, in the same order, and the one session that it may still own.
namespace PolyCache.Leader

-- Only a follower that checks asks for a session, if it has none or sees that its own is closed.
theorem Elector.wake_acquiring {e : Elector} {isClosed : SessionId → Bool} {cause : Wake}
    (idle : e.phase = .idle) (hp : (e.wake isClosed cause).elector.phase = .acquiring) :
    cause = .check ∧ e.isLeader = false ∧ ∀ s, e.session = some s → isClosed s = true := by
  cases cause with
  | check =>
      by_cases hl : e.isLeader = true
      · simp [wake, check, hl, idle] at hp
      · refine ⟨rfl, by simpa using hl, fun s hs => ?_⟩
        by_contra hopen
        simp [wake, check, hl, hs, hopen] at hp
  | heartbeat =>
      exfalso
      unfold wake heartbeat at hp
      by_cases hl : e.isLeader = true
      · cases hs : e.session with
        | none => simp [hl, hs, idle] at hp
        | some s => by_cases hclosed : isClosed s = true <;> simp [hl, hs, hclosed, idle] at hp
      · simp [hl, idle] at hp
  | stop =>
      exfalso
      unfold wake stop at hp
      cases hs : e.session with
      | none => simp [hs] at hp
      | some s => by_cases hl : e.isLeader = true <;> simp [hs, hl] at hp

theorem Elector.resume_acquiring {e : Elector} {reply : Reply} (hx : e.Expects reply) :
    (e.resume reply).elector.phase ≠ .acquiring := by
  intro hp
  obtain h | h | ⟨t, h⟩ := resume_phase hx <;> cases h.symm.trans hp

namespace Contest

variable {w u : Contest} {a : Act} {i : ContenderId} {c d : Contender} {s : SessionId}
  {h g : History} {key : LockKey}

-- The sessions that a contender has, is about to learn of, or has yet to part with.
def owned (i : ContenderId) (w : Contest) : List SessionId :=
  w.contenders[i]?.elim [] Contender.sessions

-- The session that an act brings a contender.
def intake (i : ContenderId) (w : Contest) : Act → List SessionId
  | .start s => if w.contenders.length = i then [s] else []
  | .serve j (.granted s) => if j = i then [s] else []
  | _ => []

-- The session that an act takes from a contender.
def outgo (i : ContenderId) (w : Contest) : Act → List SessionId
  | .part j _ =>
    if j = i then
      w.contenders[i]?.elim [] fun c => (c.partings.map (·.session)).take 1
    else []
  | _ => []

-- All sessions that a contender has come by in a run, and all that it has given up, the first ones
-- first.
def obtained (i : ContenderId) (h : History) : List SessionId :=
  h.reverse.flatMap fun x => intake i x.1 x.2

def givenUp (i : ContenderId) (h : History) : List SessionId :=
  h.reverse.flatMap fun x => outgo i x.1 x.2

-- The contender's request for a session is with the server.
def Waits (i : ContenderId) (w : Contest) : Prop :=
  ∃ c, w.contenders[i]? = some c ∧ c.IsSettled ∧ c.elector.call? = some .acquire

-- All sessions that contenders own.
def inUse (w : Contest) : List SessionId := w.contenders.flatMap Contender.sessions

theorem owned_of (hc : w.contenders[i]? = some c) : w.owned i = c.sessions := by
  rw [owned, hc]
  rfl

theorem owned_none (hc : w.contenders[i]? = none) : w.owned i = [] := by
  rw [owned, hc]
  rfl

-- Up to order, one session is one session.
private theorem eq_of_perm {l m : List SessionId} (hone : m.length ≤ 1) (hp : l.Perm m) :
    l = m := by
  match m with
  | [] => exact hp.eq_nil
  | [s] => exact List.perm_singleton.mp hp
  | s :: t :: m => simp at hone

theorem sessions_waiting (hw : w.Sound) (hc : w.contenders[i]? = some c) (hsettled : c.IsSettled)
    (call : c.elector.call? = some .acquire) : c.sessions = [] := by
  have he := hw.elector_of hc
  have hp := Elector.phase_of_acquire call
  simp only [Elector.IsSound, hp] at he
  simp [Contender.sessions, Elector.sessions, hsettled.1, hsettled.2, hp, he.2, Phase.released?]

theorem outgo_part (hc : w.contenders[i]? = some c) {p : Parting} {partings : List Parting}
    (first : c.partings = p :: partings) {keeps : Bool} :
    outgo i w (.part i keeps) = [p.session] := by
  rw [outgo, if_pos rfl, hc]
  simp [first]

-- An act of a contender's own takes no session but one that the contender parts with, and brings
-- none but one that it waits for.
theorem Does.owned (hact : w.Does i c a u) (hw : w.Sound) (hc : w.contenders[i]? = some c)
    (hone : c.sessions.length ≤ 1) :
    ∃ d, u.contenders[i]? = some d ∧ c.sessions ++ intake i w a = outgo i w a ++ d.sessions ∧
      d.sessions.length ≤ 1 := by
  have hsame {d : Contender} (hp : d.sessions.Perm c.sessions) :
      c.sessions ++ [] = [] ++ d.sessions ∧ d.sessions.length ≤ 1 := by
    obtain heq := eq_of_perm hone hp
    exact ⟨by rw [heq, List.append_nil, List.nil_append], heq ▸ hone⟩
  have hsilent {reply : Reply} (hsettled : c.IsSettled) (hgranted : reply.granted? = none) :
      ({ c with reply := some reply } : Contender).sessions.Perm c.sessions := by
    simp [Contender.sessions, hsettled.2, hgranted]
  cases hact with
  | wake settled idle cause notices =>
      have hst := Elector.wake_advances (hw.elector_of hc) idle (w.isSeenClosed notices) cause
      refine ⟨_, put_self hc _, hsame ?_⟩
      rw [Contender.sessions_after]
      simpa [Contender.sessions, settled.1, settled.2] using hst.sessions
  | @grant v s settled call grant =>
      obtain ⟨idle, opened, alive, rfl, -, -, -⟩ := handOut?_eq hw grant
      have hnone := sessions_waiting hw hc settled call
      have hd : ({ c with reply := some (.session s) } : Contender).sessions = [s] := by
        have hbefore : c.elector.sessions = [] := (List.append_eq_nil_iff.mp
          (List.append_eq_nil_iff.mp hnone).1).1
        simp [Contender.sessions, hbefore, settled.1, Reply.granted?]
      refine ⟨_, put_self hc _, ?_, ?_⟩
      · rw [hnone, hd, intake, if_pos rfl]
        rfl
      · rw [hd]
        exact Nat.le_refl 1
  | answer settled calls done =>
      obtain ⟨locks, depth, -, rfl⟩ := perform?_eq hw.locks done
      exact ⟨_, put_self hc _, hsame (hsilent settled rfl)⟩
  | unheard settled calls done fault =>
      obtain ⟨locks, depth, -, rfl⟩ := perform?_eq hw.locks done
      exact ⟨_, put_self hc _, hsame (hsilent settled rfl)⟩
  | fail settled calls fault => exact ⟨_, put_self hc _, hsame (hsilent settled rfl)⟩
  | @deliver reply gone replied =>
      have hst := Elector.resume_advances (hw.elector_of hc) (hw.reply_of hc replied)
      refine ⟨_, put_self hc _, hsame ?_⟩
      rw [Contender.sessions_after]
      simpa [Contender.sessions, gone, replied] using hst.sessions
  | @part p partings first keeps =>
      have hp : c.sessions.Perm (p.session :: ({ c with partings } : Contender).sessions) := by
        simp only [Contender.sessions, first, List.map_cons, List.append_assoc, List.cons_append]
        exact List.perm_middle
      have hlength := hp.length_eq
      rw [List.length_cons] at hlength
      have heq := eq_of_perm (by rw [List.length_cons]; omega) hp
      refine ⟨_, put_dispose hc _ _ keeps, ?_, by omega⟩
      rw [outgo_part hc first, heq]
      exact List.append_nil _
  | read => exact ⟨_, put_self hc _, hsame (List.Perm.refl _)⟩

theorem intake_other (hi : a.contender? ≠ some i)
    (hstart : ∀ s, a = .start s → w.contenders.length ≠ i) : intake i w a = [] := by
  unfold intake
  split
  · exact if_neg (hstart _ rfl)
  · exact if_neg fun hj => hi (congrArg some hj)
  · rfl

theorem outgo_other (hi : a.contender? ≠ some i) : outgo i w a = [] := by
  unfold outgo
  split
  · exact if_neg fun hj => hi (congrArg some hj)
  · rfl

theorem Next.acts (h : w.Next a u) (hi : a.contender? = some i) :
    ∃ c, w.contenders[i]? = some c := by
  cases h with
  | start | retire | disconnect | usurp => cases hi
  | wake found | grant found | answer found | unheard found | fail found | deliver found
  | part found | read found => exact ⟨_, Option.some.inj hi ▸ found⟩

theorem Next.starts (hw : w.Sound) (h : w.Next (.start s) u) :
    u.contenders[w.contenders.length]? = some (.new w.key s) := by
  cases h with
  | start grant =>
      obtain ⟨idle, opened, alive, rfl, -, -, -⟩ := handOut?_eq hw grant
      exact List.getElem?_concat_length

-- The books of a contender are kept by each act, its own and those of others.
theorem Next.owned (hw : w.Sound) (h : w.Next a u) (hone : (w.owned i).length ≤ 1) :
    w.owned i ++ intake i w a = outgo i w a ++ u.owned i ∧ (u.owned i).length ≤ 1 := by
  have hkept (hother : a.contender? ≠ some i) (hstart : ∀ s, a = .start s → w.contenders.length ≠ i)
      (heq : u.owned i = w.owned i) :
      w.owned i ++ intake i w a = outgo i w a ++ u.owned i ∧ (u.owned i).length ≤ 1 := by
    rw [intake_other hother hstart, outgo_other hother, heq, List.append_nil, List.nil_append]
    exact ⟨rfl, hone⟩
  cases hc : w.contenders[i]? with
  | some c =>
      obtain ⟨hlength, -⟩ := List.getElem?_eq_some_iff.mp hc
      by_cases hi : a.contender? = some i
      · rw [owned_of hc] at hone ⊢
        obtain ⟨d, hd, heq, hlength⟩ := (h.does hc hi).owned hw hc hone
        rw [owned_of hd]
        exact ⟨heq, hlength⟩
      · refine hkept hi (fun _ _ => Nat.ne_of_gt hlength) ?_
        rw [owned_of hc, owned_of (h.same hw hc hi)]
  | none =>
      have hother : a.contender? ≠ some i := fun hi => by
        obtain ⟨c, hsome⟩ := h.acts hi
        cases hc.symm.trans hsome
      by_cases hstart : ∃ s, a = .start s ∧ w.contenders.length = i
      · obtain ⟨s, rfl, rfl⟩ := hstart
        rw [owned_none hc, owned_of (h.starts hw), outgo_other hother, intake, if_pos rfl]
        exact ⟨rfl, Nat.le_refl 1⟩
      · refine hkept hother (fun s ha hlength => hstart ⟨s, ha, hlength⟩) ?_
        rw [owned_none hc]
        cases hd : u.contenders[i]? with
        | none => exact owned_none hd
        | some d =>
            obtain ⟨c, hsome⟩ | ⟨s, ha, hlength, -⟩ := h.found hw hd
            · cases hc.symm.trans hsome
            · exact absurd ⟨s, ha, hlength⟩ hstart

-- What has been obtained is what has been given up and what is owned.
theorem Run.owned (hr : Run (new key) h w) :
    obtained i h = givenUp i h ++ w.owned i ∧ (w.owned i).length ≤ 1 := by
  induction hr with
  | rest => exact ⟨rfl, Nat.zero_le 1⟩
  | @step h w u a before next ih =>
      obtain ⟨heq, hone⟩ := ih
      obtain ⟨hnext, hlength⟩ := next.owned (before.sound (sound_new key)) hone
      refine ⟨?_, hlength⟩
      calc obtained i ((w, a) :: h) = obtained i h ++ intake i w a := by simp [obtained]
        _ = givenUp i h ++ (w.owned i ++ intake i w a) := by rw [heq, List.append_assoc]
        _ = givenUp i h ++ outgo i w a ++ u.owned i := by rw [hnext, List.append_assoc]
        _ = givenUp i ((w, a) :: h) ++ u.owned i := by simp [givenUp]

-- A contender that has parted with a session has left it to the pool or to be closed.
theorem Next.outgo (hw : w.Sound) (h : w.Next a u) (hs : s ∈ outgo i w a) :
    (s ∈ u.idle ∨ s ∈ u.closing) ∧ ∀ j, s ∉ u.owned j := by
  have hplace : s ∈ u.idle ∨ s ∈ u.closing := by
    cases h with
    | @part j c found p partings first keeps =>
        obtain rfl : s = p.session := by
          by_cases hj : j = i
          · subst hj
            rw [outgo_part found first] at hs
            exact List.mem_singleton.mp hs
          · rw [outgo_other (by simpa [Act.contender?] using hj)] at hs
            cases hs
        unfold dispose
        split
        · exact Or.inl (List.mem_append_right _ List.mem_cons_self)
        · exact Or.inr (List.mem_append_right _ List.mem_cons_self)
    | start | wake | grant | answer | unheard | fail | deliver | read | retire | disconnect
    | usurp =>
        cases hs
  refine ⟨hplace, fun j hj => ?_⟩
  cases hd : u.contenders[j]? with
  | none =>
      rw [owned_none hd] at hj
      cases hj
  | some d =>
      rw [owned_of hd] at hj
      exact hplace.elim ((hw.next h).notMem_idle hd hj) ((hw.next h).notMem_closing hd hj)

-- A contender begins to ask for a session when it checks, as a follower without an open session.
theorem Next.requests (hw : w.Sound) (h : w.Next a u) (hbefore : w.call? i ≠ some .acquire)
    (hafter : u.call? i = some .acquire) :
    ∃ notices, a = .wake i .check notices ∧ ¬w.Leads i ∧ ∀ s, w.Pins i s → s ∉ w.alive := by
  obtain ⟨d, hd, hcall⟩ := Option.bind_eq_some_iff.mp hafter
  have hp := Elector.phase_of_acquire hcall
  rcases h.found hw hd with ⟨c, hc⟩ | ⟨s, -, -, rfl⟩
  · have hnot : c.elector.call? ≠ some .acquire := by
      rw [call?, hc] at hbefore
      exact hbefore
    obtain ⟨x, hx, hmove⟩ := h.move hw hc
    obtain rfl := Option.some.inj (hd.symm.trans hx)
    cases hmove with
    | rest | grant | answer | fail | part | read => exact absurd hcall hnot
    | deliver replied => exact absurd hp (Elector.resume_acquiring (hw.reply_of hc replied))
    | wake settled idle cause notices =>
        obtain ⟨rfl, hl, hclosed⟩ := Elector.wake_acquiring idle hp
        refine ⟨notices, rfl, ?_, ?_⟩
        · rintro ⟨x, hx, hleads⟩
          obtain rfl := Option.some.inj (hc.symm.trans hx)
          exact absurd hleads (by simp [hl])
        · rintro s ⟨x, hx, hs⟩
          obtain rfl := Option.some.inj (hc.symm.trans hx)
          have hseen := hclosed s hs
          simp only [isSeenClosed, Bool.and_eq_true] at hseen
          simpa using hseen.2
  · cases hp

theorem Waits.owned (hwaits : w.Waits i) (hw : w.Sound) : w.owned i = [] := by
  obtain ⟨c, hc, hsettled, call⟩ := hwaits
  rw [owned_of hc, sessions_waiting hw hc hsettled call]

private theorem length_flatMap_le {l : List Contender} (hone : ∀ c ∈ l, c.sessions.length ≤ 1) :
    (l.flatMap Contender.sessions).length ≤ l.length := by
  induction l with
  | nil => exact Nat.le_refl 0
  | cons c l ih =>
      have hc := hone c List.mem_cons_self
      have hl := ih fun d hd => hone d (List.mem_cons_of_mem _ hd)
      rw [List.flatMap_cons, List.length_append, List.length_cons]
      omega

-- While a contender waits for a session, fewer are in use than there are contenders.
theorem Waits.length_inUse (hwaits : w.Waits i) (hr : Run (new key) h w) :
    w.inUse.length < w.contenders.length := by
  obtain ⟨c, hc, hsettled, call⟩ := hwaits
  have hone : ∀ d ∈ w.contenders, d.sessions.length ≤ 1 := by
    intro d hd
    obtain ⟨j, hj⟩ := List.mem_iff_getElem?.mp hd
    have hlength := (hr.owned (i := j)).2
    rwa [owned_of hj] at hlength
  have hnone := sessions_waiting (hr.sound (sound_new key)) hc hsettled call
  obtain ⟨before, after, heq⟩ := List.append_of_mem (List.mem_of_getElem? hc)
  rw [heq] at hone
  have hbefore := length_flatMap_le fun d hd => hone d (List.mem_append_left _ hd)
  have hafter := length_flatMap_le fun d hd =>
    hone d (List.mem_append_right _ (List.mem_cons_of_mem _ hd))
  rw [inUse, heq, List.flatMap_append, List.flatMap_cons, hnone]
  simp only [List.length_append, List.length_cons, List.nil_append]
  omega

theorem Leads.owned (hl : w.Leads i) (hr : Run (new key) h w) :
    ∃ s, w.Pins i s ∧ w.owned i = [s] := by
  obtain ⟨c, hc, hleads⟩ := hl
  obtain ⟨s, hs⟩ := ((hr.sound (sound_new key)).elector_of hc).session_of_isLeader hleads
  have hone := (hr.owned (i := i)).2
  rw [owned_of hc] at hone ⊢
  have hmem := Contender.mem_sessions_of_session hs
  obtain ⟨t, ht⟩ := List.length_eq_one_iff.mp
    (Nat.le_antisymm hone (List.length_pos_of_mem hmem))
  rw [ht, List.mem_singleton] at hmem
  exact ⟨s, ⟨c, hc, hs⟩, by rw [ht, hmem]⟩

section Stopping

-- The contender has been told to stop, and has come to its end or frees its lock.
def Departs (i : ContenderId) (w : Contest) : Prop :=
  ∃ c, w.contenders[i]? = some c ∧ (c.elector.phase = .ended ∨ ∃ s, c.elector.phase = .releasing s)

theorem Next.departs (hw : w.Sound) (h : w.Next a u) (hd : w.Departs i) : u.Departs i := by
  obtain ⟨c, hc, hp⟩ := hd
  obtain ⟨d, hd, hmove⟩ := h.move hw hc
  refine ⟨d, hd, ?_⟩
  cases hmove with
  | rest | grant | answer | fail | part | read => exact hp
  | wake settled idle => rcases hp with hp | ⟨s, hp⟩ <;> cases idle.symm.trans hp
  | @deliver reply replied =>
      have hx := hw.reply_of hc replied
      left
      rcases hp with hp | ⟨s, hp⟩
      · cases reply <;> simp [Elector.Expects, Elector.call?, hp] at hx
      · cases reply with
        | session t => simp [Elector.Expects, Elector.call?, hp] at hx
        | answer yes | failed fault => simp [Contender.after, Elector.resume, hp]

theorem departs_of_stop (hc : w.contenders[i]? = some (.after c.elector.stop)) : w.Departs i := by
  refine ⟨_, hc, ?_⟩
  cases hs : c.elector.session with
  | none => simp [Contender.after, Elector.stop, hs]
  | some s =>
      by_cases hl : c.elector.isLeader = true <;> simp [Contender.after, Elector.stop, hs, hl]

theorem Run.departs (hr : Run (new key) h w) (hstop : .stop ∈ wakings i h) : w.Departs i := by
  induction hr with
  | rest => cases hstop
  | @step h w u a before next ih =>
      rw [wakings_cons, List.mem_append, Option.mem_toList] at hstop
      rcases hstop with hnow | hearlier
      · obtain ⟨c, notices, -, -, hu⟩ := next.waking hnow
        exact departs_of_stop hu
      · exact next.departs (before.sound (sound_new key)) (ih hearlier)

-- The contender waits for nothing and has nothing left to part with.
def IsThrough (i : ContenderId) (w : Contest) : Prop :=
  ∃ c, w.contenders[i]? = some c ∧ c.elector.call? = none ∧ c.partings = []

theorem Departs.hasStopped (hd : w.Departs i) (hthrough : w.IsThrough i) : w.HasStopped i := by
  obtain ⟨c, hc, hp | ⟨s, hp⟩⟩ := hd
  all_goals
    obtain ⟨d, hd, hcall, hgone⟩ := hthrough
    obtain rfl := Option.some.inj (hc.symm.trans hd)
  · exact ⟨c, hc, hp, hgone⟩
  · simp [Elector.call?, hp] at hcall

theorem HasStopped.owned (hs : w.HasStopped i) (hw : w.Sound) : w.owned i = [] := by
  have hempty {c : Contender} (hc : w.contenders[i]? = some c) : c.held = [] := (hs.empty hw hc).2
  obtain ⟨c, hc, hp, -⟩ := hs
  have hreply := hw.reply_none hc (by simp [Elector.call?, hp])
  rw [owned_of hc, Contender.sessions, hreply]
  exact List.append_eq_nil_iff.mpr ⟨hempty hc, rfl⟩

end Stopping

-- A contender never owns two sessions. What it has obtained is what it has given up, each
-- session once, and what it owns; a session given up is in the pool or closed, and with nobody.
-- It begins to ask for a session only as a follower that checks without an open one, and gets
-- one only while it owns none. Contenders that wait then leave room in a pool that has a place
-- for each: one alone does not wait for a session of its own. A leader owns the session that it
-- pins. A contender that has been told to stop and waits for nothing has come to its end, and
-- from there on it owns nothing.
theorem one_session_at_a_time (hr : Run (new key) h w) (i : ContenderId) :
    (w.owned i).length ≤ 1 ∧
    obtained i h = givenUp i h ++ w.owned i ∧
    (∀ a u, w.Next a u → ∀ s ∈ outgo i w a,
      (s ∈ u.idle ∨ s ∈ u.closing) ∧ ∀ j, s ∉ u.owned j) ∧
    (∀ a u, w.Next a u → w.call? i ≠ some .acquire → u.call? i = some .acquire →
      ∃ notices, a = .wake i .check notices ∧ ¬w.Leads i ∧ ∀ s, w.Pins i s → s ∉ w.alive) ∧
    (∀ s u, w.Next (.serve i (.granted s)) u → w.Waits i) ∧
    (w.Waits i → w.owned i = [] ∧ w.inUse.length < w.contenders.length) ∧
    (w.Leads i → ∃ s, w.Pins i s ∧ w.owned i = [s]) ∧
    (.stop ∈ wakings i h → w.IsThrough i → w.HasStopped i) ∧
    (w.HasStopped i → ∀ g u, Run w g u → u.owned i = [] ∧
      obtained i (g ++ h) = givenUp i (g ++ h)) := by
  have hw := hr.sound (sound_new key)
  refine ⟨hr.owned.2, hr.owned.1, fun a u next s hs => next.outgo hw hs,
    fun a u next => next.requests hw, ?granted,
    fun hwaits => ⟨hwaits.owned hw, hwaits.length_inUse hr⟩,
    fun hl => hl.owned hr, fun hstop => (hr.departs hstop).hasStopped, ?stopped⟩
  case granted =>
    intro s u next
    cases next with
    | grant found settled call => exact ⟨_, found, settled, call⟩
  case stopped =>
    intro hs g u hg
    have hnone := (hg.hasStopped hw hs).owned (hg.sound hw)
    have hbooks := ((hr.append hg).owned (i := i)).1
    rw [hnone, List.append_nil] at hbooks
    exact ⟨hnone, hbooks⟩

-- A follower loses its session, leads with the next, and stops.
theorem both_sessions_are_given_up :
    ∃ h w, Run (new 7) h w ∧ .stop ∈ wakings 0 h ∧ obtained 0 h = [1, 2] ∧
      givenUp 0 h = [1, 2] ∧ w.owned 0 = [] := by
  obtain ⟨h, w, hr, hstop, hobtained, hthrough⟩ : ∃ h w, Run (new 7) h w ∧
      .stop ∈ wakings 0 h ∧ obtained 0 h = [1, 2] ∧ w.IsThrough 0 := by
    have hlost := (Run.rest : Run (new 7) [] _).step (.start (s := 1) rfl)
      |>.step (.disconnect 1) |>.step (.wake (i := 0) rfl ⟨rfl, rfl⟩ rfl .check true)
      |>.step (.part (i := 0) rfl rfl true)
    have hleads := hlost.step (.grant (i := 0) rfl ⟨rfl, rfl⟩ rfl (s := 2) rfl)
      |>.step (.deliver (i := 0) rfl rfl rfl)
      |>.step (.answer (i := 0) rfl ⟨rfl, rfl⟩ rfl rfl) |>.step (.deliver (i := 0) rfl rfl rfl)
    have hstopped := hleads.step (.wake (i := 0) rfl ⟨rfl, rfl⟩ rfl .stop false)
      |>.step (.answer (i := 0) rfl ⟨rfl, rfl⟩ rfl rfl) |>.step (.deliver (i := 0) rfl rfl rfl)
      |>.step (.part (i := 0) rfl rfl true)
    exact ⟨_, _, hstopped, by decide, rfl, _, rfl, rfl, rfl⟩
  obtain ⟨-, -, -, -, -, -, -, hends, hstopped⟩ := one_session_at_a_time hr 0
  obtain ⟨hnone, hbooks⟩ := hstopped (hends hstop hthrough) [] w .rest
  exact ⟨h, w, hr, hstop, hobtained, hbooks.symm.trans hobtained, hnone⟩

end Contest

end PolyCache.Leader
