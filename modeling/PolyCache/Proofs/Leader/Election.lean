import PolyCache.Proofs.Leader.Standings
import PolyCache.Proofs.Leader.Succession

-- An election on a clock is a contest: what its candidates do in their turns, with a server of
-- which there is a faithful portrait, is a run of the contest for their key.
namespace PolyCache.Leader

namespace Portrait

variable {σ : Type} [LockServer σ] {p : Portrait σ} {key : LockKey} {e e' : Election σ}
  {w u : Contest} {i : CandidateId} {c : Candidate (LockServer.Work σ)} {s t : σ}

namespace Follows

-- A call of a candidate has been attended to, and the candidate has the reply that may have come.
theorem receive (hf : p.Follows key e w) (hp : p.IsFaithful) (hc : e.candidate? i = some c)
    (hl : c.standing ≠ .inLine) {call : Call} (calls : c.elector.call? = some call)
    {result : Progress (LockServer.Work σ) × σ}
    (hattends : p.Attends e.server w call (c.standing.reply? p.settled?) result) :
    p.Catches key w (e.receive i result) := by
  obtain ⟨⟨u, hu, hshows⟩, hcarries, hkeeps⟩ := hattends
  have hbecomes := hu.becomes (hf.get hc) rfl rfl calls
  have hadmits := hp.setServer (hf.orderly.keeps hkeeps)
  have hi := hf.orderly.notMem_line hc hl
  have hc' : (e.setServer result.2).candidate? i = some c := (hadmits.others i hi).trans hc
  rw [Election.receive_eq]
  refine ⟨_, hbecomes, hf.next hbecomes ?_ ?_, ?_⟩
  · have hi' := hadmits.orderly.notMem_line hc' hl
    refine hadmits.orderly.adjust hc' (fun h => absurd h hi') ?_
    obtain ⟨progress, t⟩ := result
    cases progress with
    | reply reply => exact .answered reply
    | pending work => exact .served calls (hadmits.keeps _ _ (hcarries work rfl))
  · exact hadmits.shows _ (hp.shows_contenders hshows _)
  · rw [Election.stand, contenders_adjust hc', hadmits.contenders]
    show u.contenders.set i _ = _
    rw [hu.contenders_eq hf.sound, hf.contenders]
    simp only [contender, Progress.reply?_standing]
    rfl

-- A step of an elector is taken, and what it lets go of arrives at once.
theorem take (hf : p.Follows key e w) (hp : p.IsFaithful) (hc : e.candidate? i = some c)
    (hl : c.standing ≠ .inLine) {st : Step} (hst : w.Becomes (w.put i (.after st))) :
    p.Catches key w (e.take i st) := by
  let change : Candidate (LockServer.Work σ) → Candidate (LockServer.Work σ) :=
    fun c => { c with elector := st.elector, standing := .free }
  have hi := hf.orderly.notMem_line hc hl
  have horderly : p.IsOrderly (e.adjust i change) :=
    hf.orderly.adjust hc (fun h => absurd h hi) .free
  have hparts : p.Parts key i st.partings (e.adjust i change) (w.put i (.after st)) := by
    refine ⟨hf.next hst horderly (hp.shows_contenders hf.shows _), change c,
      Election.candidate?_adjust_self change hc, rfl, ?_⟩
    rw [contenders_adjust hc, List.set_set, ← hf.contenders]
    rfl
  obtain ⟨u, hu, hf⟩ := hp.applied st.effects hparts
  exact ⟨u, hst.trans hu, hf⟩

-- A change of a candidate that the contest does not see.
theorem adjust (hf : p.Follows key e w) (hc : e.candidate? i = some c)
    {change : Candidate (LockServer.Work σ) → Candidate (LockServer.Work σ)}
    (hl : i ∈ e.line → (change c).standing = .inLine)
    (hs : p.Suits e.server (change c).elector (change c).standing)
    (hsame : p.contender (change c) = p.contender c) : p.Follows key (e.adjust i change) w :=
  ⟨⟨hf.sound, hf.guarded, hf.key, hf.orderly.adjust hc hl hs, hf.shows⟩,
    hf.contenders.trans (contenders_adjust_same hc hsame).symm⟩

theorem givePlace (hf : p.Follows key e w) (hp : p.IsFaithful)
    (hplace : LockServer.admit? e.server = some t) : p.Follows key { e with server := t } w := by
  obtain ⟨hkeeps, hshows⟩ := hp.place hplace
  exact ⟨⟨hf.sound, hf.guarded, hf.key, hf.orderly.keeps hkeeps, hshows w hf.shows⟩, hf.contenders⟩

theorem joinLine (hf : p.Follows key e w) (hc : e.candidate? i = some c)
    (hfree : c.standing = .free) (calls : c.elector.call? = some .acquire) :
    p.Follows key ({ e with line := e.line ++ [i] }.stand i .inLine) w := by
  have hi := hf.orderly.notMem_line hc (by simp [hfree])
  have hstands : p.Follows key (e.stand i .inLine) w :=
    hf.adjust hc (fun _ => rfl) (.inLine calls) (by simp [contender, hfree, Standing.reply?])
  have hnodup : (e.line ++ [i]).Nodup := by
    rw [← List.concat_eq_append]
    exact hf.orderly.line.concat hi
  refine ⟨⟨hf.sound, hf.guarded, hf.key, ⟨hstands.orderly.suits, hnodup, fun j hj => ?_⟩, hf.shows⟩,
    hstands.contenders⟩
  rcases List.mem_append.mp hj with hj | hj
  · exact hstands.orderly.waits j hj
  · obtain rfl := List.mem_singleton.mp hj
    exact ⟨_, Election.candidate?_adjust_self _ hc, rfl⟩

-- A candidate that asks for a session is let in, or waits in line.
theorem enterLine (hf : p.Follows key e w) (hp : p.IsFaithful) (hc : e.candidate? i = some c)
    (hfree : c.standing = .free) (calls : c.elector.call? = some .acquire) :
    p.Follows key (e.enterLine i) w := by
  have hi := hf.orderly.notMem_line hc (by simp [hfree])
  unfold Election.enterLine
  cases hplace : LockServer.admit? e.server with
  | none => exact hf.joinLine hc hfree calls
  | some server =>
      refine (hf.givePlace hp hplace).adjust hc (fun h => absurd h hi) (.admitted calls) ?_
      simp [contender, hfree, Standing.reply?]

-- An elector that wakes sees that its own session is closed, if it is.
theorem wake (hf : p.Follows key e w) (hp : p.IsFaithful) (hc : e.candidate? i = some c)
    (hfree : c.standing = .free) (idle : c.elector.phase = .idle) (cause : Wake) :
    w.Becomes (w.put i (.after (c.elector.wake (LockServer.isClosed e.server) cause))) := by
  have hfound := hf.get hc
  have hsettled : (p.contender c).IsSettled := ⟨rfl, by simp [contender, hfree, Standing.reply?]⟩
  let notices := c.elector.session.elim false (LockServer.isClosed e.server)
  have hseen : ∀ s, c.elector.session = some s →
      w.isSeenClosed notices s = LockServer.isClosed e.server s := by
    intro s hs
    have hnotices : notices = LockServer.isClosed e.server s := by simp [notices, hs]
    cases hclosed : LockServer.isClosed e.server s with
    | false => simp [Contest.isSeenClosed, hnotices, hclosed]
    | true =>
        have hmem : s ∈ (p.contender c).sessions := Contender.mem_sessions_of_session hs
        have hdead := hp.isClosed hf.shows (hf.sound.notMem_closing hfound hmem) hclosed
        simp [Contest.isSeenClosed, hnotices, hclosed, hdead]
  rw [← Elector.wake_congr hseen cause]
  exact (Contest.Next.wake hfound hsettled idle cause notices).becomes trivial

theorem attend (hf : p.Follows key e w) (hp : p.IsFaithful) (hc : e.candidate? i = some c)
    (hfree : c.standing = .free) (calls : c.elector.call? = none) :
    p.Catches key w (e.attend i c).2 := by
  unfold Election.attend
  cases hattend : c.attend e.now e.armings with
  | mk cause? d =>
      obtain ⟨helector, hstanding⟩ := Candidate.attend_kept hattend
      have hd : d.standing = .free := hstanding.trans hfree
      have hi := hf.orderly.notMem_line hc (by simp [hfree])
      have hsame : p.contender d = p.contender c := by simp [contender, helector, hstanding]
      have hsuits : p.Suits e.server d.elector d.standing := by
        rw [hd]
        exact .free
      have harmed : p.Follows key { e with armings := e.armings + 2 } w := hf.of_same rfl rfl rfl
      let e' := { e with armings := e.armings + 2 }
      have hkept : p.Follows key (e'.adjust i fun _ => d) w :=
        harmed.adjust hc (fun h => absurd h hi) hsuits hsame
      cases cause? with
      | none => exact hkept.catches
      | some cause =>
          have hd' := Election.candidate?_adjust_self (e := e') (fun _ => d) hc
          have idle := Elector.phase_of_no_call calls (Candidate.attend_wake hattend)
          exact hkept.take hp hd' (by simp [hd])
            (hkept.wake hp hd' hd (helector ▸ idle) cause)

theorem start (hf : p.Follows key e w) (hp : p.IsFaithful) (hc : e.candidate? i = some c)
    {call : Call} (calls : c.elector.call? = some call) :
    p.Attends e.server w call none (LockServer.start e.server call) :=
  hp.start hf.shows hf.sound hf.guarded fun _ => hf.sound.session_of_call (hf.get hc) calls

theorem goOn (hf : p.Follows key e w) (hp : p.IsFaithful) (fuel : Nat) :
    p.Catches key w (Election.goOn i fuel e) := by
  induction fuel generalizing e w with
  | zero => exact hf.catches
  | succ fuel ih =>
      unfold Election.goOn
      cases hc : e.candidate? i with
      | none => exact hf.catches
      | some c =>
          have hsuits := hf.orderly.suits i c hc
          obtain ⟨elector, check, heartbeat, isDismissed, standing, seenWrites⟩ := c
          cases hsuits with
          | inLine calls => exact hf.catches
          | served calls carries =>
              have hcalls : p.Follows key { e with calls := e.calls ++ [i] } w :=
                hf.of_same rfl rfl rfl
              exact hcalls.catches
          | admitted calls =>
              exact (hf.receive hp hc (by simp) calls (hf.start hp hc calls)).bind
                fun _ hu => ih hu
          | answered reply =>
              have hdelivers := (Contest.Next.deliver (hf.get hc) rfl rfl).becomes trivial
              exact (hf.take hp hc (by simp) hdelivers).bind fun _ hu => ih hu
          | free =>
              dsimp only
              cases hcall : elector.call? with
              | none =>
                  have hattend := hf.attend hp hc rfl hcall
                  dsimp only
                  split
                  · rename_i e' heq
                    rw [heq] at hattend
                    exact hattend.bind fun _ hu => ih hu
                  · rename_i e' heq
                    rw [heq] at hattend
                    exact hattend
              | some call =>
                  have hstart := hf.start hp hc hcall
                  cases call with
                  | acquire => exact ih (hf.enterLine hp hc rfl hcall)
                  | tryLock | holdsLock | unlock =>
                      exact (hf.receive hp hc (by simp) hcall hstart).bind fun _ hu => ih hu

theorem goOnAll (hf : p.Follows key e w) (hp : p.IsFaithful) (fuel : Nat) :
    p.Catches key w (Election.goOnAll fuel e) := by
  induction fuel generalizing e w with
  | zero => exact hf.catches
  | succ fuel ih =>
      unfold Election.goOnAll
      split
      · exact hf.catches
      · rename_i i ready hready
        have hrest : p.Follows key { e with ready } w := hf.of_same rfl rfl rfl
        exact (hrest.goOn hp Election.stepBound).bind fun _ hu => ih hu

theorem schedule (hf : p.Follows key e w) (i : CandidateId) : p.Follows key (e.schedule i) w := by
  obtain ⟨ready, hready⟩ := e.schedule_eq i
  rw [hready]
  exact hf.of_same rfl rfl rfl

theorem proceed (hf : p.Follows key e w) (hp : p.IsFaithful) (i : CandidateId) :
    p.Catches key w (e.proceed i) := by
  unfold Election.proceed
  cases hc : e.candidate? i with
  | none => exact hf.catches
  | some c =>
      have hsuits := hf.orderly.suits i c hc
      dsimp only
      cases hstanding : c.standing with
      | served work =>
          rw [hstanding] at hsuits
          cases hsuits with
          | served calls carries =>
              have hattends := hp.proceed hf.shows hf.sound hf.guarded carries
              refine (hf.receive hp hc (by simp [hstanding]) calls ?_).bind fun u hu =>
                (hu.schedule i).catches
              rwa [hstanding]
      | free | inLine | admitted | answered => exact hf.catches

theorem endRound (hf : p.Follows key e w) (hp : p.IsFaithful) : p.Catches key w e.endRound := by
  obtain ⟨u, hu, hsame, hshows⟩ := hp.endRound hf.shows
  have horderly := hf.orderly.keeps (hp.carries_endRound e.server)
  exact ⟨u, hu, hf.next hu horderly hshows, hsame.trans hf.contenders⟩

theorem serve (hf : p.Follows key e w) (hp : p.IsFaithful) : p.Catches key w e.serve := by
  have hproceed (ids : List CandidateId) {e : Election σ} {w : Contest}
      (hf : p.Follows key e w) : p.Catches key w (ids.foldl Election.proceed e) := by
    induction ids generalizing e w with
    | nil => exact hf.catches
    | cons i ids ih => exact (hf.proceed hp i).bind fun _ hu => ih hu
  have hcleared : p.Follows key { e with calls := [] } w := hf.of_same rfl rfl rfl
  exact (hproceed e.calls hcleared).bind fun _ hu => hu.endRound hp

theorem rounds (hf : p.Follows key e w) (hp : p.IsFaithful) (fuel : Nat) :
    p.Catches key w (Election.rounds fuel e) := by
  induction fuel generalizing e w with
  | zero => exact hf.endRound hp
  | succ fuel ih =>
      unfold Election.rounds
      split
      · exact hf.endRound hp
      · exact ((hf.serve hp).bind fun _ hu => hu.goOnAll hp _).bind fun _ hu => ih hu

theorem run (hf : p.Follows key e w) (hp : p.IsFaithful) : p.Catches key w e.run :=
  (hf.goOnAll hp _).bind fun _ hu => hu.rounds hp _

theorem advance (hf : p.Follows key e w) (hp : p.IsFaithful) (span : Duration) :
    p.Catches key w (e.advance span) := by
  have hschedule (firings : List Firing) {e : Election σ} (hf : p.Follows key e w) :
      p.Follows key (firings.foldl (fun e firing => e.schedule firing.candidate) e) w := by
    induction firings generalizing e with
    | nil => exact hf
    | cons firing firings ih => exact ih (hf.schedule firing.candidate)
  have hlater : p.Follows key { e with now := e.now + span.nanoseconds } w :=
    hf.of_same rfl rfl rfl
  exact (hschedule _ hlater).run hp

-- A change that touches neither the elector nor the standing of a candidate.
theorem adjust_kept (hf : p.Follows key e w) (hc : e.candidate? i = some c)
    {change : Candidate (LockServer.Work σ) → Candidate (LockServer.Work σ)}
    (helector : (change c).elector = c.elector) (hstanding : (change c).standing = c.standing) :
    p.Follows key (e.adjust i change) w := by
  have hsuits : p.Suits e.server (change c).elector (change c).standing := by
    rw [helector, hstanding]
    exact hf.orderly.suits i c hc
  exact hf.adjust hc (fun hi => hstanding.trans (hf.orderly.inLine hc hi)) hsuits
    (by simp [contender, helector, hstanding])

theorem dismiss (hf : p.Follows key e w) (i : CandidateId) : p.Follows key (e.dismiss i) w := by
  cases hc : e.candidate? i with
  | none =>
      rw [Election.dismiss, Election.adjust_none _ hc]
      exact hf.schedule i
  | some c => exact (hf.adjust_kept hc rfl rfl).schedule i

theorem stop (hf : p.Follows key e w) (hp : p.IsFaithful) (name : String) :
    p.Catches key w (e.stop name) := by
  unfold Election.stop
  cases e.names.lookup name with
  | none => exact hf.run hp
  | some i => exact (hf.dismiss i).run hp

theorem takeErrors (hf : p.Follows key e w) (hp : p.IsFaithful) (name : String) :
    p.Catches key w (e.takeErrors name).2 := by
  unfold Election.takeErrors
  cases hnamed : e.named? name with
  | none => exact hf.catches
  | some found =>
      obtain ⟨i, c⟩ := found
      have hc := Election.candidate?_of_named hnamed
      have hread := (Contest.Next.read (hf.get hc)).becomes trivial
      let change : Candidate (LockServer.Work σ) → Candidate (LockServer.Work σ) :=
        fun d => { d with elector := c.elector.takeErrors.2 }
      have horderly : p.IsOrderly (e.adjust i change) :=
        hf.orderly.adjust hc (fun hi => (hf.orderly.inLine hc hi :))
          ((hf.orderly.suits i c hc).imp rfl fun _ _ _ _ hc => hc)
      refine ⟨_, hread, hf.next hread horderly (hp.shows_contenders hf.shows _), ?_⟩
      show w.contenders.set i _ = p.contenders (e.adjust i change)
      rw [contenders_adjust hc, hf.contenders]
      rfl

theorem observe (hf : p.Follows key e w) (name : String) :
    p.Follows key (e.observe name).2 w := by
  unfold Election.observe
  cases hnamed : e.named? name with
  | none => exact hf
  | some found => exact hf.adjust_kept (Election.candidate?_of_named hnamed) rfl rfl

theorem takeLog (hf : p.Follows key e w) : p.Follows key e.takeLog.2 w := hf.of_same rfl rfl rfl

theorem setServer (hf : p.Follows key e w) (hp : p.IsFaithful) (hb : w.Becomes u)
    (hcontenders : u.contenders = w.contenders) (hkeeps : p.Keeps e.server t)
    (hshows : p.Shows t u) : p.Follows key (e.setServer t) u := by
  have hadmits := hp.setServer (hf.orderly.keeps hkeeps)
  refine ⟨hf.next hb hadmits.orderly (hadmits.shows u hshows), ?_⟩
  rw [hadmits.contenders, hcontenders]
  exact hf.contenders

end Follows

-- A server that is asked for the first session of a candidate attends to a call for it.
theorem IsFaithful.firstSession (hp : p.IsFaithful) (hs : p.Shows s w) (hw : w.Sound)
    (hg : w.Guarded) : ∃ u, w.Attends .acquire none (some (Election.firstSession s).1) u ∧
      p.Shows (Election.firstSession s).2 u ∧ p.Keeps s (Election.firstSession s).2 := by
  unfold Election.firstSession
  cases hplace : LockServer.admit? s with
  | none => exact ⟨w, .fail _, hs, fun _ _ hc => hc⟩
  | some t =>
      obtain ⟨hadmitted, hshows⟩ := hp.place hplace
      have hstart : p.Attends t w .acquire none (LockServer.start t .acquire) :=
        hp.start (hshows w hs) hw hg fun _ h => by cases h
      obtain ⟨⟨u, hu, hsu⟩, hcarries, hkeeps⟩ := hstart
      dsimp only
      generalize LockServer.start t .acquire = started at hu hsu hcarries hkeeps
      obtain ⟨progress, t⟩ := started
      cases progress with
      | reply reply => exact ⟨u, hu, hsu, fun _ _ hc => hkeeps _ _ (hadmitted _ _ hc)⟩
      | pending work =>
          have hwork := hcarries work rfl
          obtain ⟨hsound, hguarded⟩ := hu.sound_and_guarded hw hg
          obtain ⟨⟨v, hv, hsv⟩, -, hlater⟩ := hp.proceed hsu hsound hguarded hwork
          obtain ⟨reply, last, hproceed⟩ := hp.prompt hwork
          have hfinished : Election.finishCall 2 (.pending work, t) = (reply, last) := by
            simp [Election.finishCall, hproceed]
          rw [hfinished]
          rw [hproceed] at hv hsv hlater
          exact ⟨v, hu.trans hv, hsv, fun _ _ hc => hlater _ _ (hkeeps _ _ (hadmitted _ _ hc))⟩

namespace Follows

-- One more candidate, with its first session.
theorem enrol (hf : p.Follows key e w) (hp : p.IsFaithful) {session : SessionId}
    (grant : w.handOut? session = some u)
    (hkeeps : p.Keeps e.server t) (hshows : p.Shows t u) (check heartbeat : Duration) :
    p.Catches key w { e.setServer t with
      candidates := (e.setServer t).candidates ++ [.new key session check heartbeat] } := by
  have hadmits := hp.setServer (hf.orderly.keeps hkeeps)
  have hcontenders : u.contenders = w.contenders := by
    obtain ⟨idle, opened, alive, rfl, -, -, -⟩ := Contest.handOut?_eq hf.sound grant
    rfl
  have hstart := (Contest.Next.start grant).becomes trivial
  refine ⟨_, hstart, hf.next hstart (hadmits.orderly.append rfl)
    (hp.shows_contenders (hadmits.shows u hshows) _), ?_⟩
  rw [Portrait.contenders, List.map_append, hcontenders, hf.contenders, hf.key]
  exact congrArg (· ++ _) hadmits.contenders.symm

theorem startNew (hf : p.Follows key e w) (hp : p.IsFaithful) (name : String)
    (check heartbeat : Duration) : p.Catches key w (e.start name key check heartbeat).2 := by
  obtain ⟨u, hu, hshows, hkeeps⟩ := hp.firstSession hf.shows hf.sound hf.guarded
  unfold Election.start
  generalize Election.firstSession e.server = first at hu hshows hkeeps
  obtain ⟨reply, t⟩ := first
  cases hu with
  | fail fault => exact (hf.setServer hp (.refl w) rfl hkeeps hshows).catches
  | answer done => cases done
  | @grant u session acquires grant =>
      refine (hf.enrol hp grant hkeeps hshows check heartbeat).bind fun v hv => ?_
      dsimp only
      generalize e.setServer t = e at hv ⊢
      let e' := { e with
        candidates := e.candidates ++ [Candidate.new key session check heartbeat]
        names := Entries.insert Entries.stringLess name e.candidates.length e.names
        log := e.log ++ [Election.started key] }
      have hnamed : p.Follows key e' v := hv.of_same rfl rfl rfl
      have hlisted := hnamed.schedule e.candidates.length
      cases e.names.lookup name with
      | none => exact hlisted.run hp
      | some former => exact (hlisted.dismiss former).run hp

theorem new (key : LockKey) (first : p.Shows s (.new key)) :
    p.Follows key (Election.new s) (.new key) := by
  have horderly : p.IsOrderly (Election.new s) :=
    ⟨by simp [Election.new, Election.candidate?], List.nodup_nil, by simp [Election.new]⟩
  exact ⟨⟨Contest.sound_new key, Contest.guarded_new key, rfl, horderly, first⟩, rfl⟩

end Follows

-- There is a run of the contest, with acts of one kind only, to a state that the election has come
-- to.
def Portrays (p : Portrait σ) (Kind : Act → Prop) (key : LockKey) (e : Election σ) : Prop :=
  ∃ h w, Contest.Run (.new key) h w ∧ (∀ x ∈ h, Kind x.2) ∧ p.Follows key e w

theorem Portrays.next {Kind : Act → Prop} (hordinary : ∀ a, Contest.IsOrdinary a → Kind a)
    (h : p.Portrays Kind key e) (hnext : ∀ w, p.Follows key e w → p.Catches key w e') :
    p.Portrays Kind key e' := by
  obtain ⟨h, w, hr, hh, hf⟩ := h
  obtain ⟨u, ⟨g, hg, hgs⟩, hu⟩ := hnext w hf
  refine ⟨g ++ h, u, hr.append hg, fun x hx => ?_, hu⟩
  exact (List.mem_append.mp hx).elim (fun hx => hordinary x.2 (hgs x hx)) (hh x)

-- Something is done to the server that is an act, or some acts, of the contest.
theorem Portrays.meddle {Kind : Act → Prop} (hheard : ∀ a, Kind a → Contest.IsHeard a)
    (h : p.Portrays Kind key e)
    (hnext : ∀ w, p.Follows key e w → p.IsOrderly { e with server := t } ∧
      ∃ g u, Contest.Run w g u ∧ (∀ x ∈ g, Kind x.2) ∧ p.Shows t u ∧
        u.contenders = w.contenders) :
    p.Portrays Kind key { e with server := t } := by
  obtain ⟨h, w, hr, hh, hf⟩ := h
  obtain ⟨horderly, g, u, hg, hgs, hshows, hsame⟩ := hnext w hf
  refine ⟨g ++ h, u, hr.append hg, fun x hx => ?_, ?_, hsame.trans hf.contenders⟩
  · exact (List.mem_append.mp hx).elim (hgs x) (hh x)
  · exact hf.after hg (fun x hx => hheard x.2 (hgs x hx)) horderly hshows

theorem Portrays.exists_run {Kind : Act → Prop} (hp : p.IsFaithful) (h : p.Portrays Kind key e) :
    ∃ h w, Contest.Run (.new key) h w ∧ (∀ x ∈ h, Kind x.2) ∧
      w.contenders = p.contenders e ∧ w.locks = p.locks e.server := by
  obtain ⟨h, w, hr, hh, hf⟩ := h
  exact ⟨h, w, hr, hh, hf.contenders, hp.locks hf.shows⟩

-- Where nothing goes wrong with the server, a candidate that leads holds the lock, and there is no
-- other.
theorem Portrays.leader (hp : p.IsFaithful) (h : p.Portrays Contest.IsOrdinary key e)
    (hc : e.candidate? i = some c) (hl : c.elector.isLeader = true) :
    ∃ s, c.elector.session = some s ∧ (p.locks e.server).holder? key = some s ∧
      ∀ j d, e.candidate? j = some d → d.elector.isLeader = true → j = i := by
  obtain ⟨h, w, hr, hh, hf⟩ := h
  have hkept : ∀ x ∈ h, ∀ s, ¬Contest.Loses s x.1 x.2 := by
    rintro ⟨v, a⟩ hx s (rfl | ⟨-, outsider, rfl⟩)
    · exact hh _ hx
    · exact hh _ hx
  have hholds (i : CandidateId) (c : Candidate (LockServer.Work σ)) (hc : e.candidate? i = some c)
      (hl : c.elector.isLeader = true) : ∃ s, c.elector.session = some s ∧ w.holder? = some s := by
    obtain ⟨s, hs⟩ := (hf.sound.elector_of (hf.get hc)).session_of_isLeader hl
    have hstale := hr.stale_iff (hf.get hc) ⟨hs, Or.inl hl⟩
    exact ⟨s, hs, not_not.mp fun hlost => Contest.not_stale hkept (hstale.mpr hlost)⟩
  obtain ⟨s, hs, hholder⟩ := hholds i c hc hl
  refine ⟨s, hs, ?_, fun j d hd hleads => ?_⟩
  · rw [← hp.locks hf.shows, ← hf.key]
    exact hholder
  · obtain ⟨t, ht, hother⟩ := hholds j d hd hleads
    obtain rfl := Option.some.inj (hother.symm.trans hholder)
    exact hf.sound.owner_unique (hf.get hd) (hf.get hc) (Contender.mem_sessions_of_session ht)
      (Contender.mem_sessions_of_session hs)

end Portrait

namespace Election

variable {σ : Type} [LockServer σ]

-- The elections for one key that come about, with what may be done to their server meanwhile.
inductive Reached (key : LockKey) (first : σ) (Meddles : Election σ → σ → Prop) :
    Election σ → Prop where
  | new : Reached key first Meddles (.new first)
  | start {e : Election σ} (before : Reached key first Meddles e) (name : String)
      (check heartbeat : Duration) :
      Reached key first Meddles (e.start name key check heartbeat).2
  | stop {e : Election σ} (before : Reached key first Meddles e) (name : String) :
      Reached key first Meddles (e.stop name)
  | advance {e : Election σ} (before : Reached key first Meddles e) (span : Duration) :
      Reached key first Meddles (e.advance span)
  | takeErrors {e : Election σ} (before : Reached key first Meddles e) (name : String) :
      Reached key first Meddles (e.takeErrors name).2
  | observe {e : Election σ} (before : Reached key first Meddles e) (name : String) :
      Reached key first Meddles (e.observe name).2
  | takeLog {e : Election σ} (before : Reached key first Meddles e) :
      Reached key first Meddles e.takeLog.2
  | meddle {e : Election σ} {t : σ} (before : Reached key first Meddles e)
      (meddles : Meddles e t) : Reached key first Meddles { e with server := t }

theorem Reached.portrays {p : Portrait σ} (hp : p.IsFaithful) {key : LockKey} {first : σ}
    {Meddles : Election σ → σ → Prop} {Kind : Act → Prop}
    (hordinary : ∀ a, Contest.IsOrdinary a → Kind a) (hfirst : p.Shows first (.new key))
    (hmeddles : ∀ e t, Meddles e t → p.Portrays Kind key e →
      p.Portrays Kind key { e with server := t })
    {e : Election σ} (h : Reached key first Meddles e) : p.Portrays Kind key e := by
  induction h with
  | new => exact ⟨[], _, .rest, by simp, .new key hfirst⟩
  | start before name check heartbeat ih =>
      exact ih.next hordinary fun _ hf => hf.startNew hp name check heartbeat
  | stop before name ih => exact ih.next hordinary fun _ hf => hf.stop hp name
  | advance before span ih => exact ih.next hordinary fun _ hf => hf.advance hp span
  | takeErrors before name ih => exact ih.next hordinary fun _ hf => hf.takeErrors hp name
  | observe before name ih => exact ih.next hordinary fun _ hf => (hf.observe name).catches
  | takeLog before ih => exact ih.next hordinary fun _ hf => hf.takeLog.catches
  | meddle before meddles ih => exact hmeddles _ _ meddles ih

end Election

end PolyCache.Leader
