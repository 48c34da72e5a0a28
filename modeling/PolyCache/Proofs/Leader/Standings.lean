import PolyCache.Proofs.Leader.Portrait

-- What an election on a clock has in common with a state of a contest. The standing of a candidate
-- tells what its elector waits for, and those who wait in line wait for a session.
namespace PolyCache.Leader

def Standing.reply? {π : Type} (settled? : π → Option Reply) : Standing π → Option Reply
  | .served work => settled? work
  | .answered reply => some reply
  | .free | .inLine | .admitted => none

-- What becomes of a candidate whose call the server has worked on.
def Progress.standing {π : Type} : Progress π → Standing π
  | .reply answer => .answered answer
  | .pending work => .served work

theorem Progress.reply?_standing {π : Type} (settled? : π → Option Reply)
    (progress : Progress π) : progress.standing.reply? settled? = progress.reply? settled? := by
  cases progress <;> rfl

theorem Contest.contenders_dispose (w : Contest) (q : Parting) (keeps : Bool) :
    (w.dispose q keeps).contenders = w.contenders := by
  unfold Contest.dispose
  split <;> rfl

theorem Candidate.attend_kept {π : Type} {c d : Candidate π} {now : Time} {armings : Nat}
    {cause? : Option Wake} (h : c.attend now armings = (cause?, d)) :
    d.elector = c.elector ∧ d.standing = c.standing := by
  unfold attend at h
  dsimp only at h
  split at h
  · cases h
    exact ⟨rfl, rfl⟩
  · split at h
    · cases h
      exact ⟨rfl, rfl⟩
    · split at h <;> cases h <;> exact ⟨rfl, rfl⟩

-- A candidate attends to nothing once its elector has ended.
theorem Candidate.attend_wake {π : Type} {c d : Candidate π} {now : Time} {armings : Nat}
    {cause : Wake} (h : c.attend now armings = (some cause, d)) : c.elector.hasEnded = false := by
  unfold attend at h
  split at h
  · cases h
  · rename_i hended
    simpa using hended

section Bookkeeping

variable {σ : Type} [LockServer σ] {e : Election σ} {i j : CandidateId}
  {c : Candidate (LockServer.Work σ)}
  (change : Candidate (LockServer.Work σ) → Candidate (LockServer.Work σ))

theorem Election.candidate?_adjust_self (hc : e.candidate? i = some c) :
    (e.adjust i change).candidate? i = some (change c) := by
  simp only [candidate?] at hc
  simp [adjust, candidate?, hc]

theorem Election.candidate?_adjust_other (hij : i ≠ j) :
    (e.adjust i change).candidate? j = e.candidate? j := by
  simp [adjust, candidate?, hij]

theorem Election.adjust_none (hc : e.candidate? i = none) : e.adjust i change = e := by
  have hc : e.candidates[i]? = none := hc
  rw [adjust, List.modify_eq_set_getElem?, hc]
  rfl

theorem Election.candidate?_of_named {name : String} (h : e.named? name = some (i, c)) :
    e.candidate? i = some c := by
  obtain ⟨j, -, h⟩ := Option.bind_eq_some_iff.mp h
  obtain ⟨d, hd, heq⟩ := Option.map_eq_some_iff.mp h
  cases heq
  exact hd

theorem Election.receive_eq (result : Progress (LockServer.Work σ) × σ) :
    e.receive i result = (e.setServer result.2).stand i result.1.standing := by
  obtain ⟨progress, server⟩ := result
  cases progress <;> rfl

theorem Election.schedule_eq (e : Election σ) (i : CandidateId) :
    ∃ ready, e.schedule i = { e with ready } := by
  unfold schedule
  split
  · exact ⟨e.ready, rfl⟩
  · exact ⟨_, rfl⟩

end Bookkeeping

namespace Portrait

variable {σ : Type} [LockServer σ] {p : Portrait σ}

def contender (p : Portrait σ) (c : Candidate (LockServer.Work σ)) : Contender :=
  ⟨c.elector, [], c.standing.reply? p.settled?⟩

def contenders (p : Portrait σ) (e : Election σ) : List Contender := e.candidates.map p.contender

-- What the standing of a candidate says of the call that its elector waits for.
inductive Suits (p : Portrait σ) (s : σ) (e : Elector) : Standing (LockServer.Work σ) → Prop where
  | free : Suits p s e .free
  | inLine (calls : e.call? = some .acquire) : Suits p s e .inLine
  | admitted (calls : e.call? = some .acquire) : Suits p s e .admitted
  | served {call : Call} {work : LockServer.Work σ} (calls : e.call? = some call)
      (carries : p.Carries s call work) : Suits p s e (.served work)
  | answered (reply : Reply) : Suits p s e (.answered reply)

structure IsOrderly (p : Portrait σ) (e : Election σ) : Prop where
  suits : ∀ i c, e.candidate? i = some c → p.Suits e.server c.elector c.standing
  line : e.line.Nodup
  waits : ∀ i ∈ e.line, ∃ c, e.candidate? i = some c ∧ c.standing = .inLine

-- All that a state of the contest has in common with the election, but for the contenders.
structure Accords (p : Portrait σ) (key : LockKey) (e : Election σ) (w : Contest) : Prop where
  sound : w.Sound
  guarded : w.Guarded
  key : w.key = key
  orderly : p.IsOrderly e
  shows : p.Shows e.server w

-- The state of the contest that the election has come to.
structure Follows (p : Portrait σ) (key : LockKey) (e : Election σ) (w : Contest) : Prop extends
    p.Accords key e w where
  contenders : w.contenders = p.contenders e

-- The election is in the middle of a step: a candidate has done its part, and some sessions that it
-- has let go of have yet to arrive.
structure Parts (p : Portrait σ) (key : LockKey) (i : CandidateId) (partings : List Parting)
    (e : Election σ) (w : Contest) : Prop extends p.Accords key e w where
  contenders : ∃ c, e.candidate? i = some c ∧ c.standing = .free ∧
    w.contenders = (p.contenders e).set i { p.contender c with partings }

-- The contest goes on to the state that the election has come to.
def Catches (p : Portrait σ) (key : LockKey) (w : Contest) (e : Election σ) : Prop :=
  ∃ u, w.Becomes u ∧ p.Follows key e u

variable {key : LockKey} {e e' : Election σ} {w u : Contest} {i j : CandidateId}
  {c d : Candidate (LockServer.Work σ)} {s t : σ}

-- The elector still waits for the same call, and the server still works on it.
theorem Suits.imp {elector other : Elector} {standing : Standing (LockServer.Work σ)}
    (hs : p.Suits s elector standing) (h : other.call? = elector.call?)
    (hcarries : ∀ call work, standing = .served work → elector.call? = some call →
      p.Carries s call work → p.Carries t call work) : p.Suits t other standing := by
  cases hs with
  | free => exact .free
  | inLine calls => exact .inLine (h.trans calls)
  | admitted calls => exact .admitted (h.trans calls)
  | served calls carries => exact .served (h.trans calls) (hcarries _ _ rfl calls carries)
  | answered reply => exact .answered reply

theorem contenders_get (hc : e.candidate? i = some c) :
    (p.contenders e)[i]? = some (p.contender c) := by
  have hc : e.candidates[i]? = some c := hc
  simp [contenders, hc]

theorem contenders_adjust (hc : e.candidate? i = some c)
    (change : Candidate (LockServer.Work σ) → Candidate (LockServer.Work σ)) :
    p.contenders (e.adjust i change) = (p.contenders e).set i (p.contender (change c)) := by
  have hc : e.candidates[i]? = some c := hc
  rw [contenders, Election.adjust, List.modify_eq_set_getElem?, hc]
  exact List.map_set

theorem contenders_set (hc : e.candidate? i = some c) :
    (p.contenders e).set i (p.contender c) = p.contenders e := by
  obtain ⟨hi, hget⟩ := List.getElem?_eq_some_iff.mp (contenders_get (p := p) hc)
  rw [← hget, List.set_getElem_self]

theorem get_of_set (hc : e.candidate? i = some c) {d : Contender}
    (hw : w.contenders = (p.contenders e).set i d) : w.contenders[i]? = some d := by
  obtain ⟨hi, -⟩ := List.getElem?_eq_some_iff.mp (contenders_get (p := p) hc)
  rw [hw, List.getElem?_set_self hi]

-- A change that the contest does not see.
theorem contenders_adjust_same (hc : e.candidate? i = some c)
    {change : Candidate (LockServer.Work σ) → Candidate (LockServer.Work σ)}
    (hsame : p.contender (change c) = p.contender c) :
    p.contenders (e.adjust i change) = p.contenders e := by
  rw [contenders_adjust hc, hsame, contenders_set hc]

namespace IsOrderly

theorem inLine (ho : p.IsOrderly e) (hc : e.candidate? i = some c) (hi : i ∈ e.line) :
    c.standing = .inLine := by
  obtain ⟨x, hx, hline⟩ := ho.waits i hi
  obtain rfl := Option.some.inj (hx.symm.trans hc)
  exact hline

theorem notMem_line (ho : p.IsOrderly e) (hc : e.candidate? i = some c)
    (hl : c.standing ≠ .inLine) : i ∉ e.line := fun hi => hl (ho.inLine hc hi)

theorem keeps (ho : p.IsOrderly e) (hk : p.Keeps e.server t) :
    p.IsOrderly { e with server := t } :=
  ⟨fun i c hc => (ho.suits i c hc).imp rfl fun call work _ _ => hk call work, ho.line, ho.waits⟩

-- Where no call is with the server, its state makes no difference.
theorem of_unserved (ho : p.IsOrderly e)
    (h : ∀ c ∈ e.candidates, ∀ work, c.standing ≠ .served work) :
    p.IsOrderly { e with server := t } := by
  refine ⟨fun i c hc => ?_, ho.line, ho.waits⟩
  exact (ho.suits i c hc).imp rfl fun call work hserved =>
    absurd hserved (h c (List.mem_of_getElem? hc) work)

theorem adjust (ho : p.IsOrderly e) (hc : e.candidate? i = some c)
    {change : Candidate (LockServer.Work σ) → Candidate (LockServer.Work σ)}
    (hl : i ∈ e.line → (change c).standing = .inLine)
    (hs : p.Suits e.server (change c).elector (change c).standing) :
    p.IsOrderly (e.adjust i change) := by
  refine ⟨fun j d hd => ?_, ho.line, fun j hj => ?_⟩
  · by_cases hij : i = j
    · subst hij
      obtain rfl := Option.some.inj ((Election.candidate?_adjust_self change hc).symm.trans hd)
      exact hs
    · rw [Election.candidate?_adjust_other change hij] at hd
      exact ho.suits j d hd
  · by_cases hij : i = j
    · subst hij
      exact ⟨_, Election.candidate?_adjust_self change hc, hl hj⟩
    · rw [Election.candidate?_adjust_other change hij]
      exact ho.waits j hj

theorem of_same (ho : p.IsOrderly e) (hserver : e'.server = e.server)
    (hcandidates : e'.candidates = e.candidates) (hline : e'.line = e.line) : p.IsOrderly e' := by
  have hcandidate (i : CandidateId) : e'.candidate? i = e.candidate? i := by
    rw [Election.candidate?, hcandidates]
    rfl
  refine ⟨fun i c hc => ?_, ?_, fun i hi => ?_⟩
  · rw [hserver]
    exact ho.suits i c ((hcandidate i).symm.trans hc)
  · rw [hline]
    exact ho.line
  · rw [hcandidate]
    exact ho.waits i (hline ▸ hi)

theorem append (ho : p.IsOrderly e) (hc : c.standing = .free) :
    p.IsOrderly { e with candidates := e.candidates ++ [c] } := by
  refine ⟨fun i d hd => ?_, ho.line, fun i hi => ?_⟩
  · have hd : (e.candidates ++ [c])[i]? = some d := hd
    rw [List.getElem?_append] at hd
    split at hd
    · exact ho.suits i d hd
    · obtain rfl := List.mem_singleton.mp (List.mem_of_getElem? hd)
      rw [hc]
      exact .free
  · obtain ⟨d, hd, hline⟩ := ho.waits i hi
    obtain ⟨hlength, -⟩ := List.getElem?_eq_some_iff.mp hd
    exact ⟨d, (List.getElem?_append_left hlength).trans hd, hline⟩

-- The first in the line is let in.
theorem letIn {line : List CandidateId} (ho : p.IsOrderly e) (hline : e.line = i :: line) :
    p.IsOrderly ({ e with line }.stand i .admitted) ∧
      p.contenders ({ e with line }.stand i .admitted) = p.contenders e := by
  obtain ⟨hi, hnodup⟩ := List.nodup_cons.mp (hline ▸ ho.line)
  obtain ⟨c, hc, hstanding⟩ := ho.waits i (hline ▸ List.mem_cons_self)
  have hsuits := ho.suits i c hc
  rw [hstanding] at hsuits
  have hrest : p.IsOrderly { e with line } :=
    ⟨ho.suits, hnodup, fun j hj => ho.waits j (hline ▸ List.mem_cons_of_mem i hj)⟩
  cases hsuits with
  | inLine calls =>
      refine ⟨hrest.adjust hc (fun h => absurd h hi) (.admitted calls), ?_⟩
      apply contenders_adjust_same (e := { e with line }) hc
      simp [contender, hstanding, Standing.reply?]

end IsOrderly

-- What the scheduler keeps in its own books makes no difference.
theorem Follows.of_same (hf : p.Follows key e w) (hserver : e'.server = e.server)
    (hcandidates : e'.candidates = e.candidates) (hline : e'.line = e.line) :
    p.Follows key e' w := by
  have horderly := hf.orderly.of_same hserver hcandidates hline
  refine ⟨⟨hf.sound, hf.guarded, hf.key, horderly, hserver ▸ hf.shows⟩, ?_⟩
  rw [Portrait.contenders, hcandidates]
  exact hf.contenders

theorem Follows.get (hf : p.Follows key e w) (hc : e.candidate? i = some c) :
    w.contenders[i]? = some (p.contender c) := by
  rw [hf.contenders]
  exact contenders_get hc

theorem Accords.after {h : Contest.History} (ha : p.Accords key e w) (hr : Contest.Run w h u)
    (hh : ∀ x ∈ h, Contest.IsHeard x.2) (orderly : p.IsOrderly e') (shows : p.Shows e'.server u) :
    p.Accords key e' u :=
  ⟨hr.sound ha.sound, hr.guarded ha.sound ha.guarded hh, (hr.key ha.sound).trans ha.key, orderly,
    shows⟩

theorem Accords.next (ha : p.Accords key e w) (hb : w.Becomes u) (orderly : p.IsOrderly e')
    (shows : p.Shows e'.server u) : p.Accords key e' u := by
  obtain ⟨h, hr, hh⟩ := hb
  exact ha.after hr (fun x hx => (hh x hx).isHeard) orderly shows

theorem Follows.catches (hf : p.Follows key e w) : p.Catches key w e := ⟨w, .refl w, hf⟩

theorem Catches.bind (hc : p.Catches key w e)
    (hnext : ∀ u, p.Follows key e u → p.Catches key u e') : p.Catches key w e' := by
  obtain ⟨u, hu, hf⟩ := hc
  obtain ⟨v, hv, hf⟩ := hnext u hf
  exact ⟨v, hu.trans hv, hf⟩

-- Those who are let in get places, which no contest shows.
structure Admits (p : Portrait σ) (e e' : Election σ) (line : List CandidateId) : Prop where
  orderly : p.IsOrderly e'
  contenders : p.contenders e' = p.contenders e
  shows : ∀ w, p.Shows e.server w → p.Shows e'.server w
  keeps : p.Keeps e.server e'.server
  others : ∀ i, i ∉ line → e'.candidate? i = e.candidate? i

namespace IsFaithful

theorem admitFrom (hp : p.IsFaithful) (line : List CandidateId) (e : Election σ)
    (ho : p.IsOrderly { e with line }) : p.Admits e (Election.admitFrom line e) line := by
  induction line generalizing e with
  | nil => exact ⟨ho, rfl, fun w hs => hs, fun _ _ hc => hc, fun i _ => rfl⟩
  | cons i line ih =>
      unfold Election.admitFrom
      cases hplace : LockServer.admit? e.server with
      | none => exact ⟨ho, rfl, fun w hs => hs, fun _ _ hc => hc, fun j _ => rfl⟩
      | some server =>
          obtain ⟨hkeeps, hshows⟩ := hp.place hplace
          obtain ⟨hletIn, hsame⟩ := (ho.keeps hkeeps).letIn rfl
          obtain ⟨ready, hready⟩ := ({ e with server }.stand i .admitted).schedule_eq i
          dsimp only
          rw [hready]
          obtain ⟨horderly, hcontenders, hlater, hlaterKeeps, hothers⟩ :=
            ih { ({ e with server }.stand i .admitted) with ready } (hletIn.of_same rfl rfl rfl)
          refine ⟨horderly, hcontenders.trans hsame, fun w hs => hlater w (hshows w hs),
            fun call work hc => hlaterKeeps call work (hkeeps call work hc), ?_⟩
          intro j hj
          obtain ⟨hij, hj⟩ := not_or.mp (mt List.mem_cons.mpr hj)
          rw [hothers j hj]
          exact Election.candidate?_adjust_other _ (Ne.symm hij)

theorem setServer (hp : p.IsFaithful) (ho : p.IsOrderly { e with server := t }) :
    p.Admits { e with server := t } (e.setServer t) e.line :=
  hp.admitFrom e.line { e with server := t } ho

-- The calls that the server works on are not on a session that somebody has let go of.
theorem orderly_part (hp : p.IsFaithful) {q : Parting} {partings : List Parting}
    (hd : p.Parts key i (q :: partings) e w) :
    p.IsOrderly { e with server := LockServer.part e.server q } := by
  obtain ⟨ha, c, hc, hfree, hcontenders⟩ := hd
  refine ⟨fun j d hd => ?_, ha.orderly.line, ha.orderly.waits⟩
  refine (ha.orderly.suits j d hd).imp rfl fun call work hserved calls carries => ?_
  have hij : i ≠ j := by
    rintro rfl
    obtain rfl := Option.some.inj (hc.symm.trans hd)
    cases hfree.symm.trans hserved
  have hj : w.contenders[j]? = some (p.contender d) := by
    rw [hcontenders, List.getElem?_set_ne hij]
    exact contenders_get hd
  refine hp.carries_part carries fun hs => ?_
  have hmem : q.session ∈ (p.contender d).sessions := List.mem_append_left _
    (List.mem_append_left _ ((ha.sound.elector_of hj).mem_sessions calls hs))
  have hparting := Contender.mem_sessions_of_parting
    (c := { p.contender c with partings := q :: partings }) List.mem_cons_self
  exact hij (ha.sound.owner_unique (get_of_set hc hcontenders) hj hparting hmem)

-- A session that a candidate lets go of arrives, and places that have become free are taken.
theorem parted (hp : p.IsFaithful) {q : Parting} {partings : List Parting}
    (hd : p.Parts key i (q :: partings) e w) :
    ∃ u, w.Becomes u ∧ p.Parts key i partings (e.setServer (LockServer.part e.server q)) u := by
  have hadmits := hp.setServer (hp.orderly_part hd)
  obtain ⟨ha, c, hc, hfree, hcontenders⟩ := hd
  have hi := get_of_set hc hcontenders
  obtain ⟨keeps, u, hu, hsame, hshows⟩ := hp.part (hp.shows_contenders ha.shows
    (w.contenders.set i { p.contender c with partings })) q
  have hbecomes : w.Becomes u := ((Contest.Next.part hi rfl keeps).becomes trivial).trans hu
  have hc' : (e.setServer (LockServer.part e.server q)).candidate? i = some c :=
    (hadmits.others i (ha.orderly.notMem_line hc (by simp [hfree]))).trans hc
  refine ⟨u, hbecomes, ha.next hbecomes hadmits.orderly (hadmits.shows u hshows), c, hc', hfree, ?_⟩
  rw [hsame, Contest.contenders_dispose, hadmits.contenders, hcontenders, List.set_set]
  rfl

theorem applied (hp : p.IsFaithful) (effects : List Effect)
    (hd : p.Parts key i (effects.filterMap Effect.parting?) e w) :
    p.Catches key w (effects.foldl Election.apply e) := by
  induction effects generalizing e w with
  | nil =>
      obtain ⟨ha, c, hc, -, hcontenders⟩ := hd
      exact ⟨w, .refl w, ha, hcontenders.trans (contenders_set hc)⟩
  | cons effect effects ih =>
      cases effect with
      | gaveBack session =>
          obtain ⟨u, hu, hd⟩ := hp.parted (q := ⟨session, true⟩) hd
          obtain ⟨v, hv, hf⟩ := ih hd
          exact ⟨v, hu.trans hv, hf⟩
      | discarded session =>
          obtain ⟨u, hu, hd⟩ := hp.parted (q := ⟨session, false⟩) hd
          obtain ⟨v, hv, hf⟩ := ih hd
          exact ⟨v, hu.trans hv, hf⟩
      | reported error => exact ih hd
      | logged event =>
        obtain ⟨⟨hw, hg, hkey, ho, hs⟩, hcontenders⟩ := hd
        exact ih (e := { e with log := e.log ++ [event] })
          ⟨⟨hw, hg, hkey, ho.of_same rfl rfl rfl, hs⟩, hcontenders⟩

end IsFaithful

end Portrait

end PolyCache.Leader
