import PolyCache.Proofs.Relational.Crew

-- Who has a reaper at any moment of a run, and what is recorded of the work of all reapers.
namespace PolyCache.RelationalCache

open Relational

-- What has to be recorded of the reapers of one name, entry for entry, and the collection for
-- which there is approval of a sweep that is yet to be sent. Each tick asks the owner once, about
-- its own collection. Without approval that is all; with it one sweep of its own table is sent,
-- and no other tick begins before.
inductive Account (schema name : String) : Chronicle → List Event → Option Collection → Prop where
  | start : Account schema name [] [] none
  | aside {h : Chronicle} {events : List Event} {pending : Option Collection} {e : Entry}
      (account : Account schema name h events pending) (other : e.reaper? ≠ some name) :
      Account schema name (h ++ [e]) events pending
  | refused {h : Chronicle} {events : List Event} {e : Entry} {c : Collection}
      {owner : Option (Collection → Bool)} (account : Account schema name h events none)
      (asks : e.question? = some (c, owner)) (own : c.name = name)
      (refused : verdict owner c = false) :
      Account schema name (h ++ [e]) (events ++ question owner c) none
  | approved {h : Chronicle} {events : List Event} {e : Entry} {c : Collection}
      {owner : Option (Collection → Bool)} (account : Account schema name h events none)
      (asks : e.question? = some (c, owner)) (own : c.name = name)
      (approved : verdict owner c = true) :
      Account schema name (h ++ [e]) (events ++ question owner c) (some c)
  | swept {h : Chronicle} {events sent : List Event} {c : Collection} {obstacles : Outage}
      {result : Except Error Reply} (account : Account schema name h events (some c))
      (sends : Link.Sent obstacles ⟨.sweep, schema, c.name⟩ [lifetime c] result sent) :
      Account schema name (h ++ [.swept c obstacles result]) (events ++ sent) none

def named (name : String) (reapers : List Reaper) : List Reaper :=
  reapers.filter fun q => q.collection.name == name

section Named

variable {name : String} {q : Reaper} {reapers rest : List Reaper}

theorem named_append : named name (reapers ++ rest) = named name reapers ++ named name rest :=
  List.filter_append _ _

theorem named_singleton : named name [q] = if q.collection.name = name then [q] else [] := by
  simp [named, List.filter_singleton]

theorem named_eq_nil_iff : named name reapers = [] ↔ ∀ q ∈ reapers, q.collection.name ≠ name := by
  simp [named, List.filter_eq_nil_iff]

theorem Distinct.named_length_le (hd : Distinct reapers) (name : String) :
    (named name reapers).length ≤ 1 := by
  induction reapers with
  | nil => exact Nat.zero_le 1
  | cons q reapers ih =>
      obtain ⟨hothers, hd⟩ := distinct_cons.mp hd
      by_cases hq : q.collection.name = name
      · have hnone : named name reapers = [] :=
          named_eq_nil_iff.mpr fun p hp hname => hothers p hp (hname.trans hq.symm)
        rw [named, List.filter_cons_of_pos (by simp [hq])]
        exact (congrArg List.length (congrArg (q :: ·) hnone)).le
      · rw [named, List.filter_cons_of_neg (by simp [hq])]
        exact ih hd

-- Where there is one at most, there is no order.
theorem Distinct.named_eq (hd : Distinct reapers) (hp : reapers.Perm rest) (name : String) :
    named name reapers = named name rest := by
  have hnamed : (named name reapers).Perm (named name rest) := hp.filter _
  have hlength := hd.named_length_le name
  cases hall : named name reapers with
  | nil =>
      rw [hall] at hnamed
      exact hnamed.nil_eq
  | cons q more =>
      rw [hall] at hnamed hlength
      obtain rfl : more = [] := by
        rw [List.length_cons] at hlength
        exact List.length_eq_zero_iff.mp (by omega)
      exact List.singleton_perm.mp hnamed

theorem named_length (hp : reapers.Perm (q :: rest)) (name : String) :
    (named name reapers).length = (named name [q]).length + (named name rest).length := by
  rw [← List.length_append, ← named_append]
  exact (hp.filter _).length_eq

end Named

namespace Crew

variable {w u : Crew} {now : Time} {q : Reaper} {c : Collection} {name schema : String}
  {h : History}
  {e : Entry} {rest : List Reaper}

theorem ask_cases (now : Time) (w : Crew) (q : Reaper) :
    w.ask now q =
        { w with cache := (w.cache.consult q.collection).2, approved := w.approved ++ [q] } ∧
      w.cache.approves q.collection = true ∨
    w.ask now q = { w with cache := (w.cache.consult q.collection).2.sleep now q } ∧
      w.cache.approves q.collection = false := by
  have happroves := consult_fst w.cache q.collection
  unfold ask
  generalize w.cache.consult q.collection = consulted at happroves ⊢
  obtain ⟨approved, s⟩ := consulted
  cases approved with
  | true => exact Or.inl ⟨rfl, happroves.symm⟩
  | false => exact Or.inr ⟨rfl, happroves.symm⟩

theorem collections_ask (now : Time) (w : Crew) (q : Reaper) :
    (w.ask now q).cache.collections = w.cache.collections := by
  obtain ⟨-, hcollections⟩ := consult_kept w.cache q.collection
  rcases ask_cases now w q with ⟨hask, -⟩ | ⟨hask, -⟩ <;> rw [hask] <;> exact hcollections

theorem schema_ask (now : Time) (w : Crew) (q : Reaper) :
    (w.ask now q).cache.schema = w.cache.schema := by
  have hschema := (consult_stays w.cache q.collection).schema
  rcases ask_cases now w q with ⟨hask, -⟩ | ⟨hask, -⟩ <;> rw [hask] <;> exact hschema

theorem ending_ask (now : Time) (w : Crew) (q : Reaper) : (w.ask now q).ending = w.ending := by
  rcases ask_cases now w q with ⟨hask, -⟩ | ⟨hask, -⟩ <;> rw [hask]

theorem starting_ask (now : Time) (w : Crew) (q : Reaper) :
    (w.ask now q).starting = w.starting := by
  rcases ask_cases now w q with ⟨hask, -⟩ | ⟨hask, -⟩ <;> rw [hask]

theorem reapers_ask (now : Time) (w : Crew) (q : Reaper) :
    ((w.ask now q).reapers.map Reaper.collection).Perm
      (q.collection :: w.reapers.map Reaper.collection) := by
  obtain ⟨hreapers, -⟩ := consult_kept w.cache q.collection
  rcases ask_cases now w q with ⟨hask, -⟩ | ⟨hask, -⟩
  · rw [hask, reapers, reapers, hreapers, ← List.map_cons]
    refine List.Perm.map _ ?_
    rw [← List.append_assoc, List.append_assoc]
    exact List.perm_middle
  · rw [hask]
    show ((w.starting ++ w.approved ++
      ((w.cache.consult q.collection).2.reapers ++ [rearmed now q])).map _).Perm _
    rw [hreapers, ← List.append_assoc, List.map_append]
    exact List.perm_append_singleton _ _

-- The cache as if all its reapers slept.
def gathered (w : Crew) : RelationalCache := { w.cache with reapers := w.reapers }

-- No two reapers work for collections of one name, and all for registered collections whose rows
-- have a lifetime. While the cache stands, each of these has its reaper; when it closes, those
-- that have not stopped are waited for.
structure Manned (w : Crew) (h : History) : Prop where
  distinct : Distinct w.reapers
  hired : ∀ q ∈ w.reapers, (∃ x ∈ h, x.Registers q.collection) ∧ q.collection.ttl ≠ none
  standing : w.ending = .none → w.gathered.Staffed h
  shut : w.ending ≠ .none → w.ending ≠ .dropped → w.cache.collections.entries? = none
  closing : ∀ rest, w.ending = .closing rest → ∀ q ∈ w.reapers, q.collection ∈ rest

theorem Manned.of_staffed (hs : w.gathered.Staffed h) (hending : w.ending = .none) :
    w.Manned h where
  distinct := hs.distinct
  hired q hq := by
    obtain ⟨⟨hregistered, -⟩, httl⟩ := (hs.employed q.collection).mp ⟨q, hq, rfl⟩
    exact ⟨hregistered, httl⟩
  standing _ := hs
  shut hstands := absurd hending hstands
  closing rest hclosing := by
    rw [hending] at hclosing
    cases hclosing

-- The same reapers at work for the same collections.
structure Same (w u : Crew) : Prop where
  collections : u.cache.collections = w.cache.collections
  ending : u.ending = w.ending
  reapers : (u.reapers.map Reaper.collection).Perm (w.reapers.map Reaper.collection)

theorem Manned.told (hm : w.Manned h) (hs : w.Same u) (told : Option Exchange)
    (hstanding : w.ending = .none → u.gathered.Staffed (h ++ told.toList)) :
    u.Manned (h ++ told.toList) := by
  have hmem : ∀ q ∈ u.reapers, ∃ p ∈ w.reapers, p.collection = q.collection := fun q hq =>
    List.mem_map.mp (hs.reapers.mem_iff.mp (List.mem_map_of_mem hq))
  refine ⟨hm.distinct.of_collections hs.reapers, ?_, ?_, ?_, ?_⟩
  · intro q hq
    obtain ⟨p, hp, heq⟩ := hmem q hq
    obtain ⟨⟨x, hx, hregisters⟩, httl⟩ := hm.hired p hp
    rw [← heq]
    exact ⟨⟨x, List.mem_append_left _ hx, hregisters⟩, httl⟩
  · rw [hs.ending]
    exact hstanding
  · rw [hs.ending, hs.collections]
    exact hm.shut
  · intro rest hclosing q hq
    obtain ⟨p, hp, heq⟩ := hmem q hq
    rw [← heq]
    exact hm.closing rest (hs.ending.symm.trans hclosing) p hp

-- Reapers ask, sweep and sleep again.
theorem Manned.same (hm : w.Manned h) (hs : w.Same u) :
    u.Manned (h ++ (none : Option Exchange).toList) := by
  refine hm.told hs none fun hnone => ?_
  rw [Option.toList_none, List.append_nil]
  exact (hm.standing hnone).same hs.collections hs.reapers

-- A reaper stops that has been told to.
theorem Manned.leave (hm : w.Manned h) (hreapers : w.reapers.Perm (q :: u.reapers))
    (hcollections : u.cache.collections = w.cache.collections) (hending : u.ending = w.ending)
    (htold : w.ending ≠ .none) : u.Manned h := by
  have hmem : ∀ p ∈ u.reapers, p ∈ w.reapers := fun p hp =>
    hreapers.mem_iff.mpr (List.mem_cons_of_mem q hp)
  refine ⟨?_, ?_, ?_, ?_, ?_⟩
  · exact (distinct_cons.mp (hm.distinct.perm hreapers.symm)).2
  · exact fun p hp => hm.hired p (hmem p hp)
  · exact fun hnone => absurd (hending.symm.trans hnone) htold
  · rw [hending, hcollections]
    exact hm.shut
  · exact fun rest hclosing p hp => hm.closing rest (hending.symm.trans hclosing) p (hmem p hp)

theorem reapers_of_starting (hperm : w.starting.Perm (q :: rest)) :
    w.reapers.Perm (q :: { w with starting := rest }.reapers) := by
  show (w.starting ++ w.approved ++ w.cache.reapers).Perm
    (q :: (rest ++ w.approved ++ w.cache.reapers))
  exact (hperm.append_right _).append_right _

theorem reapers_of_approved (hperm : w.approved.Perm (q :: rest)) :
    w.reapers.Perm (q :: { w with approved := rest }.reapers) := by
  show (w.starting ++ w.approved ++ w.cache.reapers).Perm
    (q :: (w.starting ++ rest ++ w.cache.reapers))
  exact ((hperm.append_left _).trans List.perm_middle).append_right _

theorem reapers_of_asleep (hperm : w.cache.reapers.Perm (q :: rest)) :
    w.reapers.Perm (q :: (w.withAsleep rest).reapers) :=
  (hperm.append_left _).trans List.perm_middle

theorem Same.ask (hperm : w.reapers.Perm (q :: u.reapers)) (now : Time)
    (hcollections : u.cache.collections = w.cache.collections) (hending : u.ending = w.ending) :
    w.Same (u.ask now q) where
  collections := (collections_ask now u q).trans hcollections
  ending := (ending_ask now u q).trans hending
  reapers := (reapers_ask now u q).trans (hperm.symm.map _)

theorem Same.of_aside {s : RelationalCache} (ha : w.cache.Aside s) :
    w.Same { w with cache := s } where
  collections := ha.collections
  ending := rfl
  reapers := by
    show ((w.starting ++ w.approved ++ s.reapers).map _).Perm _
    rw [ha.reapers]
    exact .refl _

-- Whoever can still call finds no collection once a call of `close` has begun.
theorem Manned.stands_of_enrolled (hm : w.Manned h) (hstands : w.ending ≠ .dropped)
    {s : RelationalCache} (he : Enrolled c w.cache s) : w.ending = .none := by
  by_contra hending
  have hvacant := (Registry.insert_eq_ok_iff.mp he.collections).1
  rw [Registry.ensureVacant, hm.shut hending hstands] at hvacant
  cases hvacant

theorem Manned.next (hm : w.Manned h) (hn : Next now w e u) :
    u.Manned (h ++ e.exchange?.toList) := by
  have huntold {u : Crew} (hu : u.Manned h) : u.Manned (h ++ []) := by
    rw [List.append_nil]
    exact hu
  cases hn with
  | @call request stands other stays =>
      have haside := call_aside w.cache now other stays
      have hsame : w.Same { w with cache := (w.cache.call now request).state } := .of_aside haside
      refine hm.told hsame (some _) fun hnone => ?_
      exact (hm.standing hnone).told hsame.collections hsame.reapers
        (fun c hregisters => other c hregisters.1) stays
  | @refuse c e stands refused =>
      rcases enroll_cases w.cache now c with ⟨_, -, haside⟩ | ⟨hok, -⟩
      · have hsame : w.Same { w with cache := (w.cache.enroll now c).state } := .of_aside haside
        refine hm.told hsame (some _) fun hnone => ?_
        exact (hm.standing hnone).told hsame.collections hsame.reapers
          (fun c' hregisters => nomatch hregisters.2) nofun
      · rw [refused] at hok
        cases hok
  | @enroll c stands enrolled =>
      rcases enroll_cases w.cache now c with ⟨_, herror, -⟩ | ⟨-, henrolled⟩
      · rw [enrolled] at herror
        cases herror
      · have hnone := hm.stands_of_enrolled stands henrolled
        refine .of_staffed ((hm.standing hnone).hire now henrolled.collections
          (fun period => ⟨c, period, now⟩) (fun _ => rfl) ?_) hnone
        show ((w.starting ++ spawned now c) ++ w.approved ++
          (w.cache.enroll now c).state.reapers).Perm (w.reapers ++ spawned now c)
        rw [henrolled.reapers, reapers]
        simp only [List.append_assoc]
        exact (List.perm_append_comm.trans (.of_eq (List.append_assoc _ _ _))).append_left _
  | @start q rest starts => exact hm.same (.ask (reapers_of_starting starts) now rfl rfl)
  | @fire q rest sleeps due => exact hm.same (.ask (reapers_of_asleep sleeps) now rfl rfl)
  | connect wanted connects => exact hm.same ⟨rfl, rfl, .refl _⟩
  | @sweep q rest sweeps =>
      refine hm.same ⟨rfl, rfl, ?_⟩
      have hback : (w.starting ++ rest ++ (w.cache.reapers ++ [rearmed now q])).Perm
          (rearmed now q :: (w.starting ++ rest ++ w.cache.reapers)) := by
        rw [← List.append_assoc]
        exact List.perm_append_singleton _ _
      have hleft : (q.collection ::
          (w.starting ++ rest ++ w.cache.reapers).map Reaper.collection).Perm
          (w.reapers.map Reaper.collection) := (reapers_of_approved sweeps).symm.map _
      exact (hback.map _).trans hleft
  | close stands =>
      have hs := hm.standing stands
      refine huntold ⟨hm.distinct, hm.hired, nofun, fun _ _ => rfl, ?_⟩
      rintro rest ⟨⟩ q hq
      have hregistered := ((hs.employed q.collection).mp ⟨q, hq, rfl⟩).1
      exact Registry.mem_close ((hs.registered _ _).mpr ⟨rfl, hregistered⟩)
  | stop sleeps told =>
      refine huntold (hm.leave (reapers_of_asleep sleeps) rfl rfl ?_)
      intro hnone
      rw [hnone] at told
      exact told
  | @await c rest closes gone =>
      have hshut := hm.shut (by simp [closes]) (by simp [closes])
      refine huntold ⟨hm.distinct, hm.hired, nofun, fun _ _ => hshut, ?_⟩
      rintro rest' ⟨⟩ q hq
      exact (List.mem_cons.mp (hm.closing _ closes q hq)).resolve_left (gone q hq)
  | closed closes =>
      have hshut : w.gathered.collections.entries? = none :=
        hm.shut (by simp [closes]) (by simp [closes])
      have hgone : w.reapers = [] :=
        List.eq_nil_iff_forall_not_mem.mpr fun q hq => nomatch hm.closing [] closes q hq
      have hs : w.gathered.Staffed (h ++ [⟨now, .close, .ok none⟩]) :=
        staffed_closed hshut hgone h now
      exact .of_staffed hs rfl
  | again stands told =>
      exact hm.told ⟨rfl, rfl, .refl _⟩ (some _) fun hnone => absurd hnone told
  | abandon closes =>
      have hshut := hm.shut (by simp [closes]) (by simp [closes])
      exact huntold ⟨hm.distinct, hm.hired, nofun, fun _ _ => hshut, nofun⟩
  | drop => exact huntold ⟨hm.distinct, hm.hired, nofun, fun _ hstands => absurd rfl hstands, nofun⟩
  | approve rule => exact hm.same ⟨rfl, rfl, .refl _⟩
  | fail outage => exact hm.same ⟨rfl, rfl, .refl _⟩
  | kill => exact hm.same ⟨rfl, rfl, .refl _⟩

-- The collection of this name whose reaper has approval of a sweep that it has not sent yet.
def pending (w : Crew) (name : String) : Option Collection :=
  (named name w.approved).head?.map Reaper.collection

-- No reaper has had a part in this.
structure Aside (w u : Crew) : Prop where
  schema : u.cache.schema = w.cache.schema
  approved : u.approved = w.approved
  trace : ∀ name, u.cache.link.trace name = w.cache.link.trace name

theorem acquire_aside {connection : Connection} {link : Link}
    (h : w.cache.link.acquire = (.ok connection, link)) :
    w.Aside { w with cache := { w.cache with link } } := by
  obtain ⟨-, -, htrace⟩ := Link.acquire_quiet w.cache.link
  rw [h] at htrace
  exact ⟨rfl, rfl, htrace⟩

-- An act is that of one reaper, or no reaper has a part in it; a call may spawn a new one.
theorem Next.shape (hn : Next now w e u) :
    (w.Aside u ∧ e.reaper? = none ∧ ∃ hired, u.starting = w.starting ++ hired ∧
        ∀ name, (named name hired).length = List.countP (Entry.hires name) [e]) ∨
      (∃ q rest, w.starting.Perm (q :: rest) ∧ u = ask now { w with starting := rest } q ∧
        e = .began q.collection w.cache.approve) ∨
      (∃ q rest, w.cache.reapers.Perm (q :: rest) ∧ u = ask now (w.withAsleep rest) q ∧
        e = .fired q.collection w.cache.approve) ∨
      ∃ q rest, w.approved.Perm (q :: rest) ∧
        u = ⟨(w.cache.sweep now q.collection).1.sleep now q, w.starting, rest, w.ending⟩ ∧
        e = .swept q.collection w.cache.link.obstacles (w.cache.swept now q.collection) := by
  have hnobody : ∃ hired : List Reaper, w.starting = w.starting ++ hired ∧
      ∀ name, (named name hired).length = 0 := ⟨[], (List.append_nil _).symm, fun _ => rfl⟩
  cases hn with
  | @call request stands other stays =>
      have haside := call_aside w.cache now other stays
      refine Or.inl
        ⟨⟨haside.stays.schema, rfl, haside.trace⟩, rfl, [], (List.append_nil _).symm, ?_⟩
      intro name
      cases request with
      | register c => exact absurd rfl (other c)
      | _ => rfl
  | @refuse c e stands refused =>
      rcases enroll_cases w.cache now c with ⟨_, -, haside⟩ | ⟨hok, -⟩
      · exact Or.inl ⟨⟨haside.stays.schema, rfl, haside.trace⟩, rfl, hnobody⟩
      · rw [refused] at hok
        cases hok
  | @enroll c stands enrolled =>
      rcases enroll_cases w.cache now c with ⟨_, herror, -⟩ | ⟨-, henrolled⟩
      · rw [enrolled] at herror
        cases herror
      · refine Or.inl ⟨⟨henrolled.stays.schema, rfl, henrolled.trace⟩, rfl, spawned now c, rfl, ?_⟩
        intro name
        unfold spawned
        cases httl : c.ttl with
        | none => simp [named, Entry.hires, httl]
        | some period => by_cases hname : c.name = name <;> simp [named, Entry.hires, httl, hname]
  | @start q rest starts => exact Or.inr (Or.inl ⟨q, rest, starts, rfl, rfl⟩)
  | @fire q rest sleeps due => exact Or.inr (Or.inr (Or.inl ⟨q, rest, sleeps, rfl, rfl⟩))
  | connect wanted connects => exact Or.inl ⟨acquire_aside connects, rfl, hnobody⟩
  | @sweep q rest sweeps => exact Or.inr (Or.inr (Or.inr ⟨q, rest, sweeps, rfl, rfl⟩))
  | _ => exact Or.inl ⟨⟨rfl, rfl, fun _ => rfl⟩, rfl, hnobody⟩

-- The books of all reapers are in order, and each that was hired has begun or is about to.
structure Accounts (schema : String) (w : Crew) (h : Chronicle) : Prop where
  place : w.cache.schema = schema
  account : ∀ name, Account schema name h (w.cache.link.trace name) (w.pending name)
  begun : ∀ name, h.countP (Entry.begins name) + (named name w.starting).length =
    h.countP (Entry.hires name)

section Books

variable {h : Chronicle} {events : List Event} {pending : Option Collection}

theorem Aside.account (ha : w.Aside u) (hother : e.reaper? = none)
    (account : Account schema name h (w.cache.link.trace name) (w.pending name)) :
    Account schema name (h ++ [e]) (u.cache.link.trace name) (u.pending name) := by
  rw [ha.trace, Crew.pending, ha.approved]
  exact account.aside (by simp [hother])

-- A reaper asks that has nothing else to do.
theorem account_ask (hd : Distinct (q :: w.reapers))
    (account : Account schema name h (w.cache.link.trace name) (w.pending name))
    (hasks : e.question? = some (q.collection, w.cache.approve))
    (hreaper : e.reaper? = some q.collection.name) (now : Time) :
    Account schema name (h ++ [e]) ((w.ask now q).cache.link.trace name)
      ((w.ask now q).pending name) := by
  have htrace := consult_trace w.cache q.collection name
  have hpending : (w.ask now q).pending name =
      (named name w.approved ++
        if w.cache.approves q.collection then named name [q] else []).head?.map
        Reaper.collection := by
    rcases ask_cases now w q with ⟨hask, happroves⟩ | ⟨hask, happroves⟩
    · rw [hask, Crew.pending, named_append, happroves, if_pos rfl]
    · rw [hask, Crew.pending, happroves, if_neg Bool.false_ne_true, List.append_nil]
  have hlink : (w.ask now q).cache.link = (w.cache.consult q.collection).2.link := by
    rcases ask_cases now w q with ⟨hask, -⟩ | ⟨hask, -⟩
    · rw [hask]
    · rw [hask]
      rfl
  rw [hlink, htrace, hpending]
  by_cases hname : q.collection.name = name
  · subst hname
    have hfree : named q.collection.name w.approved = [] := by
      refine named_eq_nil_iff.mpr fun p hp => (distinct_cons.mp hd).1 p ?_
      exact List.mem_append_left _ (List.mem_append_right _ hp)
    rw [Crew.pending, hfree] at account
    rw [if_pos rfl, hfree, named_singleton, if_pos rfl]
    cases happroves : w.cache.approves q.collection with
    | false => exact account.refused hasks rfl happroves
    | true => exact account.approved hasks rfl happroves
  · rw [if_neg hname, List.append_nil, named_singleton, if_neg hname, ite_self, List.append_nil]
    refine account.aside ?_
    rw [hreaper]
    exact fun heq => hname (Option.some.inj heq)

-- A reaper with approval sweeps.
theorem account_sweep (hd : Distinct w.approved) (hsweeps : w.approved.Perm (q :: rest))
    (hschema : w.cache.schema = schema)
    (account : Account schema name h (w.cache.link.trace name) (w.pending name)) (now : Time) :
    Account schema name
      (h ++ [.swept q.collection w.cache.link.obstacles (w.cache.swept now q.collection)])
      ((w.cache.sweep now q.collection).1.link.trace name)
      ((named name rest).head?.map Reaper.collection) := by
  obtain ⟨events, hsent, -, htrace, -⟩ := sweep_sends w.cache now q.collection
  rw [statement, hschema] at hsent
  rw [Crew.pending, hd.named_eq hsweeps name, ← List.singleton_append, named_append,
    named_singleton] at account
  rw [htrace]
  by_cases hname : q.collection.name = name
  · subst hname
    have hothers : named q.collection.name rest = [] :=
      named_eq_nil_iff.mpr (distinct_cons.mp (hd.perm hsweeps.symm)).1
    rw [if_pos rfl] at account ⊢
    rw [hothers]
    exact account.swept hsent
  · rw [if_neg hname] at account ⊢
    rw [List.append_nil]
    exact account.aside fun heq => hname (Option.some.inj heq)

theorem countP_began (name : String) (q : Reaper) (owner : Option (Collection → Bool)) :
    List.countP (Entry.begins name) [.began q.collection owner] = (named name [q]).length := by
  rw [named_singleton]
  by_cases hname : q.collection.name = name <;> simp [Entry.begins, hname]

theorem Accounts.next (ha : w.Accounts schema h) (hm : w.Manned h.calls) (hn : Next now w e u) :
    u.Accounts schema (h ++ [e]) := by
  obtain ⟨hschema, haccount, hbegun⟩ := ha
  rcases hn.shape with ⟨haside, hother, hired, hstarting, hnew⟩ | ⟨q, rest, hperm, rfl, rfl⟩ |
    ⟨q, rest, hperm, rfl, rfl⟩ | ⟨q, rest, hperm, rfl, rfl⟩
  · refine ⟨haside.schema.trans hschema, fun name => haside.account hother (haccount name), ?_⟩
    intro name
    have hnone : List.countP (Entry.begins name) [e] = 0 := by
      simp [Entry.begins_of_no_reaper hother]
    rw [List.countP_append, List.countP_append, hstarting, named_append, List.length_append, hnew,
      hnone, ← hbegun name]
    omega
  · have hd := hm.distinct.perm (reapers_of_starting hperm).symm
    refine ⟨(schema_ask now _ q).trans hschema, fun name => ?_, fun name => ?_⟩
    · exact account_ask hd (haccount name) rfl rfl now
    · have hsplit := named_length hperm name
      have hbefore := hbegun name
      rw [List.countP_append, List.countP_append, starting_ask, countP_began]
      show _ + _ + (named name rest).length = _ + 0
      omega
  · have hd := hm.distinct.perm (reapers_of_asleep hperm).symm
    refine ⟨(schema_ask now _ q).trans hschema, fun name => ?_, fun name => ?_⟩
    · exact account_ask hd (haccount name) rfl rfl now
    · rw [List.countP_append, List.countP_append, starting_ask]
      exact hbegun name
  · have happroved : w.approved.Sublist w.reapers :=
      (List.sublist_append_right _ _).trans (List.sublist_append_left _ _)
    have hd := hm.distinct.sublist happroved
    refine ⟨(sweep_stays w.cache now q.collection).schema.trans hschema, fun name => ?_,
      fun name => ?_⟩
    · exact account_sweep hd hperm hschema (haccount name) now
    · rw [List.countP_append, List.countP_append]
      exact hbegun name

end Books

-- Nobody is left, and nobody can come.
structure Over (w : Crew) : Prop where
  closed : w.cache.collections.entries? = none
  gone : w.reapers = []

theorem Over.next (ho : w.Over) (hn : Next now w e u) :
    u.Over ∧ ∀ name, u.cache.link.trace name = w.cache.link.trace name := by
  obtain ⟨hclosed, hgone⟩ := ho
  have hnobody (q : Reaper) (rest : List Reaper) : ¬ w.reapers.Perm (q :: rest) := by
    rw [hgone]
    exact fun hperm => nomatch hperm.nil_eq
  have haside {s : RelationalCache} (ha : w.cache.Aside s) : Over { w with cache := s } := by
    refine ⟨by rw [ha.collections, hclosed], ?_⟩
    show w.starting ++ w.approved ++ s.reapers = []
    rw [ha.reapers]
    exact hgone
  cases hn with
  | @call request stands other stays =>
      have hcall := call_aside w.cache now other stays
      exact ⟨haside hcall, hcall.trace⟩
  | @refuse c e stands refused =>
      rcases enroll_cases w.cache now c with ⟨_, -, hrefused⟩ | ⟨hok, -⟩
      · exact ⟨haside hrefused, hrefused.trace⟩
      · rw [refused] at hok
        cases hok
  | @enroll c stands enrolled =>
      rcases enroll_cases w.cache now c with ⟨_, herror, -⟩ | ⟨-, henrolled⟩
      · rw [enrolled] at herror
        cases herror
      · have hvacant := (Registry.insert_eq_ok_iff.mp henrolled.collections).1
        rw [Registry.ensureVacant, hclosed] at hvacant
        cases hvacant
  | start starts => exact absurd (reapers_of_starting starts) (hnobody _ _)
  | fire sleeps due => exact absurd (reapers_of_asleep sleeps) (hnobody _ _)
  | connect wanted connects => exact ⟨⟨hclosed, hgone⟩, (acquire_aside connects).trace⟩
  | sweep sweeps => exact absurd (reapers_of_approved sweeps) (hnobody _ _)
  | stop sleeps told => exact absurd (reapers_of_asleep sleeps) (hnobody _ _)
  | close stands => exact ⟨⟨rfl, hgone⟩, fun _ => rfl⟩
  | _ => exact ⟨⟨hclosed, hgone⟩, fun _ => rfl⟩

theorem Over.run {later : Chronicle} (ho : w.Over) (hl : Run w later u) :
    u.Over ∧ ∀ name, u.cache.link.trace name = w.cache.link.trace name := by
  induction hl with
  | rest => exact ⟨ho, fun _ => rfl⟩
  | step before next ih =>
      obtain ⟨hover, htrace⟩ := ih
      obtain ⟨hnext, hsame⟩ := hover.next next
      exact ⟨hnext, fun name => (hsame name).trans (htrace name)⟩

end Crew

end PolyCache.RelationalCache
