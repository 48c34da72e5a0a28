import PolyCache.Proofs.History
import PolyCache.Proofs.Relational.Sweeping

-- Runs of a cache whose timers fire and whose owner may change his mind, beside the plain run of
-- the same calls in which nothing fires.
namespace PolyCache.RelationalCache

open Relational

variable {s s' r r' created created' : RelationalCache} {server server' : Server} {now : Time}
  {c : Collection} {key : EntryKey} {collections : Registry Collection}

-- What happens at some time: a call, the timers that are due fire, or the owner gives another rule.
inductive Step where
  | call (request : Request)
  | fire
  | approve (rule : Collection → Bool)

def after (s : RelationalCache) : List (Time × Step) → RelationalCache
  | [] => s
  | (now, .call request) :: steps => after (s.call now request).state steps
  | (now, .fire) :: steps => after (s.fire now).1 steps
  | (_, .approve rule) :: steps => after (s.setApproval rule) steps

def answers (s : RelationalCache) : List (Time × Step) → List Answer
  | [] => []
  | (now, .call request) :: steps =>
    (s.call now request).answer :: answers (s.call now request).state steps
  | (now, .fire) :: steps => answers (s.fire now).1 steps
  | (_, .approve rule) :: steps => answers (s.setApproval rule) steps

def calls : List (Time × Step) → List (Time × Request)
  | [] => []
  | (now, .call request) :: steps => (now, request) :: calls steps
  | _ :: steps => calls steps

def IsChronological (steps : List (Time × Step)) : Prop := steps.Pairwise fun a b => a.1 ≤ b.1

theorem mem_calls {request : Request} {steps : List (Time × Step)}
    (hm : (now, request) ∈ calls steps) : (now, .call request) ∈ steps := by
  induction steps with
  | nil => cases hm
  | cons first steps ih =>
      obtain ⟨time, step⟩ := first
      cases step with
      | call asked =>
          rcases List.mem_cons.mp hm with heq | hm
          · cases heq
            exact List.mem_cons_self
          · exact List.mem_cons_of_mem _ (ih hm)
      | fire => exact List.mem_cons_of_mem _ (ih hm)
      | approve rule => exact List.mem_cons_of_mem _ (ih hm)

theorem IsChronological.calls {steps : List (Time × Step)} (hclock : IsChronological steps) :
    (calls steps).Pairwise fun a b => a.1 ≤ b.1 := by
  induction steps with
  | nil => exact List.Pairwise.nil
  | cons first steps ih =>
      obtain ⟨time, step⟩ := first
      obtain ⟨hfirst, hrest⟩ := List.pairwise_cons.mp hclock
      cases step with
      | call request =>
          refine List.pairwise_cons.mpr ⟨?_, ih hrest⟩
          rintro ⟨later, asked⟩ hm
          exact hfirst _ (mem_calls hm)
      | fire => exact ih hrest
      | approve rule => exact ih hrest

-- A new cache over a server with whatever content, which reads names in this way.
def opened (naming : Naming) (schema : String) (approve : Option (Collection → Bool))
    (server : Server) : RelationalCache :=
  ⟨schema, approve, .empty, [], { Link.new with server, naming }⟩

-- The same over a server for which each spelling is a name of its own.
def start (schema : String) (approve : Option (Collection → Bool)) (server : Server) :
    RelationalCache :=
  ⟨schema, approve, .empty, [], { Link.new with server }⟩

theorem new_eq_start {schema : String} {approve : Option (Collection → Bool)}
    (hnew : new schema approve = .ok s) : s = start schema approve .empty := by
  unfold new at hnew
  split at hnew
  · cases hnew
  · cases hnew
    rfl

theorem isSound_start (schema : String) (approve : Option (Collection → Bool))
    (ho : server.Ordered) : (start schema approve server).IsSound :=
  ⟨rfl, rfl, ho, by simp [start], by simp [start]⟩

theorem alike_start (schema : String) (approve approve' : Option (Collection → Bool))
    (server : Server) :
    (start schema approve server).Alike now (start schema approve' server) :=
  ⟨rfl, rfl, fun _ _ _ => Or.inl rfl, fun _ _ _ => rfl⟩

-- Two caches stay alike if each row that changes becomes the same in both.
theorem Alike.reach (h : s.Alike now r) (hs : s.Reaches server s') (hr : r.Reaches server' r')
    (hrows : ∀ name key, s'.row? name key = s.row? name key ∧ r'.row? name key = r.row? name key ∨
      s'.row? name key = r'.row? name key) : s'.Alike now r' := by
  obtain ⟨link, rfl, -, -⟩ := hs
  obtain ⟨link', rfl, -, -⟩ := hr
  refine ⟨h.schema, h.collections, ?_, ?_⟩
  · intro c hc key
    rcases hrows c.name key with ⟨hs, hr⟩ | heq
    · rw [hs, hr]
      exact h.registered c hc key
    · exact Or.inl heq
  · intro name hname key
    rcases hrows name key with ⟨hs, hr⟩ | heq
    · rw [hs, hr]
      exact h.vacant name hname key
    · exact heq

theorem alike_set (h : s.Alike now r) (hs : s.IsSound) (hr : r.IsSound) (key : EntryKey)
    (value : Value) :
    (s.set now key value).answer = (r.set now key value).answer ∧
      (s.set now key value).state.Alike now (r.set now key value).state := by
  have hsame := h.collections
  cases hc : s.collections.get key.collection with
  | error e =>
      have hc' : r.collections.get key.collection = .error e := hsame ▸ hc
      simp only [set, hc, hc']
      exact ⟨rfl, h⟩
  | ok c =>
      have hc' : r.collections.get key.collection = .ok c := hsame ▸ hc
      cases he : c.type.encode value with
      | error e =>
          simp only [set, hc, hc', he]
          exact ⟨rfl, h⟩
      | ok bytes =>
          obtain ⟨hanswer, hreaches⟩ := set_spec hs.healthy now hc he
          obtain ⟨hanswer', hreaches'⟩ := set_spec hr.healthy now hc' he
          refine ⟨hanswer.trans hanswer'.symm, h.reach hreaches hreaches' fun name k => ?_⟩
          rw [row?_set hs now hc he, row?_set hr now hc' he]
          split
          · exact Or.inr rfl
          · exact Or.inl ⟨rfl, rfl⟩

theorem alike_del (h : s.Alike now r) (hs : s.IsSound) (hr : r.IsSound) (key : EntryKey) :
    (s.del now key).answer = (r.del now key).answer ∧
      (s.del now key).state.Alike now (r.del now key).state := by
  have hsame := h.collections
  cases hc : s.collections.get key.collection with
  | error e =>
      have hc' : r.collections.get key.collection = .error e := hsame ▸ hc
      simp only [del, hc, hc']
      exact ⟨rfl, h⟩
  | ok c =>
      have hc' : r.collections.get key.collection = .ok c := hsame ▸ hc
      obtain ⟨hanswer, hreaches⟩ := del_spec hs.healthy now hc
      obtain ⟨hanswer', hreaches'⟩ := del_spec hr.healthy now hc'
      refine ⟨hanswer.trans hanswer'.symm, h.reach hreaches hreaches' fun name k => ?_⟩
      rw [row?_del hs now hc, row?_del hr now hc']
      split
      · exact Or.inr rfl
      · exact Or.inl ⟨rfl, rfl⟩

theorem alike_get (h : s.Alike now r) (hs : s.IsSound) (hr : r.IsSound) (key : EntryKey) :
    (s.get now key).answer = (r.get now key).answer ∧
      (s.get now key).state.Alike now (r.get now key).state := by
  have hsame := h.collections
  cases hc : s.collections.get key.collection with
  | error e =>
      have hc' : r.collections.get key.collection = .error e := hsame ▸ hc
      simp only [get, hc, hc']
      exact ⟨rfl, h⟩
  | ok c =>
      have hc' : r.collections.get key.collection = .ok c := hsame ▸ hc
      obtain ⟨hanswer, hreaches⟩ := get_spec hs.healthy now hc
      obtain ⟨hanswer', hreaches'⟩ := get_spec hr.healthy now hc'
      have hnamed : s.collections.get c.name = .ok c := by
        rw [hs.named _ c hc]
        exact hc
      rw [hanswer, hanswer', h.visible_eq hnamed]
      refine ⟨rfl, h.reach hreaches hreaches' fun name k => Or.inl ?_⟩
      exact ⟨hreaches.row?_eq name k, hreaches'.row?_eq name k⟩

theorem not_registered (hname : s.checkName c.name = .ok ()) :
    s.collections.get c.name = .error (.usage (.notRegistered c.name)) := by
  unfold checkName at hname
  split at hname
  · cases hname
  · exact Registry.get_of_vacant hname

theorem get_created (hinsert : s.collections.insert c.name c = .ok collections)
    (hcreated : { s with collections }.Reaches server created) (name : String) :
    created.collections.get name = if name = c.name then .ok c else s.collections.get name := by
  obtain ⟨link, rfl, -, -⟩ := hcreated
  exact Registry.get_insert hinsert name

theorem sound_created (hs : s.IsSound) (hname : s.checkName c.name = .ok ())
    (hinsert : s.collections.insert c.name c = .ok collections)
    (hcreated :
      { s with collections }.Reaches (s.link.server.create (s.tableName c.name)) created) :
    created.IsSound := by
  have hget := get_created hinsert hcreated
  obtain ⟨link, rfl, hserver, hsteady⟩ := hcreated
  refine ⟨hsteady.outage.trans hs.healthy, hsteady.naming.trans hs.spelled, ?_, ?_, ?_⟩
  · show link.server.Ordered
    rw [hserver]
    exact hs.ordered.create _
  · intro name c' hc'
    rw [hget] at hc'
    split at hc'
    · rename_i hn
      cases hc'
      exact hn.symm
    · exact hs.named name c' hc'
  · intro q hq
    have hold := hs.reapers q hq
    rw [hget, if_neg]
    · exact hold
    · intro hn
      rw [hn, not_registered hname] at hold
      cases hold

theorem alike_created (h : s.Alike now r) (hname : s.checkName c.name = .ok ())
    (hinsert : s.collections.insert c.name c = .ok collections)
    (hs : { s with collections }.Reaches (s.link.server.create (s.tableName c.name)) created)
    (hr : { r with collections }.Reaches (r.link.server.create (r.tableName c.name)) created') :
    created.Alike now created' := by
  have hget := get_created hinsert hs
  have hrow (name key : String) : created.row? name key = s.row? name key := by
    rw [hs.row?_eq, Server.row?_create]
    rfl
  have hrow' (name key : String) : created'.row? name key = r.row? name key := by
    rw [hr.row?_eq, Server.row?_create]
    rfl
  refine ⟨?_, ?_, ?_, ?_⟩
  · obtain ⟨link, rfl, -, -⟩ := hs
    obtain ⟨link', rfl, -, -⟩ := hr
    exact h.schema
  · obtain ⟨link, rfl, -, -⟩ := hs
    obtain ⟨link', rfl, -, -⟩ := hr
    rfl
  · intro c' hc' key
    rw [hget] at hc'
    rw [hrow, hrow']
    split at hc'
    · rename_i hn
      rw [hn]
      exact Or.inl (h.vacant _ (not_registered hname) key)
    · exact h.registered c' hc' key
  · intro name hn key
    rw [hget] at hn
    rw [hrow, hrow']
    split at hn
    · cases hn
    · exact h.vacant name hn key

-- After the table has been created the new reaper may sweep, or not.
theorem registered_unnoticed (hs : s.IsSound) (hname : s.checkName c.name = .ok ()) (now : Time) :
    ∃ collections created,
      s.collections.insert c.name c = .ok collections ∧
      { s with collections }.Reaches (s.link.server.create (s.tableName c.name)) created ∧
      (s.register now c).answer = .ok none ∧
      created.Unnoticed now (s.register now c).state := by
  obtain ⟨collections, created, hinsert, hcreated, hanswer, hstate⟩ :=
    register_spec hs.healthy now hname
  have hsound := sound_created hs hname hinsert hcreated
  refine ⟨collections, created, hinsert, hcreated, hanswer, ?_⟩
  rw [hstate]
  cases c.ttl with
  | none => exact .refl hsound
  | some period =>
      have hget := get_created hinsert hcreated c.name
      rw [if_pos rfl] at hget
      exact startReaper_unnoticed hsound hget period

theorem alike_register (h : s.Alike now r) (hs : s.IsSound) (hr : r.IsSound) (c : Collection) :
    (s.register now c).answer = (r.register now c).answer ∧
      (s.register now c).state.Alike now (r.register now c).state := by
  have hcheck : r.checkName c.name = s.checkName c.name := by
    unfold checkName
    rw [h.collections]
  cases hname : s.checkName c.name with
  | error e =>
      rw [register_refused hname, register_refused (hcheck.trans hname)]
      exact ⟨rfl, h⟩
  | ok checked =>
      obtain ⟨collections, created, hinsert, hcreated, hanswer, hstate⟩ :=
        registered_unnoticed hs hname now
      obtain ⟨collections', created', hinsert', hcreated', hanswer', hstate'⟩ :=
        registered_unnoticed hr (hcheck.trans hname) now
      have hsame : collections' = collections := by
        rw [← h.collections, hinsert] at hinsert'
        exact (Except.ok.inj hinsert').symm
      subst hsame
      have hcreatedAlike := alike_created h hname hinsert hcreated hcreated'
      exact ⟨hanswer.trans hanswer'.symm,
        hstate.alike.symm.trans (hcreatedAlike.trans hstate'.alike)⟩

theorem alike_close (h : s.Alike now r) :
    s.close.answer = r.close.answer ∧ s.close.state.Alike now r.close.state :=
  ⟨rfl, h.schema, rfl, nofun, nofun⟩

theorem Alike.call (h : s.Alike now r) (hs : s.IsSound) (hr : r.IsSound) (request : Request) :
    (s.call now request).answer = (r.call now request).answer ∧
      (s.call now request).state.Alike now (r.call now request).state := by
  cases request with
  | register c => exact alike_register h hs hr c
  | set key value => exact alike_set h hs hr key value
  | get key => exact alike_get h hs hr key
  | del key => exact alike_del h hs hr key
  | close => exact alike_close h

theorem IsSound.call (hs : s.IsSound) (now : Time) (request : Request) :
    (s.call now request).state.IsSound := by
  cases request with
  | register c =>
      show (s.register now c).state.IsSound
      cases hname : s.checkName c.name with
      | error e =>
          rw [register_refused hname]
          exact hs
      | ok checked =>
          obtain ⟨_, _, _, _, _, hstate⟩ := registered_unnoticed hs hname now
          exact hstate.sound
  | set key value =>
      show (s.set now key value).state.IsSound
      unfold set
      split
      · exact hs
      · split
        · exact hs
        · exact (change_spec hs.healthy now _ _ _).2.sound hs (hs.ordered.execute _ _ _)
  | get key =>
      show (s.get now key).state.IsSound
      cases hc : s.collections.get key.collection with
      | error e =>
          simp only [get, hc]
          exact hs
      | ok c => exact (get_spec hs.healthy now hc).2.sound hs hs.ordered
  | del key =>
      show (s.del now key).state.IsSound
      unfold del
      split
      · exact hs
      · exact (change_spec hs.healthy now _ _ _).2.sound hs (hs.ordered.execute _ _ _)
  | close => exact ⟨hs.healthy, hs.spelled, hs.ordered, nofun, nofun⟩

theorem unnoticed_setApproval (hs : s.IsSound) (rule : Collection → Bool) (now : Time) :
    s.Unnoticed now (s.setApproval rule) :=
  ⟨⟨hs.healthy, hs.spelled, hs.ordered, hs.named, hs.reapers⟩,
    ⟨rfl, rfl, fun _ _ _ => Or.inl rfl, fun _ _ _ => rfl⟩⟩

theorem IsSound.after (hs : s.IsSound) (steps : List (Time × Step)) : (s.after steps).IsSound := by
  induction steps generalizing s with
  | nil => exact hs
  | cons first steps ih =>
      obtain ⟨now, step⟩ := first
      cases step with
      | call request => exact ih (hs.call now request)
      | fire => exact ih (fire_unnoticed hs now).sound
      | approve rule => exact ih (unnoticed_setApproval hs rule now).sound

-- A run answers as the plain run of its calls on any cache that was alike at its beginning.
theorem answers_eq_history (h : s.Alike now r) (hs : s.IsSound) (hr : r.IsSound)
    {steps : List (Time × Step)} (hnow : ∀ x ∈ steps, now ≤ x.1) (hclock : IsChronological steps) :
    s.answers steps = (Backend.history r (calls steps)).map Exchange.answer := by
  -- the plain run moves with the calls only, and stays alike meanwhile
  induction steps generalizing s r now with
  | nil => rfl
  | cons first steps ih =>
      obtain ⟨time, step⟩ := first
      obtain ⟨hfirst, hrest⟩ := List.pairwise_cons.mp hclock
      have halike := h.later (hnow _ List.mem_cons_self)
      cases step with
      | call request =>
          obtain ⟨hanswer, hafter⟩ := halike.call hs hr request
          exact congrArg₂ List.cons hanswer
            (ih hafter (hs.call time request) (hr.call time request) hfirst hrest)
      | fire =>
          have hfire := fire_unnoticed hs time
          exact ih (hfire.alike.symm.trans halike) hfire.sound hr hfirst hrest
      | approve rule =>
          have hrule := unnoticed_setApproval hs rule time
          exact ih (hrule.alike.symm.trans halike) hrule.sound hr hfirst hrest

-- What is visible at some instant outlasts every change that is not noticed at that instant.
theorem Unnoticed.row?_eq (h : s.Unnoticed now s') (hc : s.collections.get c.name = .ok c)
    {k : String} {row : Row} (hrow : visible now c (s.row? c.name k) = some row) :
    s'.row? c.name k = some row := by
  rcases h.alike.registered c hc k with heq | ⟨hhidden, -⟩
  · rw [← heq]
    exact (Option.filter_eq_some_iff.mp hrow).1
  · rw [hhidden] at hrow
    cases hrow

theorem row?_register (hs : s.IsSound) (now : Time) (c : Collection) {k : String} {row : Row}
    (hrow : visible now c (s.row? c.name k) = some row) :
    (s.register now c).state.row? c.name k = some row := by
  cases hname : s.checkName c.name with
  | error e =>
      rw [register_refused hname]
      exact (Option.filter_eq_some_iff.mp hrow).1
  | ok checked =>
      obtain ⟨collections, created, hinsert, hcreated, -, hstate⟩ :=
        registered_unnoticed hs hname now
      have hget := get_created hinsert hcreated c.name
      rw [if_pos rfl] at hget
      apply hstate.row?_eq hget
      rw [hcreated.row?_eq, Server.row?_create]
      exact hrow

end PolyCache.RelationalCache
