import Mathlib.Data.List.Basic
import PolyCache.Proofs.Relational.Cache

-- What it comes to when a reaper asks, when it sweeps, and when the timers of many have come due.
namespace PolyCache.RelationalCache

open Relational

variable {s s' s'' : RelationalCache} {now : Time} {c : Collection} {name : String}
  {queue woken : List Reaper} {q : Reaper}

-- What the owner says of a sweep. Where there is nobody to ask it is approved.
def verdict (owner : Option (Collection → Bool)) (c : Collection) : Bool :=
  owner.all fun approve => approve c

-- The question to the owner with the answer, if there is anyone to ask.
def question (owner : Option (Collection → Bool)) (c : Collection) : List Event :=
  match owner with
  | none => []
  | some approve => [.consulted c (approve c)]

def approves (s : RelationalCache) (c : Collection) : Bool := verdict s.approve c

-- The same schema and the same owner, and names are read in the same way.
structure Stays (s s' : RelationalCache) : Prop where
  schema : s'.schema = s.schema
  approve : s'.approve = s.approve
  naming : s'.link.naming = s.link.naming

theorem Stays.refl (s : RelationalCache) : s.Stays s := ⟨rfl, rfl, rfl⟩

theorem Stays.trans (h : s.Stays s') (h' : s'.Stays s'') : s.Stays s'' :=
  ⟨h'.schema.trans h.schema, h'.approve.trans h.approve, h'.naming.trans h.naming⟩

theorem Stays.tableName (h : s.Stays s') (name : String) :
    s'.tableName name = s.tableName name := by
  rw [RelationalCache.tableName, RelationalCache.tableName, h.schema, h.naming]

theorem Stays.approves (h : s.Stays s') (c : Collection) : s'.approves c = s.approves c := by
  rw [RelationalCache.approves, RelationalCache.approves, h.approve]

theorem Reaches.stays {server : Server} (hr : s.Reaches server s') : s.Stays s' := by
  obtain ⟨link, rfl, -, hsteady⟩ := hr
  exact ⟨rfl, rfl, hsteady.naming⟩

theorem consult_fst (s : RelationalCache) (c : Collection) : (s.consult c).1 = s.approves c := by
  unfold consult approves verdict
  cases s.approve <;> rfl

theorem consult_stays (s : RelationalCache) (c : Collection) : s.Stays (s.consult c).2 :=
  (consult_reaches s c).stays

theorem consult_trace (s : RelationalCache) (c : Collection) (name : String) :
    (s.consult c).2.link.trace name =
      s.link.trace name ++ if c.name = name then question s.approve c else [] := by
  unfold consult question
  cases s.approve with
  | none => rw [ite_self, List.append_nil]
  | some approve =>
      refine (Link.trace_record _).trans ?_
      simp only [Event.reaper?, Option.some.injEq]

-- What a sweep comes to.
def swept (now : Time) (s : RelationalCache) (c : Collection) : Except Error Reply :=
  (s.run now .sweep c [lifetime c]).1

def unexpired (now : Time) (c : Collection) (rows : Table) : Table :=
  rows.filter fun (_, row) => !row.isExpired now c.effectiveTtl.toBinary64

-- The rows that a sweep leaves. One that fails leaves them all.
def sweptRows (now : Time) (c : Collection) : Except Error Reply → Table → Table
  | .error _, rows => rows
  | .ok _, rows => unexpired now c rows

-- A sweep sends one statement, for the table of its collection, and changes no other table.
theorem sweep_sends (s : RelationalCache) (now : Time) (c : Collection) :
    ∃ events,
      Link.Sent s.link.obstacles (s.statement .sweep c) [lifetime c] (s.swept now c) events ∧
      s.Stays (s.sweep now c).1 ∧
      (∀ name, (s.sweep now c).1.link.trace name =
        s.link.trace name ++ if c.name = name then events else []) ∧
      ∀ table, (s.sweep now c).1.link.server.table table =
        if table = s.tableName c.name then
          sweptRows now c (s.swept now c) (s.link.server.table table)
        else s.link.server.table table := by
  have hhandled := Link.handled_run s.link now (s.statement .sweep c) [lifetime c]
  unfold sweep swept run
  generalize s.link.run now (s.statement .sweep c) [lifetime c] = ran at hhandled ⊢
  obtain ⟨result, link⟩ := ran
  obtain ⟨hsteady, hfailed, hdone, events, hsent, htrace⟩ := hhandled
  have hreaper : (s.statement .sweep c).reaper? = some c.name := rfl
  simp only [hreaper, Option.some.injEq] at htrace
  refine ⟨events, hsent, ⟨rfl, rfl, hsteady.naming⟩, htrace, fun table => ?_⟩
  show link.server.table table = _
  cases result with
  | error e => rw [hfailed e rfl, sweptRows, ite_self]
  | ok reply =>
      rw [(hdone reply rfl).1]
      show (s.link.server.sweep now (s.tableName c.name)
        c.effectiveTtl.toBinary64).1.table table = _
      rw [Server.sweep, Server.table_retain]
      split
      · rename_i htable
        rw [htable]
        rfl
      · rfl

theorem sweep_stays (s : RelationalCache) (now : Time) (c : Collection) :
    s.Stays (s.sweep now c).1 := by
  obtain ⟨_, -, hstays, -, -⟩ := sweep_sends s now c
  exact hstays

-- Timers have nothing to do with what has been sent.
theorem sleep_stays (s : RelationalCache) (now : Time) (q : Reaper) : s.Stays (s.sleep now q) :=
  ⟨rfl, rfl, rfl⟩

theorem wake_stays (s : RelationalCache) (now : Time) (queue : List Reaper) (q : Reaper) :
    s.Stays (s.wake now queue q).1.2 := by
  have hstays := consult_stays s q.collection
  unfold wake
  generalize s.consult q.collection = consulted at hstays ⊢
  obtain ⟨approved, s₁⟩ := consulted
  dsimp only at hstays ⊢
  split
  · exact hstays.trans (sleep_stays s₁ now q)
  · split
    · exact hstays
    · have hnaming := (Link.acquire_quiet s₁.link).steady.naming.trans hstays.naming
      generalize s₁.link.acquire = acquired at hnaming ⊢
      obtain ⟨result, link⟩ := acquired
      cases result <;> exact ⟨hstays.schema, hstays.approve, hnaming⟩

theorem wakeAll_cons (s : RelationalCache) (now : Time) (queue : List Reaper) (q : Reaper)
    (woken : List Reaper) :
    s.wakeAll now queue (q :: woken) =
      (((s.wake now queue q).1.2.wakeAll now (s.wake now queue q).1.1 woken).1,
        (s.wake now queue q).2 ++
          ((s.wake now queue q).1.2.wakeAll now (s.wake now queue q).1.1 woken).2) := rfl

theorem sweepAll_cons (s : RelationalCache) (now : Time) (q : Reaper) (queue : List Reaper) :
    s.sweepAll now (q :: queue) =
      ((((s.sweep now q.collection).1.sleep now q).sweepAll now queue).1,
        (s.sweep now q.collection).2 ++
          (((s.sweep now q.collection).1.sleep now q).sweepAll now queue).2) := rfl

theorem wakeAll_stays (s : RelationalCache) (now : Time) (queue woken : List Reaper) :
    s.Stays (s.wakeAll now queue woken).1.2 := by
  induction woken generalizing s queue with
  | nil => exact .refl s
  | cons q woken ih => exact (wake_stays s now queue q).trans (ih _ _)

theorem sweepAll_stays (s : RelationalCache) (now : Time) (queue : List Reaper) :
    s.Stays (s.sweepAll now queue).1 := by
  induction queue generalizing s with
  | nil => exact .refl s
  | cons q queue ih =>
      exact ((sweep_stays s now q.collection).trans (sleep_stays _ now q)).trans (ih _)

-- No two reapers work for collections of the same name.
def Distinct (reapers : List Reaper) : Prop := (reapers.map fun q => q.collection.name).Nodup

theorem distinct_cons :
    Distinct (q :: woken) ↔
      (∀ p ∈ woken, p.collection.name ≠ q.collection.name) ∧ Distinct woken := by
  simp [Distinct, List.nodup_cons]

theorem Distinct.sublist (hd : Distinct woken) (hs : queue.Sublist woken) : Distinct queue :=
  List.Nodup.sublist (hs.map _) hd

theorem Distinct.perm (hd : Distinct woken) (hp : queue.Perm woken) : Distinct queue :=
  (hp.map _).nodup_iff.mpr hd

-- Names are those of collections, so nothing else about the reapers matters.
theorem Distinct.of_collections (hd : Distinct woken)
    (hp : (queue.map Reaper.collection).Perm (woken.map Reaper.collection)) : Distinct queue := by
  have hnames := hp.map Collection.name
  rw [List.map_map, List.map_map] at hnames
  exact hnames.nodup_iff.mpr hd

-- The reapers whose timers have come due, and the others.
def dueReapers (s : RelationalCache) (now : Time) : List Reaper :=
  (s.reapers.filter fun q => q.due ≤ now).mergeSort fun q r => q.due ≤ r.due

def waitingReapers (s : RelationalCache) (now : Time) : List Reaper :=
  s.reapers.filter fun q => !decide (q.due ≤ now)

def asleep (s : RelationalCache) (now : Time) : RelationalCache :=
  { s with reapers := s.waitingReapers now }

theorem fire_eq (s : RelationalCache) (now : Time) :
    s.fire now =
      let woken := (s.asleep now).wakeAll now [] (s.dueReapers now)
      ((woken.1.2.sweepAll now woken.1.1).1, woken.2 ++ (woken.1.2.sweepAll now woken.1.1).2) := by
  unfold fire
  rw [List.partition_eq_filter_filter]
  rfl

theorem mem_dueReapers : q ∈ s.dueReapers now ↔ q ∈ s.reapers ∧ q.due ≤ now := by
  simp [dueReapers, List.mem_mergeSort, List.mem_filter]

theorem Distinct.due (hd : Distinct s.reapers) (now : Time) : Distinct (s.dueReapers now) :=
  (hd.sublist List.filter_sublist).perm (List.mergeSort_perm _ _)

theorem fire_stays (s : RelationalCache) (now : Time) : s.Stays (s.fire now).1 := by
  have hwaiting : s.Stays (s.asleep now) := ⟨rfl, rfl, rfl⟩
  rw [fire_eq]
  exact (hwaiting.trans (wakeAll_stays _ now _ _)).trans (sweepAll_stays _ now _)

-- A reaper that has woken is armed anew; the others go on waiting.
def rearmed (now : Time) (q : Reaper) : Reaper := .arm now q.collection q.period

def fired (now : Time) (q : Reaper) : Reaper := if q.due ≤ now then rearmed now q else q

theorem fired_collection (now : Time) (q : Reaper) : (fired now q).collection = q.collection := by
  unfold fired
  split <;> rfl

-- Each reaper that is woken is armed again, or it is in the queue and will be.
theorem wake_reapers (s : RelationalCache) (now : Time) (queue : List Reaper) (q : Reaper) :
    ((s.wake now queue q).1.2.reapers ++ (s.wake now queue q).1.1.map (rearmed now)).Perm
        (s.reapers ++ (queue.map (rearmed now) ++ [rearmed now q])) ∧
      (s.wake now queue q).1.2.collections = s.collections := by
  obtain ⟨hreapers, hcollections⟩ := consult_kept s q.collection
  unfold wake
  generalize s.consult q.collection = consulted at hreapers hcollections ⊢
  obtain ⟨approved, s₁⟩ := consulted
  dsimp only at hreapers hcollections ⊢
  rw [← hreapers, ← hcollections]
  cases approved with
  | false =>
      refine ⟨?_, rfl⟩
      show ((s₁.reapers ++ [rearmed now q]) ++ queue.map (rearmed now)).Perm _
      rw [List.append_assoc]
      exact List.perm_append_comm.append_left s₁.reapers
  | true =>
      cases queue with
      | nil =>
          generalize s₁.link.acquire = acquired
          obtain ⟨result, link⟩ := acquired
          cases result with
          | ok connection => exact ⟨.refl _, rfl⟩
          | error e =>
              refine ⟨?_, rfl⟩
              show ((s₁.reapers ++ [rearmed now q]) ++ []).Perm _
              rw [List.append_nil]
              exact .refl _
      | cons first rest =>
          refine ⟨?_, rfl⟩
          show (s₁.reapers ++ (first :: rest ++ [q]).map (rearmed now)).Perm _
          rw [List.map_append]
          exact .refl _

theorem wakeAll_reapers (s : RelationalCache) (now : Time) (queue woken : List Reaper) :
    ((s.wakeAll now queue woken).1.2.reapers ++
          (s.wakeAll now queue woken).1.1.map (rearmed now)).Perm
        (s.reapers ++ (queue.map (rearmed now) ++ woken.map (rearmed now))) ∧
      (s.wakeAll now queue woken).1.2.collections = s.collections := by
  induction woken generalizing s queue with
  | nil =>
      rw [List.map_nil, List.append_nil]
      exact ⟨.refl _, rfl⟩
  | cons q woken ih =>
      obtain ⟨hfirst, hcollections⟩ := wake_reapers s now queue q
      obtain ⟨hrest, hcollections'⟩ := ih (s.wake now queue q).1.2 (s.wake now queue q).1.1
      rw [wakeAll_cons]
      refine ⟨hrest.trans ?_, hcollections'.trans hcollections⟩
      rw [← List.append_assoc]
      refine (hfirst.append_right _).trans ?_
      simp only [List.append_assoc, List.map_cons, List.singleton_append]
      exact .refl _

theorem sweepAll_reapers (s : RelationalCache) (now : Time) (queue : List Reaper) :
    (s.sweepAll now queue).1.reapers = s.reapers ++ queue.map (rearmed now) ∧
      (s.sweepAll now queue).1.collections = s.collections := by
  induction queue generalizing s with
  | nil => exact ⟨(List.append_nil _).symm, rfl⟩
  | cons q queue ih =>
      obtain ⟨hreapers, hcollections⟩ := ih ((s.sweep now q.collection).1.sleep now q)
      rw [sweepAll_cons]
      refine ⟨hreapers.trans ?_, hcollections⟩
      show (s.reapers ++ [rearmed now q]) ++ _ = _
      rw [List.append_assoc]
      rfl

theorem perm_fired (s : RelationalCache) (now : Time) :
    (s.waitingReapers now ++ (s.dueReapers now).map (rearmed now)).Perm
      (s.reapers.map (fired now)) := by
  have hwaiting : (s.waitingReapers now).map (fired now) = s.waitingReapers now := by
    refine (List.map_congr_left fun q hq => ?_).trans (List.map_id _)
    have hlater : ¬ q.due ≤ now := by simpa using (List.mem_filter.mp hq).2
    exact if_neg hlater
  have hdue : (s.dueReapers now).map (fired now) = (s.dueReapers now).map (rearmed now) := by
    apply List.map_congr_left
    intro q hq
    exact if_pos (mem_dueReapers.mp hq).2
  have hall : (s.waitingReapers now ++ s.dueReapers now).Perm s.reapers :=
    List.perm_append_comm.trans (((List.mergeSort_perm _ _).append_right _).trans
      (List.filter_append_perm _ _))
  have hmap := hall.map (fired now)
  rw [List.map_append, hwaiting, hdue] at hmap
  exact hmap

-- No reaper is lost when timers fire, and none is new.
theorem fire_reapers (s : RelationalCache) (now : Time) :
    (s.fire now).1.reapers.Perm (s.reapers.map (fired now)) ∧
      (s.fire now).1.collections = s.collections := by
  obtain ⟨hwoken, hcollections⟩ := wakeAll_reapers (s.asleep now) now [] (s.dueReapers now)
  obtain ⟨hswept, hcollections'⟩ :=
    sweepAll_reapers ((s.asleep now).wakeAll now [] (s.dueReapers now)).1.2 now
      ((s.asleep now).wakeAll now [] (s.dueReapers now)).1.1
  rw [fire_eq]
  refine ⟨?_, hcollections'.trans hcollections⟩
  rw [hswept]
  exact hwoken.trans (perm_fired s now)

end PolyCache.RelationalCache
