import PolyCache.Proofs.Relational.Reapers

-- What a cache over a sound server shows of one collection depends on the requests about it only,
-- with reapers at work for all of them.
namespace PolyCache.RelationalCache

open Relational

variable {s s' r r' : RelationalCache} {server server' : Server} {now : Time} {c : Collection}
  {name : String} {request : Request} {key : EntryKey} {value : Value} {q : Reaper}
  {queue woken : List Reaper}

-- The reapers of the collections of this name.
def reapersOf (s : RelationalCache) (name : String) : List Reaper :=
  s.reapers.filter fun q => q.collection.name == name

-- All that there is of one collection: whether it is registered, its rows, and its reaper.
structure Same (name : String) (s r : RelationalCache) : Prop where
  schema : s.schema = r.schema
  approve : s.approve = r.approve
  collection : s.collections.get name = r.collections.get name
  rows : s.rows name = r.rows name
  reapers : (s.reapersOf name).Perm (r.reapersOf name)

theorem Same.refl (name : String) (s : RelationalCache) : Same name s s :=
  ⟨rfl, rfl, rfl, rfl, .refl _⟩

theorem Same.symm (h : Same name s r) : Same name r s :=
  ⟨h.schema.symm, h.approve.symm, h.collection.symm, h.rows.symm, h.reapers.symm⟩

theorem Same.trans (h : Same name s s') (h' : Same name s' r) : Same name s r :=
  ⟨h.schema.trans h'.schema, h.approve.trans h'.approve, h.collection.trans h'.collection,
    h.rows.trans h'.rows, h.reapers.trans h'.reapers⟩

theorem Same.approves (h : Same name s r) (c : Collection) : s.approves c = r.approves c := by
  rw [RelationalCache.approves, RelationalCache.approves, h.approve]

-- Two caches that differ in their links only afterwards.
theorem Same.reach (h : Same name s r) (hs : s.Reaches server s') (hr : r.Reaches server' r')
    (hrows : s'.rows name = r'.rows name) : Same name s' r' := by
  obtain ⟨link, rfl, -, -⟩ := hs
  obtain ⟨link', rfl, -, -⟩ := hr
  exact ⟨h.schema, h.approve, h.collection, hrows, h.reapers⟩

theorem Reaches.same (hs : s.Reaches server s') (hrows : s'.rows name = s.rows name) :
    Same name s' s := by
  obtain ⟨link, rfl, -, -⟩ := hs
  exact ⟨rfl, rfl, rfl, hrows, .refl _⟩

theorem rows_set {bytes : Bytes} (hs : s.IsSound)
    (hc : s.collections.get key.collection = .ok c) (he : c.type.encode value = .ok bytes)
    (name : String) :
    (s.set now key value).state.rows name =
      if name = key.collection then
        Entries.insert Entries.stringLess key.key ⟨some bytes, now⟩ (s.rows key.collection)
      else s.rows name := by
  have hname := hs.named _ _ hc
  rw [(set_spec hs.healthy now hc he).2.rows_eq, Server.upsert, Server.table_putTable]
  simp only [tableName_inj hs.spelled, hname]
  rfl

theorem rows_del (hs : s.IsSound) (hc : s.collections.get key.collection = .ok c) (name : String) :
    (s.del now key).state.rows name =
      if name = key.collection then
        (s.rows key.collection).filter fun (k, _) => !(k == key.key)
      else s.rows name := by
  have hname := hs.named _ _ hc
  rw [(del_spec hs.healthy now hc).2.rows_eq, Server.delete, Server.table_retain]
  simp only [tableName_inj hs.spelled, hname]
  rfl

theorem rows_get (hs : s.IsSound) (hc : s.collections.get key.collection = .ok c) (name : String) :
    (s.get now key).state.rows name = s.rows name :=
  (get_spec hs.healthy now hc).2.rows_eq name

theorem rows_sweep (hs : s.IsSound) (now : Time) (c : Collection) (name : String) :
    (s.sweep now c).1.rows name =
      if name = c.name then unexpired now c (s.rows c.name) else s.rows name := by
  rw [(sweep_spec hs.healthy now c).rows_eq, Server.sweep, Server.table_retain]
  simp only [tableName_inj hs.spelled]
  rfl

theorem rows_consult (s : RelationalCache) (c : Collection) (name : String) :
    (s.consult c).2.rows name = s.rows name :=
  (consult_reaches s c).rows_eq name

-- A new reaper sweeps its own table at once, if it may.
theorem rows_startReaper (hs : s.IsSound) (now : Time) (c : Collection) (period : Duration)
    (name : String) :
    (s.startReaper now c period).1.rows name =
      if name = c.name ∧ s.approves c = true then unexpired now c (s.rows c.name)
      else s.rows name := by
  have happroves := consult_fst s c
  have hsound : (s.consult c).2.IsSound := (consult_reaches s c).sound hs hs.ordered
  have hrows := rows_consult s c
  unfold startReaper
  generalize s.consult c = consulted at happroves hsound hrows ⊢
  obtain ⟨approved, s₁⟩ := consulted
  dsimp only at happroves hsound hrows ⊢
  rw [← happroves, ← hrows, ← hrows]
  cases approved with
  | false => exact (if_neg fun h => Bool.false_ne_true h.2).symm
  | true =>
      simp only [and_true]
      exact rows_sweep hsound now c name

theorem rows_register (hs : s.IsSound) (now : Time) (hname : s.checkName c.name = .ok ())
    (name : String) :
    (s.register now c).state.rows name =
      if name = c.name ∧ c.ttl ≠ none ∧ s.approves c = true then unexpired now c (s.rows c.name)
      else s.rows name := by
  obtain ⟨collections, created, hinsert, hcreated, -, hstate⟩ := register_spec hs.healthy now hname
  have hsound := sound_created hs hname hinsert hcreated
  have happroves : created.approves c = s.approves c := hcreated.stays.approves c
  have hrows (name : String) : created.rows name = s.rows name := by
    rw [hcreated.rows_eq, Server.table_create]
    rfl
  rw [hstate]
  cases httl : c.ttl with
  | none => simp [hrows]
  | some period =>
      dsimp only
      rw [rows_startReaper hsound, happroves, hrows, hrows]
      simp

-- A name that passes the check is registered, for no statement fails.
theorem registered_of_checked (hs : s.IsSound) (now : Time) (hname : s.checkName c.name = .ok ()) :
    (s.register now c).answer = .ok none ∧
      Succeeded now c s (s.register now c).state := by
  obtain ⟨_, _, -, -, hanswer, -⟩ := register_spec hs.healthy now hname
  rcases register_cases s now c with ⟨e, herror, -⟩ | hsucceeded
  · rw [hanswer] at herror
    cases herror
  · exact hsucceeded

-- A request about another collection leaves this one as it is.
theorem call_other (hs : s.IsSound) (h : request.concerns name = false) (now : Time) :
    Same name (s.call now request).state s := by
  cases request with
  | register c =>
      have hne := Request.ne_of_not_concerns h rfl
      show Same name (s.register now c).state s
      cases hname : s.checkName c.name with
      | error e =>
          rw [register_refused hname]
          exact .refl name s
      | ok checked =>
          obtain ⟨-, hsucceeded⟩ := registered_of_checked hs now hname
          refine ⟨hsucceeded.stays.schema, hsucceeded.stays.approve, ?_, ?_, ?_⟩
          · exact (Registry.get_insert hsucceeded.collections name).trans (if_neg hne)
          · exact (rows_register hs now hname name).trans (if_neg fun h => hne h.1)
          · apply List.Perm.of_eq
            show (s.register now c).state.reapers.filter _ = s.reapers.filter _
            rw [hsucceeded.reapers, List.filter_append]
            cases c.ttl <;> simp [Reaper.arm, Ne.symm hne]
  | set key value =>
      have hne := Request.ne_of_not_concerns h rfl
      show Same name (s.set now key value).state s
      cases hc : s.collections.get key.collection with
      | error e =>
          simp only [set, hc]
          exact .refl name s
      | ok c =>
          cases he : c.type.encode value with
          | error e =>
              simp only [set, hc, he]
              exact .refl name s
          | ok bytes =>
              exact (set_spec hs.healthy now hc he).2.same
                ((rows_set hs hc he name).trans (if_neg hne))
  | get key =>
      show Same name (s.get now key).state s
      cases hc : s.collections.get key.collection with
      | error e =>
          simp only [get, hc]
          exact .refl name s
      | ok c => exact (get_spec hs.healthy now hc).2.same (rows_get hs hc name)
  | del key =>
      have hne := Request.ne_of_not_concerns h rfl
      show Same name (s.del now key).state s
      cases hc : s.collections.get key.collection with
      | error e =>
          simp only [del, hc]
          exact .refl name s
      | ok c =>
          exact (del_spec hs.healthy now hc).2.same ((rows_del hs hc name).trans (if_neg hne))
  | close => cases h

-- What a request answers and leaves of its collection depends on nothing else.
theorem Same.set (h : Same key.collection s r) (hs : s.IsSound) (hr : r.IsSound) (now : Time)
    (value : Value) :
    (s.set now key value).answer = (r.set now key value).answer ∧
      Same key.collection (s.set now key value).state (r.set now key value).state := by
  cases hc : s.collections.get key.collection with
  | error e =>
      have hc' := h.collection.symm.trans hc
      simp only [RelationalCache.set, hc, hc']
      exact ⟨rfl, h⟩
  | ok c =>
      have hc' := h.collection.symm.trans hc
      cases he : c.type.encode value with
      | error e =>
          simp only [RelationalCache.set, hc, hc', he]
          exact ⟨rfl, h⟩
      | ok bytes =>
          obtain ⟨hanswer, hreaches⟩ := set_spec hs.healthy now hc he
          obtain ⟨hanswer', hreaches'⟩ := set_spec hr.healthy now hc' he
          refine ⟨hanswer.trans hanswer'.symm, h.reach hreaches hreaches' ?_⟩
          rw [rows_set hs hc he, rows_set hr hc' he, h.rows]

theorem Same.del (h : Same key.collection s r) (hs : s.IsSound) (hr : r.IsSound) (now : Time) :
    (s.del now key).answer = (r.del now key).answer ∧
      Same key.collection (s.del now key).state (r.del now key).state := by
  cases hc : s.collections.get key.collection with
  | error e =>
      have hc' := h.collection.symm.trans hc
      simp only [RelationalCache.del, hc, hc']
      exact ⟨rfl, h⟩
  | ok c =>
      have hc' := h.collection.symm.trans hc
      obtain ⟨hanswer, hreaches⟩ := del_spec hs.healthy now hc
      obtain ⟨hanswer', hreaches'⟩ := del_spec hr.healthy now hc'
      refine ⟨hanswer.trans hanswer'.symm, h.reach hreaches hreaches' ?_⟩
      rw [rows_del hs hc, rows_del hr hc', h.rows]

theorem Same.get (h : Same key.collection s r) (hs : s.IsSound) (hr : r.IsSound) (now : Time) :
    (s.get now key).answer = (r.get now key).answer ∧
      Same key.collection (s.get now key).state (r.get now key).state := by
  cases hc : s.collections.get key.collection with
  | error e =>
      have hc' := h.collection.symm.trans hc
      simp only [RelationalCache.get, hc, hc']
      exact ⟨rfl, h⟩
  | ok c =>
      have hc' := h.collection.symm.trans hc
      obtain ⟨hanswer, hreaches⟩ := get_spec hs.healthy now hc
      obtain ⟨hanswer', hreaches'⟩ := get_spec hr.healthy now hc'
      constructor
      · rw [hanswer, hanswer', row?_eq, row?_eq, hs.named _ _ hc, h.rows]
      · refine h.reach hreaches hreaches' ?_
        rw [rows_get hs hc, rows_get hr hc', h.rows]

theorem Same.register (h : Same c.name s r) (hs : s.IsSound) (hr : r.IsSound) (now : Time) :
    (s.register now c).answer = (r.register now c).answer ∧
      Same c.name (s.register now c).state (r.register now c).state := by
  have hcheck : r.checkName c.name = s.checkName c.name := by
    have hsame : r.collections.get c.name = (s.collections.get c.name).map id := by
      rw [Except.map_id, h.collection]
      rfl
    rw [checkName, checkName, Registry.ensureVacant_eq id hsame]
  cases hname : s.checkName c.name with
  | error e =>
      rw [register_refused hname, register_refused (hcheck.trans hname)]
      exact ⟨rfl, h⟩
  | ok checked =>
      have hdone := registered_of_checked hs now hname
      have hdone' := registered_of_checked hr now (hcheck.trans hname)
      obtain ⟨hanswer, hsucceeded⟩ := hdone
      obtain ⟨hanswer', hsucceeded'⟩ := hdone'
      have hstays := hsucceeded.stays
      have hstays' := hsucceeded'.stays
      refine ⟨hanswer.trans hanswer'.symm, ?_, ?_, ?_, ?_, ?_⟩
      · rw [hstays.schema, hstays'.schema, h.schema]
      · rw [hstays.approve, hstays'.approve, h.approve]
      · rw [Registry.get_insert hsucceeded.collections, Registry.get_insert hsucceeded'.collections,
          if_pos rfl, if_pos rfl]
      · rw [rows_register hs now hname, rows_register hr now (hcheck.trans hname), h.approves,
          h.rows]
      · rw [reapersOf, reapersOf, hsucceeded.reapers, hsucceeded'.reapers, List.filter_append,
          List.filter_append]
        exact h.reapers.append_right _

-- Closing takes all collections away, and all reapers.
theorem Same.close (h : Same name s r) :
    s.close.answer = r.close.answer ∧ Same name s.close.state r.close.state :=
  ⟨rfl, h.schema, h.approve, rfl, h.rows, .refl _⟩

theorem Same.call (h : Same name s r) (hs : s.IsSound) (hr : r.IsSound) (now : Time)
    (hc : request.concerns name = true) :
    (s.call now request).answer = (r.call now request).answer ∧
      Same name (s.call now request).state (r.call now request).state := by
  cases request with
  | register c =>
      obtain rfl := Request.eq_of_concerns hc rfl
      exact h.register hs hr now
  | set key value =>
      obtain rfl := Request.eq_of_concerns hc rfl
      exact h.set hs hr now value
  | get key =>
      obtain rfl := Request.eq_of_concerns hc rfl
      exact h.get hs hr now
  | del key =>
      obtain rfl := Request.eq_of_concerns hc rfl
      exact h.del hs hr now
  | close => exact h.close

theorem reapersOf_fire (s : RelationalCache) (now : Time) (name : String) :
    ((s.fire now).1.reapersOf name).Perm ((s.reapersOf name).map (fired now)) := by
  have hfired := (fire_reapers s now).1.filter fun q => q.collection.name == name
  rw [List.filter_map] at hfired
  simp only [Function.comp_def, fired_collection] at hfired
  exact hfired

-- Those that are woken queue if they may sweep, and a connection can be had.
theorem wake_queue (hs : s.IsSound) (now : Time) (queue : List Reaper) (q : Reaper) :
    (s.wake now queue q).1.1 = (if s.approves q.collection then queue ++ [q] else queue) ∧
      ∀ name, (s.wake now queue q).1.2.rows name = s.rows name := by
  have happroves := consult_fst s q.collection
  have hsound : (s.consult q.collection).2.IsSound :=
    (consult_reaches s q.collection).sound hs hs.ordered
  have hrows := rows_consult s q.collection
  unfold wake
  generalize s.consult q.collection = consulted at happroves hsound hrows ⊢
  obtain ⟨approved, s₁⟩ := consulted
  dsimp only at happroves hsound hrows ⊢
  rw [← happroves]
  cases approved with
  | false => exact ⟨rfl, hrows⟩
  | true =>
      cases queue with
      | nil =>
          obtain ⟨connection, link, hacquire, hserver, hsteady⟩ :=
            Link.acquire_served hsound.healthy
          simp only [hacquire]
          have hreaches : s₁.Reaches s₁.link.server { s₁ with link } :=
            ⟨link, rfl, hserver, hsteady⟩
          exact ⟨rfl, fun name => (hreaches.rows_eq name).trans (hrows name)⟩
      | cons first rest => exact ⟨rfl, hrows⟩

theorem wakeAll_queue (hs : s.IsSound) (now : Time) (hqueue : s.Knows queue)
    (hwoken : s.Knows woken) :
    (s.wakeAll now queue woken).1.1 = queue ++ woken.filter (s.approves ·.collection) ∧
      ∀ name, (s.wakeAll now queue woken).1.2.rows name = s.rows name := by
  induction woken generalizing s queue with
  | nil => exact ⟨(List.append_nil queue).symm, fun _ => rfl⟩
  | cons q woken ih =>
      obtain ⟨hfirst, hrows⟩ := wake_queue hs now queue q
      obtain ⟨hwake, hknows⟩ := wake_unnoticed hs (hwoken q List.mem_cons_self) hqueue now
      obtain ⟨hrest, hrows'⟩ := ih hwake.sound (hwake.knows hknows)
        (hwake.knows fun p hp => hwoken p (List.mem_cons_of_mem _ hp))
      rw [wakeAll_cons]
      refine ⟨hrest.trans ?_, fun name => (hrows' name).trans (hrows name)⟩
      simp only [(wake_stays s now queue q).approves]
      rw [hfirst]
      by_cases happroved : s.approves q.collection = true <;> simp [happroved]

-- It does not matter who sweeps first.
instance (now : Time) :
    RightCommutative fun (rows : Table) (q : Reaper) => unexpired now q.collection rows where
  right_comm rows p q := by
    simp only [unexpired, List.filter_filter, Bool.and_comm]

-- The rows that these reapers leave of the table of their collections.
def sweptBy (now : Time) (reapers : List Reaper) (rows : Table) : Table :=
  reapers.foldl (fun rows q => unexpired now q.collection rows) rows

theorem rows_sweepAll (hs : s.IsSound) (now : Time) (hqueue : s.Knows queue) (name : String) :
    (s.sweepAll now queue).1.rows name =
      sweptBy now (queue.filter (·.collection.name == name)) (s.rows name) := by
  induction queue generalizing s with
  | nil => rfl
  | cons q queue ih =>
      obtain ⟨hq, hrest⟩ := List.forall_mem_cons.mp hqueue
      have hsweep := sweep_unnoticed hs hq now
      have hslept := hsweep.trans (sleep_unnoticed hsweep.sound (hsweep.get_ok hq))
      have hrows : ((s.sweep now q.collection).1.sleep now q).rows name =
          if name = q.collection.name then unexpired now q.collection (s.rows q.collection.name)
          else s.rows name := rows_sweep hs now q.collection name
      rw [sweepAll_cons]
      refine (ih hslept.sound (hslept.knows hrest)).trans ?_
      rw [hrows]
      by_cases hname : name = q.collection.name
      · subst hname
        simp [sweptBy]
      · have hother : (q.collection.name == name) = false := by simpa using Ne.symm hname
        rw [if_neg hname, List.filter_cons_of_neg (by simp [hother])]

-- The timers fire for all collections, and each reaper minds its own.
theorem rows_fire (hs : s.IsSound) (now : Time) (name : String) :
    (s.fire now).1.rows name =
      sweptBy now
        ((s.reapersOf name).filter fun q => s.approves q.collection && decide (q.due ≤ now))
        (s.rows name) := by
  have hsome : s.Knows (s.waitingReapers now) := fun q hq => hs.reapers q (List.mem_filter.mp hq).1
  have hwaiting : s.Unnoticed now (s.asleep now) := unnoticed_reapers hs hsome now
  have hdue : s.Knows (s.dueReapers now) := fun q hq => hs.reapers q (mem_dueReapers.mp hq).1
  have hnone : (s.asleep now).Knows [] := nofun
  obtain ⟨hqueue, hrows⟩ := wakeAll_queue hwaiting.sound now hnone (hwaiting.knows hdue)
  obtain ⟨hwake, hknows⟩ :=
    wakeAll_unnoticed hwaiting.sound [] (hwaiting.knows hdue) hnone now
  rw [fire_eq]
  refine (rows_sweepAll hwake.sound now (hwake.knows hknows) name).trans ?_
  have hsame : (s.asleep now).rows name = s.rows name := rfl
  rw [hqueue, hrows, hsame]
  have hsorted : (s.dueReapers now).Perm (s.reapers.filter fun q => q.due ≤ now) :=
    List.mergeSort_perm _ _
  have hown := (hsorted.filter (s.approves ·.collection)).filter (·.collection.name == name)
  refine (hown.foldl_eq _).trans ?_
  rw [sweptBy, reapersOf]
  simp only [List.filter_filter, Bool.and_comm]

theorem Same.fire (h : Same name s r) (hs : s.IsSound) (hr : r.IsSound) (now : Time) :
    Same name (s.fire now).1 (r.fire now).1 := by
  have hstays := fire_stays s now
  have hstays' := fire_stays r now
  refine ⟨?_, ?_, ?_, ?_, ?_⟩
  · rw [hstays.schema, hstays'.schema, h.schema]
  · rw [hstays.approve, hstays'.approve, h.approve]
  · rw [(fire_reapers s now).2, (fire_reapers r now).2, h.collection]
  · rw [rows_fire hs, rows_fire hr, h.rows]
    simp only [h.approves]
    exact (h.reapers.filter _).foldl_eq _
  · exact (reapersOf_fire s now name).trans
      ((h.reapers.map _).trans (reapersOf_fire r now name).symm)

theorem Same.setApproval (h : Same name s r) (rule : Collection → Bool) :
    Same name (s.setApproval rule) (r.setApproval rule) :=
  ⟨h.schema, congrArg (Option.map fun _ => rule) h.approve, h.collection, h.rows, h.reapers⟩

end PolyCache.RelationalCache
