import PolyCache.Proofs.Registry
import PolyCache.Proofs.Relational.Link
import PolyCache.Proofs.Relational.Server
import PolyCache.Relational.Cache

-- What each call and each firing of timers does to a cache and its server while no statement fails.
namespace PolyCache.RelationalCache

open Relational

variable {s s' : RelationalCache} {server : Server} {now : Time} {c : Collection} {key : EntryKey}
  {value : Value} {bytes : Bytes}

-- The table of a collection, by the name under which the server knows it.
def tableName (s : RelationalCache) (name : String) : String :=
  s.link.naming.name s.schema ++ "." ++ s.link.naming.name name

def rows (s : RelationalCache) (name : String) : Table := s.link.server.table (s.tableName name)

def row? (s : RelationalCache) (name key : String) : Option Row :=
  s.link.server.row? (s.tableName name) key

theorem tableName_inj (hs : s.link.naming = .spelled) {a b : String} :
    s.tableName a = s.tableName b ↔ a = b := by
  rw [tableName, tableName, hs]
  exact String.append_right_inj _

-- No statement fails and each spelling is a name of its own, rows stand in order, collections under
-- their names, and each reaper sweeps for a collection that is registered.
structure IsSound (s : RelationalCache) : Prop where
  healthy : s.link.outage = .none
  spelled : s.link.naming = .spelled
  ordered : s.link.server.Ordered
  named : ∀ name c, s.collections.get name = .ok c → c.name = name
  reapers : ∀ r ∈ s.reapers, s.collections.get r.collection.name = .ok r.collection

-- The cache is another one in its link only, and its server is the given one.
def Reaches (s : RelationalCache) (server : Server) (s' : RelationalCache) : Prop :=
  ∃ link, s' = { s with link } ∧ link.server = server ∧ Link.Steady s.link link

theorem Reaches.sound (hr : s.Reaches server s') (hs : s.IsSound) (ho : server.Ordered) :
    s'.IsSound := by
  obtain ⟨link, rfl, rfl, hsteady⟩ := hr
  exact ⟨hsteady.outage.trans hs.healthy, hsteady.naming.trans hs.spelled, ho, hs.named, hs.reapers⟩

theorem Reaches.tableName (hr : s.Reaches server s') (name : String) :
    s'.tableName name = s.tableName name := by
  obtain ⟨link, rfl, rfl, hsteady⟩ := hr
  rw [RelationalCache.tableName, RelationalCache.tableName, hsteady.naming]

theorem Reaches.rows_eq (hr : s.Reaches server s') (name : String) :
    s'.rows name = server.table (s.tableName name) := by
  have htable := hr.tableName name
  obtain ⟨link, rfl, rfl, -⟩ := hr
  rw [rows, htable]

theorem row?_eq (s : RelationalCache) (name key : String) :
    s.row? name key = (s.rows name).lookup key := rfl

theorem Reaches.row?_eq (hr : s.Reaches server s') (name k : String) :
    s'.row? name k = server.row? (s.tableName name) k :=
  congrArg (List.lookup k) (hr.rows_eq name)

-- A question to the owner changes nothing but what has been recorded.
theorem consult_reaches (s : RelationalCache) (c : Collection) :
    s.Reaches s.link.server (s.consult c).2 := by
  unfold consult
  split
  · exact ⟨s.link, rfl, rfl, .refl _⟩
  · exact ⟨_, rfl, rfl, rfl, rfl, rfl⟩

theorem consult_kept (s : RelationalCache) (c : Collection) :
    (s.consult c).2.reapers = s.reapers ∧ (s.consult c).2.collections = s.collections := by
  obtain ⟨link, heq, -, -⟩ := consult_reaches s c
  rw [heq]
  exact ⟨rfl, rfl⟩

-- A statement of this cache as the server understands it.
def understood (s : RelationalCache) (verb : Verb) (c : Collection) : Statement :=
  s.link.naming.read (s.statement verb c)

theorem run_spec (hs : s.link.outage = .none) (now : Time) (verb : Verb) (c : Collection)
    (parameters : List Parameter) :
    (s.run now verb c parameters).1 =
        .ok (s.link.server.execute now (s.understood verb c) parameters).2 ∧
      s.Reaches (s.link.server.execute now (s.understood verb c) parameters).1
        (s.run now verb c parameters).2 := by
  have hserved : Link.Served s.link now (s.statement verb c) parameters
      (s.link.run now (s.statement verb c) parameters) := Link.run_served hs
  exact ⟨hserved.reply, _, rfl, hserved.server, hserved.steady⟩

theorem change_spec (hs : s.link.outage = .none) (now : Time) (verb : Verb) (c : Collection)
    (parameters : List Parameter) :
    (s.change now verb c parameters).answer = .ok none ∧
      s.Reaches (s.link.server.execute now (s.understood verb c) parameters).1
        (s.change now verb c parameters).state := by
  obtain ⟨hreply, hreaches⟩ := run_spec hs now verb c parameters
  unfold change
  generalize s.run now verb c parameters = ran at hreply hreaches ⊢
  obtain ⟨result, after⟩ := ran
  dsimp only at hreply hreaches
  rw [hreply]
  exact ⟨rfl, hreaches⟩

theorem set_spec (hs : s.link.outage = .none) (now : Time)
    (hc : s.collections.get key.collection = .ok c) (he : c.type.encode value = .ok bytes) :
    (s.set now key value).answer = .ok none ∧
      s.Reaches (s.link.server.upsert now (s.tableName c.name) key.key (some bytes))
        (s.set now key value).state := by
  unfold set
  simp only [hc, he]
  exact change_spec hs now .upsert c [.text key.key, .bytes bytes]

theorem row?_set (hs : s.IsSound) (now : Time)
    (hc : s.collections.get key.collection = .ok c) (he : c.type.encode value = .ok bytes)
    (name k : String) :
    (s.set now key value).state.row? name k =
      if name = c.name ∧ k = key.key then some ⟨some bytes, now⟩ else s.row? name k := by
  have hreaches := (set_spec hs.healthy now hc he).2
  rw [hreaches.row?_eq, Server.row?_upsert]
  simp only [tableName_inj hs.spelled]
  rfl

theorem del_spec (hs : s.link.outage = .none) (now : Time)
    (hc : s.collections.get key.collection = .ok c) :
    (s.del now key).answer = .ok none ∧
      s.Reaches (s.link.server.delete (s.tableName c.name) key.key).1 (s.del now key).state := by
  unfold del
  simp only [hc]
  exact change_spec hs now .delete c [.text key.key]

theorem row?_del (hs : s.IsSound) (now : Time)
    (hc : s.collections.get key.collection = .ok c) (name k : String) :
    (s.del now key).state.row? name k =
      if name = c.name ∧ k = key.key then none else s.row? name k := by
  have hreaches := (del_spec hs.healthy now hc).2
  rw [hreaches.row?_eq, Server.row?_delete]
  simp only [tableName_inj hs.spelled]
  rfl

-- The row that a read sees.
def visible (now : Time) (c : Collection) (row? : Option Row) : Option Row :=
  row?.filter fun row => row.isLive now c.effectiveTtl.toBinary64

-- What a read answers about the row that it sees.
def answerTo (c : Collection) : Option Row → Answer
  | none => .ok none
  | some row => rowValue c row

theorem get_spec (hs : s.link.outage = .none) (now : Time)
    (hc : s.collections.get key.collection = .ok c) :
    (s.get now key).answer = answerTo c (visible now c (s.row? c.name key.key)) ∧
      s.Reaches s.link.server (s.get now key).state := by
  obtain ⟨hreply, hreaches⟩ := run_spec hs now .select c [.text key.key, lifetime c]
  replace hreply : (s.run now .select c [.text key.key, lifetime c]).1 =
      .ok (.found (visible now c (s.row? c.name key.key))) := hreply
  replace hreaches : s.Reaches s.link.server (s.run now .select c [.text key.key, lifetime c]).2 :=
    hreaches
  unfold get
  simp only [hc]
  generalize s.run now .select c [.text key.key, lifetime c] = ran at hreply hreaches ⊢
  obtain ⟨result, after⟩ := ran
  dsimp only at hreply hreaches
  rw [hreply]
  cases visible now c (s.row? c.name key.key) <;> exact ⟨rfl, hreaches⟩

theorem sweep_spec (hs : s.link.outage = .none) (now : Time) (c : Collection) :
    s.Reaches (s.link.server.sweep now (s.tableName c.name) c.effectiveTtl.toBinary64).1
      (s.sweep now c).1 := by
  have hserved : Link.Served s.link now (s.statement .sweep c) [lifetime c]
      (s.link.run now (s.statement .sweep c) [lifetime c]) := Link.run_served hs
  exact ⟨_, rfl, hserved.server, hserved.steady⟩

theorem row?_sweep (hs : s.IsSound) (now : Time) (c : Collection) (name k : String) :
    (s.sweep now c).1.row? name k =
      if name = c.name then
        (s.row? name k).filter fun row => !row.isExpired now c.effectiveTtl.toBinary64
      else s.row? name k := by
  have hreaches := sweep_spec hs.healthy now c
  rw [hreaches.row?_eq, Server.row?_sweep hs.ordered]
  simp only [tableName_inj hs.spelled]
  rfl

theorem enroll_refused {e : Error} (he : s.checkName c.name = .error e) :
    s.enroll now c = .refuse s e := by
  unfold enroll
  rw [he]

-- A registration that failed has spawned no reaper.
theorem register_of_error {e : Error} (he : (s.enroll now c).answer = .error e) :
    s.register now c = s.enroll now c := by
  simp only [register, he]

theorem register_of_ok (ho : (s.enroll now c).answer = .ok none) :
    s.register now c =
      match c.ttl with
      | none => s.enroll now c
      | some period =>
        ⟨((s.enroll now c).state.startReaper now c period).1, .ok none,
          (s.enroll now c).log ++ ((s.enroll now c).state.startReaper now c period).2⟩ := by
  simp only [register, ho]
  cases c.ttl <;> rfl

theorem register_refused {e : Error} (he : s.checkName c.name = .error e) :
    s.register now c = .refuse s e := by
  have hrefused : s.enroll now c = .refuse s e := enroll_refused he
  rw [register_of_error (congrArg Outcome.answer hrefused), hrefused]

theorem enroll_spec (hs : s.link.outage = .none) (now : Time)
    (hname : s.checkName c.name = .ok ()) :
    ∃ collections,
      s.collections.insert c.name c = .ok collections ∧
      { s with collections }.Reaches (s.link.server.create (s.tableName c.name))
        (s.enroll now c).state ∧
      (s.enroll now c).answer = .ok none := by
  have hvacant : s.collections.ensureVacant c.name = .ok () := by
    unfold checkName at hname
    split at hname
    · cases hname
    · exact hname
  have hserved : Link.Served s.link now (s.statement .create c) []
      (s.link.batch now (s.statement .create c)) := Link.batch_served hs
  obtain ⟨collections, hinsert⟩ : ∃ collections, s.collections.insert c.name c = .ok collections :=
    ⟨_, Registry.insert_eq_ok_iff.mpr ⟨hvacant, rfl⟩⟩
  refine ⟨collections, hinsert, ?_⟩
  unfold enroll
  rw [hname]
  obtain ⟨hreply, hserver, hsteady⟩ := hserved
  generalize s.link.batch now (s.statement .create c) = batched at hreply hserver hsteady ⊢
  obtain ⟨result, link⟩ := batched
  dsimp only at hreply hserver hsteady
  rw [hreply]
  dsimp only
  rw [hinsert]
  exact ⟨⟨link, rfl, hserver, hsteady⟩, rfl⟩

theorem register_spec (hs : s.link.outage = .none) (now : Time)
    (hname : s.checkName c.name = .ok ()) :
    ∃ collections created,
      s.collections.insert c.name c = .ok collections ∧
      { s with collections }.Reaches (s.link.server.create (s.tableName c.name)) created ∧
      (s.register now c).answer = .ok none ∧
      (s.register now c).state =
        match c.ttl with
        | none => created
        | some period => (created.startReaper now c period).1 := by
  obtain ⟨collections, hinsert, hcreated, hanswer⟩ := enroll_spec hs now hname
  refine ⟨collections, _, hinsert, hcreated, ?_⟩
  rw [register_of_ok hanswer]
  cases c.ttl with
  | none => exact ⟨hanswer, rfl⟩
  | some period => exact ⟨rfl, rfl⟩

end PolyCache.RelationalCache
