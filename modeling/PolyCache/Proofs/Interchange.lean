import PolyCache.Proofs.Backend.Memory
import PolyCache.Proofs.Relational.Naming

-- A cache in memory and one over a database answer alike. The plain run of the calls stands between
-- them: in it no row is ever swept, so entry and row of a key part only where a read has found the
-- entry expired and dropped it.
namespace PolyCache

open Relational RelationalCache

variable {now : Time} {m : MemoryCache} {r r' : RelationalCache} {p p' : Partition} {h : History}
  {key : EntryKey} {name : String} {c : Collection} {server : Server}

-- Entry and row of one key: the same bytes since the same time, or nothing that a read would find.
def Matches (now : Time) (c : Collection) (stored? : Option StoredEntry) (row? : Option Row) :
    Prop :=
  (∃ entry, stored? = some entry ∧ row? = some ⟨some entry.bytes, entry.storedAt⟩) ∨
    stored? = none ∧ IsHidden now c row?

theorem Matches.later {now' : Time} {stored? : Option StoredEntry} {row? : Option Row}
    (hm : Matches now c stored? row?) (hle : now ≤ now') : Matches now' c stored? row? :=
  hm.imp_right fun hnone => ⟨hnone.1, hnone.2.later hle⟩

-- The same collections are registered, each key matches, and tables of no collection are empty. The
-- owner of the database cache approves of no sweep.
structure Mirrors (now : Time) (m : MemoryCache) (r : RelationalCache) : Prop where
  sound : r.IsSound
  refuses : r.approve = some fun _ => false
  collections : ∀ name, r.collections.get name = (m.partitions.get name).map Partition.collection
  entries : ∀ name p, m.partitions.get name = .ok p → ∀ k,
    Matches now p.collection (p.shelf.entries.lookup k) (r.row? name k)
  vacant : ∀ name, m.partitions.get name = .error (.usage (.notRegistered name)) → ∀ k,
    r.row? name k = none

theorem Mirrors.later {now' : Time} (hm : Mirrors now m r) (hle : now ≤ now') :
    Mirrors now' m r where
  sound := hm.sound
  refuses := hm.refuses
  collections := hm.collections
  entries name p hp k := (hm.entries name p hp k).later hle
  vacant := hm.vacant

theorem mirrors_start (name : Option String) (schema : String) :
    Mirrors now (MemoryCache.new name) (start schema (some fun _ => false) .empty) where
  sound := isSound_start _ _ Server.ordered_empty
  refuses := rfl
  collections name := rfl
  entries name p hp := by simp [MemoryCache.new] at hp
  vacant name _ k := rfl

-- A call about a key of one collection changes its partition and its table only.
theorem Mirrors.put (hm : Mirrors now m r) (hp : m.partitions.get name = .ok p)
    (hc : p'.collection = p.collection) (hr : r.Reaches server r') (hs : r'.IsSound)
    (hentries : ∀ k, Matches now p.collection (p'.shelf.entries.lookup k) (r'.row? name k))
    (hrows : ∀ other, other ≠ name → ∀ k, r'.row? other k = r.row? other k) :
    Mirrors now (m.put name p') r' := by
  refine ⟨hs, ?_, ?_, ?_, ?_⟩
  · obtain ⟨link, rfl, -, -⟩ := hr
    exact hm.refuses
  · intro other
    have hsame : r'.collections = r.collections := by
      obtain ⟨link, rfl, -, -⟩ := hr
      rfl
    rw [hsame, hm.collections, MemoryCache.collection_of_put hp hc]
  · intro other q hq k
    rw [MemoryCache.get_put] at hq
    split at hq
    · rename_i ho
      rw [ho, hp] at hq
      cases hq
      rw [ho, hc]
      exact hentries k
    · rename_i ho
      rw [hrows other ho]
      exact hm.entries other q hq k
  · intro other ho k
    rw [MemoryCache.get_put] at ho
    split at ho
    · rename_i hn
      rw [hn, hp] at ho
      cases ho
    · rename_i hn
      rw [hrows other hn]
      exact hm.vacant other ho k

theorem Mirrors.get_ok (hm : Mirrors now m r) (hp : m.partitions.get name = .ok p) :
    r.collections.get name = .ok p.collection := by
  rw [hm.collections, hp]
  rfl

theorem Mirrors.get_error (hm : Mirrors now m r) {e : Error}
    (hp : m.partitions.get name = .error e) : r.collections.get name = .error e := by
  rw [hm.collections, hp]
  rfl

theorem mirrors_set (hm : Mirrors now m r) (value : Value)
    (hplace : ∀ p, m.partitions.get key.collection = .ok p →
      (∃ bytes, p.collection.type.encode value = .ok bytes) →
      p.shelf.contains key.key = true ∨ p.shelf.isFull = false) :
    (r.set now key value).answer = (m.set now key value).answer ∧
      Mirrors now (m.set now key value).state (r.set now key value).state := by
  cases hp : m.partitions.get key.collection with
  | error e =>
      simp only [RelationalCache.set, MemoryCache.set, hp, hm.get_error hp]
      exact ⟨rfl, hm⟩
  | ok p =>
      have hc := hm.get_ok hp
      cases hencode : p.collection.type.encode value with
      | error e =>
          simp only [RelationalCache.set, MemoryCache.set, hp, hc, hencode]
          exact ⟨rfl, hm⟩
      | ok bytes =>
          have hname := hm.sound.named _ _ hc
          obtain ⟨hanswer, hreaches⟩ := set_spec hm.sound.healthy now hc hencode
          have hrow := row?_set hm.sound now hc hencode
          rw [hname] at hrow
          have hset : m.set now key value = .done
              (m.put key.collection { p with shelf := p.shelf.write key.key ⟨bytes, now⟩ }) := by
            simp only [MemoryCache.set, hp, hencode]
          rw [hanswer, hset]
          refine ⟨rfl, hm.put hp rfl hreaches (hm.sound.call now (.set key value)) ?_ ?_⟩
          · intro k
            rw [hrow, Shelf.lookup_write (hplace p hp ⟨bytes, hencode⟩)]
            by_cases hk : k = key.key
            · rw [if_pos hk, if_pos ⟨rfl, hk⟩]
              exact Or.inl ⟨_, rfl, rfl⟩
            · rw [if_neg hk, if_neg fun hboth => hk hboth.2]
              exact hm.entries _ p hp k
          · intro other ho k
            rw [hrow, if_neg fun hboth => ho hboth.1]

theorem mirrors_del (hm : Mirrors now m r) (key : EntryKey) :
    (r.del now key).answer = (m.del key).answer ∧
      Mirrors now (m.del key).state (r.del now key).state := by
  cases hp : m.partitions.get key.collection with
  | error e =>
      simp only [RelationalCache.del, MemoryCache.del, hp, hm.get_error hp]
      exact ⟨rfl, hm⟩
  | ok p =>
      have hc := hm.get_ok hp
      have hname := hm.sound.named _ _ hc
      obtain ⟨hanswer, hreaches⟩ := del_spec hm.sound.healthy now hc
      have hrow := row?_del hm.sound now hc
      rw [hname] at hrow
      have hdel : m.del key =
          .done (m.put key.collection { p with shelf := p.shelf.erase key.key }) := by
        simp only [MemoryCache.del, hp]
      rw [hanswer, hdel]
      refine ⟨rfl, hm.put hp rfl hreaches (hm.sound.call now (.del key)) ?_ ?_⟩
      · intro k
        rw [hrow, Shelf.lookup_shelf_erase]
        by_cases hk : k = key.key
        · rw [if_pos hk, if_pos ⟨rfl, hk⟩]
          exact Or.inr ⟨rfl, isHidden_none⟩
        · rw [if_neg hk, if_neg fun hboth => hk hboth.2]
          exact hm.entries _ p hp k
      · intro other ho k
        rw [hrow, if_neg fun hboth => ho hboth.1]

-- The server's comparison of an entry's age and lifetime in doubles is the exact one.
def ComparesExactly (now : Time) (c : Collection) (storedAt : Time) : Prop :=
  (⟨now - storedAt⟩ : Duration).toBinary64.lt c.effectiveTtl.toBinary64 =
    decide (now - storedAt < c.effectiveTtl.nanoseconds)

theorem ComparesExactly.isLive {entry : StoredEntry}
    (hx : ComparesExactly now p.collection entry.storedAt) (bytes : Option Bytes) :
    Row.isLive now ⟨bytes, entry.storedAt⟩ p.collection.effectiveTtl.toBinary64 =
      !p.isExpired now entry := by
  show (⟨now - entry.storedAt⟩ : Duration).toBinary64.lt _ = _
  rw [hx, Partition.isExpired, Bool.eq_iff_iff]
  simp

-- Either both reads find nothing, or both find the same bytes.
theorem matches_read {k : String} {row? : Option Row}
    (hm : Matches now p.collection (p.shelf.entries.lookup k) row?)
    (hx : ∀ entry, p.shelf.entries.lookup k = some entry →
      ComparesExactly now p.collection entry.storedAt) :
    (p.read now k).1 = none ∧ IsHidden now p.collection row? ∨
      ∃ entry, (p.read now k).1 = some entry ∧
        row? = some ⟨some entry.bytes, entry.storedAt⟩ ∧ visible now p.collection row? = row? := by
  rcases hm with ⟨entry, hl, rfl⟩ | ⟨hl, hhidden⟩
  · have hlive := (hx entry hl).isLive (some entry.bytes)
    cases he : p.isExpired now entry with
    | false =>
        rw [he] at hlive
        refine Or.inr ⟨entry, Partition.read_eq_some_iff.mpr ⟨hl, he⟩, rfl, ?_⟩
        rw [visible, Option.filter_some, hlive]
        rfl
    | true =>
        rw [he] at hlive
        refine Or.inl ⟨Partition.read_eq_none_iff.mpr ?_, ?_⟩
        · intro other hother
          rw [hl] at hother
          cases hother
          exact he
        · rw [IsHidden, visible, Option.filter_some, hlive]
          rfl
  · refine Or.inl ⟨Partition.read_eq_none_iff.mpr ?_, hhidden⟩
    intro entry hentry
    rw [hl] at hentry
    cases hentry

theorem mirrors_get (hm : Mirrors now m r)
    (hx : ∀ p entry, m.partitions.get key.collection = .ok p →
      p.shelf.entries.lookup key.key = some entry →
      ComparesExactly now p.collection entry.storedAt) :
    (r.get now key).answer = (m.get now key).answer ∧
      Mirrors now (m.get now key).state (r.get now key).state := by
  cases hp : m.partitions.get key.collection with
  | error e =>
      simp only [RelationalCache.get, MemoryCache.get, hp, hm.get_error hp]
      exact ⟨rfl, hm⟩
  | ok p =>
      have hc := hm.get_ok hp
      have hname := hm.sound.named _ _ hc
      obtain ⟨hanswer, hreaches⟩ := get_spec hm.sound.healthy now hc
      have hrow (other k : String) : (r.get now key).state.row? other k = r.row? other k :=
        hreaches.row?_eq other k
      have hread := matches_read (hm.entries _ p hp key.key) fun entry => hx p entry hp
      rw [hname] at hanswer
      rw [hanswer, MemoryCache.get_answer hp, MemoryCache.get_state hp]
      constructor
      · rcases hread with ⟨hnone, hhidden⟩ | ⟨entry, hsome, hentry, hvisible⟩
        · rw [hnone, hhidden]
          rfl
        · rw [hsome, hvisible, hentry]
          rfl
      · refine hm.put hp Partition.read_collection hreaches (hm.sound.call now (.get key)) ?_ ?_
        · intro k
          rw [hrow]
          by_cases hk : k = key.key
          · -- an entry found expired is gone now, but its row stays hidden
            rw [hk, Partition.lookup_read_self]
            rcases hread with hnone | ⟨entry, hsome, hentry, -⟩
            · exact Or.inr hnone
            · exact Or.inl ⟨entry, hsome, hentry⟩
          · rw [Partition.lookup_read_of_ne hk]
            exact hm.entries _ p hp k
        · intro other _ k
          exact hrow other k

theorem mirrors_close (hm : Mirrors now m r) :
    r.close.answer = m.close.answer ∧ Mirrors now m.close.state r.close.state :=
  ⟨rfl, hm.sound.call now .close, hm.refuses, fun _ => rfl, nofun, nofun⟩

-- Without approval a new reaper changes nothing that can be read.
theorem startReaper_refused (hr : r.approve = some fun _ => false) (now : Time) (c : Collection)
    (period : Duration) :
    (r.startReaper now c period).1.approve = r.approve ∧
      (r.startReaper now c period).1.collections = r.collections ∧
      ∀ name k, (r.startReaper now c period).1.row? name k = r.row? name k := by
  simp only [startReaper, consult, hr, Bool.false_eq_true, if_false]
  exact ⟨trivial, trivial, fun _ _ => rfl⟩

theorem register_refusing (hs : r.IsSound) (hr : r.approve = some fun _ => false)
    (hname : r.checkName c.name = .ok ()) (now : Time) :
    (r.register now c).answer = .ok none ∧
      (r.register now c).state.approve = r.approve ∧
      (∀ name, (r.register now c).state.collections.get name =
        if name = c.name then .ok c else r.collections.get name) ∧
      ∀ name k, (r.register now c).state.row? name k = r.row? name k := by
  obtain ⟨collections, created, hinsert, hcreated, hanswer, hstate⟩ :=
    register_spec hs.healthy now hname
  have hget := get_created hinsert hcreated
  have happrove : created.approve = r.approve := by
    obtain ⟨link, rfl, -, -⟩ := hcreated
    rfl
  have hrow (name k : String) : created.row? name k = r.row? name k := by
    rw [hcreated.row?_eq, Server.row?_create]
    rfl
  rw [hstate]
  cases c.ttl with
  | none => exact ⟨hanswer, happrove, hget, hrow⟩
  | some period =>
      obtain ⟨ha, hc, hk⟩ := startReaper_refused (happrove.trans hr) now c period
      refine ⟨hanswer, ha.trans happrove, ?_, ?_⟩
      · intro name
        rw [hc]
        exact hget name
      · intro name k
        rw [hk]
        exact hrow name k

theorem mirrors_register (hm : Mirrors now m r)
    (hname : checkIdentifier "collection" c.name = .ok ()) :
    (r.register now c).answer = (m.register c).answer ∧
      Mirrors now (m.register c).state (r.register now c).state := by
  have hcheck : r.checkName c.name = m.partitions.ensureVacant c.name := by
    rw [checkName, hname]
    exact Registry.ensureVacant_congr Partition.collection hm.collections c.name
  unfold MemoryCache.register
  cases hinsert : m.partitions.insert c.name (.new c) with
  | error e =>
      rw [register_refused (hcheck.trans (Registry.insert_eq_error_iff.mp hinsert))]
      exact ⟨rfl, hm⟩
  | ok partitions =>
      have hvacant := (Registry.insert_eq_ok_iff.mp hinsert).1
      have hgone := Registry.get_of_vacant hvacant
      have hget := Registry.get_insert hinsert
      obtain ⟨hanswer, happrove, hcollections, hrow⟩ :=
        register_refusing hm.sound hm.refuses (hcheck.trans hvacant) now
      refine ⟨hanswer, hm.sound.call now (.register c), happrove.trans hm.refuses, ?_, ?_, ?_⟩
      · intro name
        show _ = (partitions.get name).map Partition.collection
        rw [hcollections, hget, hm.collections]
        split <;> rfl
      · intro name p hp k
        replace hp : partitions.get name = .ok p := hp
        rw [hget] at hp
        rw [hrow]
        split at hp
        · rename_i hn
          cases hp
          rw [hn, hm.vacant _ hgone]
          exact Or.inr ⟨rfl, isHidden_none⟩
        · exact hm.entries name p hp k
      · intro name hn k
        replace hn : partitions.get name = .error (.usage (.notRegistered name)) := hn
        rw [hget] at hn
        rw [hrow]
        split at hn
        · cases hn
        · exact hm.vacant name hn k

-- What makes a run comparable: names that go into SQL text, room for all keys that are written, and
-- ages that the server compares with lifetimes as if it were exact.
structure Comparable (h : History) : Prop where
  named : ∀ x ∈ h, ∀ c, x.request = .register c → checkIdentifier "collection" c.name = .ok ()
  room : ∀ c, (∃ x ∈ h, x.Registers c) → h.HasRoom c
  exact : ∀ c, (∃ x ∈ h, x.Registers c) → ∀ x ∈ h, ∀ y ∈ h, ∀ k value,
    x.Writes (c.entry k) value → y.request = .get (c.entry k) → ComparesExactly y.time c x.time

theorem Comparable.of_concat {x : Exchange} (hc : Comparable (h ++ [x])) : Comparable h where
  named y hy := hc.named y (List.mem_append_left _ hy)
  room c hreg := by
    obtain ⟨y, hy, hregisters⟩ := hreg
    exact (hc.room c ⟨y, List.mem_append_left _ hy, hregisters⟩).of_concat
  exact c hreg y hy z hz := by
    obtain ⟨w, hw, hregisters⟩ := hreg
    exact hc.exact c ⟨w, List.mem_append_left _ hw, hregisters⟩ y (List.mem_append_left _ hy) z
      (List.mem_append_left _ hz)

theorem Mirrors.call (hm : Mirrors now m r) (hr : m.Reflects h)
    (hreg : ∀ name p, m.partitions.get name = .ok p → ∃ x ∈ h, x.Registers p.collection)
    {request : Request} (hc : Comparable (h ++ [⟨now, request, (m.call now request).answer⟩])) :
    (r.call now request).answer = (m.call now request).answer ∧
      Mirrors now (m.call now request).state (r.call now request).state := by
  have hregisters (name : String) (p : Partition) (hp : m.partitions.get name = .ok p) :
      ∃ x ∈ h ++ [⟨now, request, (m.call now request).answer⟩], x.Registers p.collection := by
    obtain ⟨x, hx, hregisters⟩ := hreg name p hp
    exact ⟨x, List.mem_append_left _ hx, hregisters⟩
  have hlast : (⟨now, request, (m.call now request).answer⟩ : Exchange) ∈
      h ++ [⟨now, request, (m.call now request).answer⟩] := by simp
  cases request with
  | register c => exact mirrors_register hm (hc.named _ hlast c rfl)
  | set key value =>
      apply mirrors_set hm
      rintro p hp ⟨bytes, hencode⟩
      apply (hr.partition _ p hp).2.hasPlace (hc.room _ (hregisters _ p hp))
      have hanswer : (m.call now (.set key value)).answer = .ok none := by
        show (m.set now key value).answer = _
        simp only [MemoryCache.set, hp, hencode]
        rfl
      rw [Exchange.writtenKey?, hanswer]
      exact if_pos (hr.partition _ p hp).1.symm
  | get key =>
      apply mirrors_get hm
      intro p entry hp hl
      obtain ⟨value, -, hkept⟩ := (hr.partition _ p hp).2.kept _ entry hl
      obtain ⟨x, hx, hwrites, htime⟩ := hkept.written
      have hrequest : (⟨now, .get key, (m.call now (.get key)).answer⟩ : Exchange).request =
          .get (p.collection.entry key.key) := by
        rw [hr.entry_eq hp]
      have hexact := hc.exact p.collection (hregisters _ p hp) x (List.mem_append_left _ hx) _
        hlast key.key value hwrites hrequest
      rw [← htime]
      exact hexact
  | del key => exact mirrors_del hm key
  | close => exact mirrors_close hm

theorem mirrors_after (name : Option String) (schema : String) (calls : List (Time × Request))
    (hclock : calls.Pairwise fun a b => a.1 ≤ b.1)
    (hc : Comparable (Backend.history (MemoryCache.new name) calls)) :
    (∀ now, (∀ x ∈ calls, x.1 ≤ now) →
      Mirrors now (Backend.after (MemoryCache.new name) calls)
        (Backend.after (start schema (some fun _ => false) .empty) calls)) ∧
      (Backend.history (start schema (some fun _ => false) .empty) calls).map Exchange.answer =
        (Backend.history (MemoryCache.new name) calls).map Exchange.answer := by
  -- the last call is taken off, for what it needs is said of the history before it
  induction calls using List.reverseRecOn with
  | nil => exact ⟨fun _ _ => mirrors_start name schema, rfl⟩
  | append_singleton calls last ih =>
      obtain ⟨time, request⟩ := last
      obtain ⟨hbefore, -, htimes⟩ := List.pairwise_append.mp hclock
      rw [Backend.history_concat] at hc
      obtain ⟨hmirrors, hanswers⟩ := ih hbefore hc.of_concat
      have hm := hmirrors time fun x hx => htimes x hx _ (List.mem_singleton_self _)
      obtain ⟨hanswer, hafter⟩ := hm.call (MemoryCache.reflects_after name calls)
        (fun _ _ hp => MemoryCache.partition_registered name calls hp) hc
      simp only [Backend.after_concat, Backend.history_concat, List.map_append, hanswers]
      refine ⟨fun now hnow => hafter.later (hnow (time, request) (by simp)), ?_⟩
      rw [List.map_singleton, List.map_singleton]
      exact congrArg (_ ++ [·]) hanswer

-- The two caches give the same answers, errors and their causes included, if the server tells the
-- collections apart. The memory cache needs room for the keys of each collection, the server has to
-- compare ages and lifetimes as if exactly; who approves of sweeps, and when timers fire, does not
-- matter.
theorem memory_and_relational_answer_alike (name : Option String) (naming : Naming)
    (schema : String) (approve : Option (Collection → Bool)) (s : RelationalCache)
    (steps : List (Time × Step)) (hnew : RelationalCache.new schema approve = .ok s)
    (hapart : naming.Apart (taken .empty (calls steps))) (hclock : IsChronological steps)
    (hnames : ∀ time c, (time, .call (.register c)) ∈ steps →
      checkIdentifier "collection" c.name = .ok ())
    (hroom : ∀ c, (∃ x ∈ Backend.history (MemoryCache.new name) (calls steps), x.Registers c) →
      (Backend.history (MemoryCache.new name) (calls steps)).HasRoom c)
    (hexact : ∀ c, (∃ x ∈ Backend.history (MemoryCache.new name) (calls steps), x.Registers c) →
      ∀ x ∈ Backend.history (MemoryCache.new name) (calls steps),
      ∀ y ∈ Backend.history (MemoryCache.new name) (calls steps), ∀ k value,
        x.Writes (c.entry k) value → y.request = .get (c.entry k) →
        ComparesExactly y.time c x.time) :
    { s with link := { s.link with naming } }.answers steps =
      (Backend.history (MemoryCache.new name) (calls steps)).map Exchange.answer := by
  have hc : Comparable (Backend.history (MemoryCache.new name) (calls steps)) := by
    refine ⟨?_, hroom, hexact⟩
    intro x hx c hreq
    have hm := mem_calls (Backend.mem_history hx)
    rw [hreq] at hm
    exact hnames x.time c hm
  have hmimics :
      { s with link := { s.link with naming } }.Mimics (taken .empty (calls steps)) s := by
    rw [new_eq_start hnew]
    exact ⟨.empty, rfl, hapart, fun _ _ => rfl⟩
  have hplain : { s with link := { s.link with naming } }.answers steps =
      (Backend.history (start schema (some fun _ => false) .empty) (calls steps)).map
        Exchange.answer := by
    rw [new_eq_start hnew] at hmimics ⊢
    rw [(hmimics.steps (isSound_start schema approve Server.ordered_empty) nofun fun _ => id).1]
    exact answers_eq_history (alike_start schema approve _ .empty)
      (isSound_start schema approve Server.ordered_empty)
      (isSound_start schema _ Server.ordered_empty) (fun x _ => Nat.zero_le x.1) hclock
  rw [hplain]
  exact (mirrors_after name schema (calls steps) hclock.calls hc).2

-- A lifetime of ten seconds, and an entry that is read within it and after it. In between the timer
-- fires, and the owner takes his approval back.
theorem ten_seconds_in_memory_and_in_a_table :
    let c : Collection := ⟨"c", some ⟨10000000000⟩, .int64, 1⟩
    let steps : List (Time × Step) :=
      [(5, .call (.register c)), (5, .call (.set (c.entry "k") (.int64 7))),
        (6, .call (.get (c.entry "k"))), (7, .call (.set (c.entry "k") (.string "seven"))),
        (11000000000, .fire), (12000000000, .approve fun _ => false),
        (13000000000, .call (.get (c.entry "k")))]
    let s := start "public" (some fun _ => true) .empty
    RelationalCache.new "public" (some fun _ => true) = .ok s ∧
      { s with link := { s.link with naming := .folded } }.answers steps =
        [.ok none, .ok none, .ok (some (.int64 7)),
          .error (.usage (.notStorable .string .int64)), .ok none] := by
  intro c steps s
  have hnew : RelationalCache.new "public" (some fun _ => true) = .ok s := by
    rfl
  have hh : Backend.history (MemoryCache.new none) (calls steps) =
      [⟨5, .register c, .ok none⟩, ⟨5, .set (c.entry "k") (.int64 7), .ok none⟩,
        ⟨6, .get (c.entry "k"), .ok (some (.int64 7))⟩,
        ⟨7, .set (c.entry "k") (.string "seven"), .error (.usage (.notStorable .string .int64))⟩,
        ⟨13000000000, .get (c.entry "k"), .ok none⟩] := by
    unfold steps c
    rfl
  have hclock : IsChronological steps := by
    unfold IsChronological steps
    decide
  have hnames : ∀ time c', (time, .call (.register c')) ∈ steps →
      checkIdentifier "collection" c'.name = .ok () := by
    intro time c' hm
    have hc : time = 5 ∧ c' = c := by simpa [steps] using hm
    rw [hc.2]
    show checkIdentifier "collection" "c" = .ok ()
    rfl
  have honly : ∀ c', (∃ x ∈ Backend.history (MemoryCache.new none) (calls steps),
      x.Registers c') → c' = c := by
    rw [hh]
    rintro c' ⟨x, hx, hreq, -⟩
    simp only [List.mem_cons, List.not_mem_nil, or_false] at hx
    rcases hx with rfl | rfl | rfl | rfl | rfl <;> cases hreq
    rfl
  have hapart : Naming.Apart .folded (taken .empty (calls steps)) := by
    unfold steps c
    decide +kernel
  refine ⟨hnew, ?_⟩
  rw [memory_and_relational_answer_alike none .folded "public" _ s steps hnew hapart hclock hnames
    ?_ ?_, hh]
  · rfl
  · intro c' hreg
    rw [honly c' hreg, hh]
    right
    decide
  · intro c' hreg x hx y hy k value hwrites hget
    have hearly : ComparesExactly 6 c 5 := by
      unfold ComparesExactly c
      decide +kernel
    have hlate : ComparesExactly 13000000000 c 5 := by
      unfold ComparesExactly c
      decide +kernel
    obtain rfl := honly c' hreg
    rw [hh] at hx hy
    simp only [List.mem_cons, List.not_mem_nil, or_false] at hx hy
    obtain ⟨hset, hok⟩ := hwrites
    rcases hx with rfl | rfl | rfl | rfl | rfl <;> cases hset <;>
      rcases hy with rfl | rfl | rfl | rfl | rfl <;> cases hget
    · exact hearly
    · exact hlate
    · cases hok
    · cases hok

-- Names that differ in the case of a letter are one name to a server that folds them, and what is
-- written to the one collection is read from the other.
theorem folded_names_share_rows :
    let users : Collection := ⟨"users", none, .int64, 0⟩
    let capital : Collection := ⟨"Users", none, .int64, 0⟩
    let steps : List (Time × Step) :=
      [(1, .call (.register users)), (1, .call (.register capital)),
        (1, .call (.set (users.entry "k") (.int64 1))), (1, .call (.get (capital.entry "k")))]
    let s := start "public" none .empty
    RelationalCache.new "public" none = .ok s ∧ IsChronological steps ∧
      checkIdentifier "collection" "users" = .ok () ∧
      checkIdentifier "collection" "Users" = .ok () ∧
      { s with link := { s.link with naming := .folded } }.answers steps =
        [.ok none, .ok none, .ok none, .ok (some (.int64 1))] ∧
      (Backend.history (MemoryCache.new none) (calls steps)).map Exchange.answer =
        [.ok none, .ok none, .ok none, .ok none] := by
  refine ⟨rfl, ?_, rfl, rfl, ?_, ?_⟩
  · unfold IsChronological
    decide
  · decide +kernel
  · decide +kernel

end PolyCache
