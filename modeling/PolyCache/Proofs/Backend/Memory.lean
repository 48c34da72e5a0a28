import Mathlib.Data.List.Induction
import PolyCache.Proofs.Backend.Partition
import PolyCache.Proofs.Registry

-- What a cache in memory holds and answers, told from its history alone.
namespace PolyCache.MemoryCache

open History

variable {s : MemoryCache} {p p' : Partition} {h : History} {x : Exchange} {now : Time}
  {key : EntryKey} {value : Value} {name other : String}

theorem get_put :
    (s.put name p).partitions.get other =
      if other = name then (s.partitions.get other).map fun _ => p
      else s.partitions.get other :=
  Registry.get_adjust _ _ _ _

-- A partition may change in everything but its collection.
theorem collection_of_put (hp : s.partitions.get name = .ok p) (hc : p'.collection = p.collection)
    (other : String) :
    ((s.put name p').partitions.get other).map Partition.collection =
      (s.partitions.get other).map Partition.collection := by
  rw [get_put]
  split
  · rename_i ho
    rw [ho, hp]
    exact congrArg Except.ok hc
  · rfl

-- Each collection has its partition, and a collection without one was never written to.
structure Reflects (s : MemoryCache) (h : History) : Prop where
  registered : ∀ c, h.Registered c → ∃ p, s.partitions.get c.name = .ok p ∧ p.collection = c
  partition : ∀ name p, s.partitions.get name = .ok p → p.collection.name = name ∧ p.Reflects h
  written : ∀ x ∈ h, ∀ key value, x.Writes key value →
    s.partitions.get key.collection ≠ .error (.usage (.notRegistered key.collection))

theorem reflects_start (name : Option String) : (new name).Reflects [] where
  registered c hc := by
    obtain ⟨⟨x, hx, -⟩, -⟩ := hc
    simp at hx
  partition name p hp := by simp [new] at hp
  written x hx := by simp at hx

-- A collection that has been written to by now has a partition, or it is the last write that is
-- still to be accounted for.
theorem Reflects.written_concat (hr : s.Reflects h) {y : Exchange} (hy : y ∈ h ++ [x])
    (hwrites : y.Writes key value) :
    s.partitions.get key.collection ≠ .error (.usage (.notRegistered key.collection)) ∨
      x.Writes key value := by
  rcases List.mem_append.mp hy with hy | hy
  · exact Or.inl (hr.written y hy key value hwrites)
  · rw [List.mem_singleton.mp hy] at hwrites
    exact Or.inr hwrites

-- A failed exchange that ends nothing.
theorem Reflects.refuse (hr : s.Reflects h) {e : Error} (he : x.answer = .error e)
    (hx : ∀ name p, s.partitions.get name = .ok p → ∀ key writtenAt,
      ¬ x.Ends (p.collection.entry key) p.collection.effectiveTtl writtenAt) :
    s.Reflects (h ++ [x]) where
  registered c hc := by
    rcases (registered_concat.mp hc).1 with hold | ⟨⟨-, hok⟩, -⟩
    · exact hr.registered c hold
    · rw [he] at hok
      cases hok
  partition name p hp :=
    ⟨(hr.partition name p hp).1, (hr.partition name p hp).2.idle (hx name p hp)⟩
  written y hy key value hwrites := by
    rcases hr.written_concat hy hwrites with hold | hlast
    · exact hold
    · rw [hlast.2] at he
      cases he

-- An exchange about a key of one partition, which alone changes.
theorem Reflects.put (hr : s.Reflects h) (hp : s.partitions.get key.collection = .ok p)
    (hkey : x.request.key? = some key) (hc : p'.collection = p.collection)
    (hp' : p'.Reflects (h ++ [x])) : (s.put key.collection p').Reflects (h ++ [x]) where
  registered c hreg := by
    rcases (registered_concat.mp hreg).1 with hold | ⟨⟨hreq, -⟩, -⟩
    · obtain ⟨q, hq, rfl⟩ := hr.registered c hold
      rw [get_put]
      by_cases hn : q.collection.name = key.collection
      · rw [hn, hp] at hq
        cases hq
        rw [if_pos hn, hn, hp]
        exact ⟨p', rfl, hc⟩
      · rw [if_neg hn]
        exact ⟨q, hq, rfl⟩
    · rw [hreq] at hkey
      cases hkey
  partition name q hq := by
    rw [get_put] at hq
    by_cases hn : name = key.collection
    · rw [if_pos hn, hn, hp] at hq
      cases hq
      rw [hc, hn]
      exact ⟨(hr.partition _ p hp).1, hp'⟩
    · rw [if_neg hn] at hq
      obtain ⟨hname, hold⟩ := hr.partition name q hq
      refine ⟨hname, hold.idle fun k writtenAt => not_ends_of_key? ?_⟩
      rw [hkey]
      rintro heq
      exact hn (by rw [← hname, Option.some.inj heq]; rfl)
  written y hy other value hwrites := by
    rw [get_put]
    split
    · rename_i hn
      rw [hn, hp]
      exact nofun
    · rename_i hn
      rcases hr.written_concat hy hwrites with hold | hlast
      · exact hold
      · rw [hlast.1] at hkey
        exact absurd (congrArg EntryKey.collection (Option.some.inj hkey)) hn

theorem reflects_register (hr : s.Reflects h) (c : Collection) :
    (s.register c).state.Reflects (h ++ [⟨now, .register c, (s.register c).answer⟩]) := by
  unfold register
  cases hi : s.partitions.insert c.name (.new c) with
  | error e => exact hr.refuse rfl fun name p _ k t => not_ends_of_key? nofun
  | ok partitions =>
      have hnone := Registry.get_of_vacant (Registry.insert_eq_ok_iff.mp hi).1
      have hget := Registry.get_insert hi
      refine ⟨?_, ?_, ?_⟩
      · intro c' hc'
        show ∃ p, partitions.get c'.name = .ok p ∧ _
        rw [hget]
        rcases (registered_concat.mp hc').1 with hold | ⟨⟨hreq, -⟩, -⟩
        · obtain ⟨p, hp, hc⟩ := hr.registered c' hold
          have hne : c'.name ≠ c.name := by
            intro heq
            rw [heq, hnone] at hp
            cases hp
          rw [if_neg hne]
          exact ⟨p, hp, hc⟩
        · obtain rfl := Request.register.inj hreq
          rw [if_pos rfl]
          exact ⟨_, rfl, rfl⟩
      · intro name p hp
        replace hp : partitions.get name = .ok p := hp
        rw [hget] at hp
        split at hp
        · rename_i hname
          cases hp
          refine ⟨hname.symm, Partition.reflects_new c ?_⟩
          intro y hy key value hwrites heq
          rcases hr.written_concat hy hwrites with hold | hlast
          · rw [heq] at hold
            exact hold hnone
          · cases hlast.1
        · exact ⟨(hr.partition name p hp).1,
            (hr.partition name p hp).2.idle fun k t => not_ends_of_key? nofun⟩
      · intro y hy key value hwrites
        show partitions.get key.collection ≠ _
        rw [hget]
        split
        · exact nofun
        · rcases hr.written_concat hy hwrites with hold | hlast
          · exact hold
          · cases hlast.1

theorem reflects_close (s : MemoryCache) (h : History) :
    s.close.state.Reflects (h ++ [⟨now, .close, s.close.answer⟩]) where
  registered c hc := absurd rfl (registered_concat.mp hc).2
  partition name p hp := by cases hp
  written y hy key value hwrites := nofun

theorem Reflects.entry_eq (hr : s.Reflects h) (hp : s.partitions.get key.collection = .ok p) :
    p.collection.entry key.key = key := by
  rw [Collection.entry, (hr.partition _ p hp).1]

-- A request about a name without a partition ends nothing in the partitions that there are.
theorem Reflects.not_ends (hr : s.Reflects h) {e : Error}
    (he : s.partitions.get key.collection = .error e) (hkey : x.request.key? = some key)
    (hp : s.partitions.get name = .ok p) (k : String) (ttl : Duration) (writtenAt : Time) :
    ¬ x.Ends (p.collection.entry k) ttl writtenAt := by
  apply not_ends_of_key?
  rw [hkey]
  intro heq
  have hname : key.collection = name := by
    rw [Option.some.inj heq]
    exact (hr.partition name p hp).1
  rw [hname, hp] at he
  cases he

theorem reflects_set (hr : s.Reflects h) (key : EntryKey) (value : Value) :
    (s.set now key value).state.Reflects
      (h ++ [⟨now, .set key value, (s.set now key value).answer⟩]) := by
  unfold set
  cases hp : s.partitions.get key.collection with
  | error e => exact hr.refuse rfl fun name p hp' k t => hr.not_ends hp rfl hp' k _ t
  | ok p =>
      cases hencode : p.collection.type.encode value with
      | error e =>
          simp only [hencode]
          exact hr.refuse rfl fun name q _ k t => not_ends_of_failed
      | ok bytes =>
          simp only [hencode]
          refine hr.put hp rfl rfl ?_
          have hwrite := (hr.partition _ p hp).2.write now key.key hencode
          rw [hr.entry_eq hp] at hwrite
          exact hwrite

theorem set_of_encode (hp : s.partitions.get key.collection = .ok p) {bytes : Bytes}
    (hencode : p.collection.type.encode value = .ok bytes) (now : Time) :
    s.set now key value =
      .done (s.put key.collection { p with shelf := p.shelf.write key.key ⟨bytes, now⟩ }) := by
  simp only [set, hp, hencode]

theorem get_answer (hp : s.partitions.get key.collection = .ok p) (now : Time) :
    (s.get now key).answer =
      match (p.read now key.key).1 with
      | none => .ok none
      | some entry => (p.collection.type.decode entry.bytes).map some := by
  simp only [get, hp, Partition.read_collection]
  cases (p.read now key.key).1 <;> rfl

theorem get_state (hp : s.partitions.get key.collection = .ok p) (now : Time) :
    (s.get now key).state = s.put key.collection (p.read now key.key).2 := by
  simp only [get, hp]
  cases (p.read now key.key).1 <;> rfl

theorem reflects_get (hr : s.Reflects h) (key : EntryKey) :
    (s.get now key).state.Reflects (h ++ [⟨now, .get key, (s.get now key).answer⟩]) := by
  cases hp : s.partitions.get key.collection with
  | error e =>
      simp only [get, hp]
      exact hr.refuse rfl fun name p hp' k t => hr.not_ends hp rfl hp' k _ t
  | ok p =>
      have hread := (hr.partition _ p hp).2.read now key.key (s.get now key).answer
      rw [hr.entry_eq hp] at hread
      rw [get_state hp]
      exact hr.put hp rfl Partition.read_collection hread

theorem reflects_del (hr : s.Reflects h) (key : EntryKey) :
    (s.del key).state.Reflects (h ++ [⟨now, .del key, (s.del key).answer⟩]) := by
  unfold del
  cases hp : s.partitions.get key.collection with
  | error e => exact hr.refuse rfl fun name p hp' k t => hr.not_ends hp rfl hp' k _ t
  | ok p =>
      have herase := (hr.partition _ p hp).2.erase now key.key (.ok none)
      rw [hr.entry_eq hp] at herase
      exact hr.put hp rfl rfl herase

theorem collection_put {q q' : Partition} (hq : s.partitions.get other = .ok q)
    (hc : q'.collection = q.collection) (hp' : (s.put other q').partitions.get name = .ok p') :
    ∃ p, s.partitions.get name = .ok p ∧ p'.collection = p.collection := by
  rw [get_put] at hp'
  split at hp'
  · rename_i hn
    rw [hn, hq] at hp'
    cases hp'
    rw [hn]
    exact ⟨q, hq, hc⟩
  · exact ⟨p', hp', rfl⟩

-- A call keeps the collection of each partition, or brings a new one.
theorem call_partition {request : Request}
    (hp' : (s.call now request).state.partitions.get name = .ok p') :
    (∃ p, s.partitions.get name = .ok p ∧ p'.collection = p.collection) ∨
      request = .register p'.collection ∧ (s.call now request).answer = .ok none := by
  cases request with
  | register c =>
      replace hp' : (s.register c).state.partitions.get name = .ok p' := hp'
      show _ ∨ _ ∧ (s.register c).answer = .ok none
      unfold register at hp' ⊢
      cases hi : s.partitions.insert c.name (.new c) with
      | error e =>
          rw [hi] at hp'
          exact Or.inl ⟨p', hp', rfl⟩
      | ok partitions =>
          rw [hi] at hp'
          replace hp' : partitions.get name = .ok p' := hp'
          rw [Registry.get_insert hi] at hp'
          split at hp'
          · cases hp'
            exact Or.inr ⟨rfl, rfl⟩
          · exact Or.inl ⟨p', hp', rfl⟩
  | set key value =>
      left
      replace hp' : (s.set now key value).state.partitions.get name = .ok p' := hp'
      unfold set at hp'
      split at hp'
      · exact ⟨p', hp', rfl⟩
      · rename_i q hq
        split at hp'
        · exact ⟨p', hp', rfl⟩
        · refine collection_put hq ?_ hp'
          rfl
  | get key =>
      left
      replace hp' : (s.get now key).state.partitions.get name = .ok p' := hp'
      cases hq : s.partitions.get key.collection with
      | error e =>
          simp only [get, hq] at hp'
          exact ⟨p', hp', rfl⟩
      | ok q =>
          rw [get_state hq] at hp'
          exact collection_put hq Partition.read_collection hp'
  | del key =>
      left
      replace hp' : (s.del key).state.partitions.get name = .ok p' := hp'
      unfold del at hp'
      split at hp'
      · exact ⟨p', hp', rfl⟩
      · rename_i q hq
        refine collection_put hq ?_ hp'
        rfl
  | close => cases hp'

-- A request about another collection leaves a partition as it is.
theorem get_call_other {request : Request} (h : request.concerns name = false) (now : Time) :
    (s.call now request).state.partitions.get name = s.partitions.get name := by
  cases request with
  | register c =>
      have hne := Request.ne_of_not_concerns h rfl
      show (s.register c).state.partitions.get name = _
      unfold register
      split
      · rfl
      · rename_i partitions hinsert
        show partitions.get name = _
        rw [Registry.get_insert hinsert, if_neg hne]
  | set key value =>
      have hne := Request.ne_of_not_concerns h rfl
      show (s.set now key value).state.partitions.get name = _
      unfold set
      split
      · rfl
      · split
        · rfl
        · exact get_put.trans (if_neg hne)
  | get key =>
      have hne := Request.ne_of_not_concerns h rfl
      show (s.get now key).state.partitions.get name = _
      cases hp : s.partitions.get key.collection with
      | error e => simp only [get, hp, Outcome.refuse]
      | ok p => rw [get_state hp, get_put, if_neg hne]
  | del key =>
      have hne := Request.ne_of_not_concerns h rfl
      show (s.del key).state.partitions.get name = _
      unfold del
      split
      · rfl
      · exact get_put.trans (if_neg hne)
  | close => cases h

-- What a request about the collection answers, and leaves of its
-- partition, depends on nothing else.
theorem call_alike {r : MemoryCache} {request : Request}
    (h : s.partitions.get name = r.partitions.get name) (hc : request.concerns name = true)
    (now : Time) :
    (s.call now request).answer = (r.call now request).answer ∧
      (s.call now request).state.partitions.get name =
        (r.call now request).state.partitions.get name := by
  cases request with
  | register c =>
      obtain rfl := Request.eq_of_concerns hc rfl
      show (s.register c).answer = (r.register c).answer ∧
        (s.register c).state.partitions.get c.name = (r.register c).state.partitions.get c.name
      unfold register
      rcases Registry.insert_same h (.new c) with ⟨e, hr, hs⟩ | ⟨t, u, hr, hs, hsame⟩
      · rw [hs, hr]
        exact ⟨rfl, h⟩
      · rw [hs, hr]
        exact ⟨rfl, hsame⟩
  | set key value =>
      obtain rfl := Request.eq_of_concerns hc rfl
      show (s.set now key value).answer = (r.set now key value).answer ∧
        (s.set now key value).state.partitions.get _ = (r.set now key value).state.partitions.get _
      simp only [set, ← h]
      split
      · exact ⟨rfl, h⟩
      · split
        · exact ⟨rfl, h⟩
        · refine ⟨rfl, ?_⟩
          show (s.put _ _).partitions.get _ = (r.put _ _).partitions.get _
          rw [get_put, get_put, h]
  | get key =>
      obtain rfl := Request.eq_of_concerns hc rfl
      show (s.get now key).answer = (r.get now key).answer ∧
        (s.get now key).state.partitions.get _ = (r.get now key).state.partitions.get _
      cases hp : s.partitions.get key.collection with
      | error e =>
          have hp' : r.partitions.get key.collection = .error e := h ▸ hp
          unfold get
          rw [hp, hp']
          exact ⟨rfl, h⟩
      | ok p =>
          have hp' : r.partitions.get key.collection = .ok p := h ▸ hp
          rw [get_answer hp, get_answer hp', get_state hp, get_state hp']
          refine ⟨rfl, ?_⟩
          rw [get_put, get_put, h]
  | del key =>
      obtain rfl := Request.eq_of_concerns hc rfl
      show (s.del key).answer = (r.del key).answer ∧
        (s.del key).state.partitions.get _ = (r.del key).state.partitions.get _
      simp only [del, ← h]
      split
      · exact ⟨rfl, h⟩
      · refine ⟨rfl, ?_⟩
        show (s.put _ _).partitions.get _ = (r.put _ _).partitions.get _
        rw [get_put, get_put, h]
  | close => exact ⟨rfl, rfl⟩

-- Each partition is there because its collection was registered.
theorem partition_registered (name : Option String) (calls : List (Time × Request)) {n : String}
    (hp : (Backend.after (new name) calls).partitions.get n = .ok p) :
    ∃ x ∈ Backend.history (new name) calls, x.Registers p.collection := by
  induction calls using List.reverseRecOn generalizing p with
  | nil => simp [Backend.after, new] at hp
  | append_singleton calls last ih =>
      obtain ⟨now, request⟩ := last
      rw [Backend.after_concat] at hp
      rw [Backend.history_concat]
      rcases call_partition hp with ⟨q, hq, hc⟩ | ⟨hreq, hans⟩
      · obtain ⟨x, hx, hreg⟩ := ih hq
        rw [hc]
        exact ⟨x, List.mem_append_left _ hx, hreg⟩
      · exact ⟨_, List.mem_append_right _ (List.mem_singleton_self _), hreq, hans⟩

-- A cache stays closed.
theorem closed_call (h : s.partitions.entries? = none) (now : Time) (request : Request) :
    (s.call now request).state.partitions.entries? = none := by
  have hget (name : String) : s.partitions.get name = .error (.usage .closed) := by
    rw [Registry.get, h]
  cases request with
  | register c =>
      simp only [call, register, Registry.insert, h]
      exact h
  | set key value =>
      simp only [call, set, hget]
      exact h
  | get key =>
      simp only [call, get, hget]
      exact h
  | del key =>
      simp only [call, del, hget]
      exact h
  | close => rfl

theorem closed_after (name : Option String) (calls : List (Time × Request))
    (h : ∃ x ∈ Backend.history (new name) calls, x.request = .close) :
    (Backend.after (new name) calls).partitions.entries? = none := by
  induction calls using List.reverseRecOn with
  | nil =>
      obtain ⟨x, hx, -⟩ := h
      cases hx
  | append_singleton calls last ih =>
      obtain ⟨now, request⟩ := last
      rw [Backend.history_concat] at h
      rw [Backend.after_concat]
      obtain ⟨x, hx, hclose⟩ := h
      rcases List.mem_append.mp hx with hx | hx
      · exact closed_call (ih ⟨x, hx, hclose⟩) now request
      · rw [List.mem_singleton.mp hx] at hclose
        replace hclose : request = .close := hclose
        rw [hclose]
        rfl

theorem registered_of_partition (name : Option String) (calls : List (Time × Request)) {n : String}
    (hp : (Backend.after (new name) calls).partitions.get n = .ok p) :
    (Backend.history (new name) calls).Registered p.collection := by
  refine ⟨partition_registered name calls hp, ?_⟩
  intro x hx hclose
  have hclosed := closed_after name calls ⟨x, hx, hclose⟩
  rw [Registry.get, hclosed] at hp
  cases hp

theorem Reflects.call (hr : s.Reflects h) (now : Time) (request : Request) :
    (s.call now request).state.Reflects (h ++ [⟨now, request, (s.call now request).answer⟩]) := by
  cases request with
  | register c => exact reflects_register hr c
  | set key value => exact reflects_set hr key value
  | get key => exact reflects_get hr key
  | del key => exact reflects_del hr key
  | close => exact reflects_close s h

theorem reflects_after (name : Option String) (calls : List (Time × Request)) :
    (Backend.after (new name) calls).Reflects (Backend.history (new name) calls) := by
  induction calls using List.reverseRecOn with
  | nil => exact reflects_start name
  | append_singleton calls call ih =>
      obtain ⟨now, request⟩ := call
      rw [Backend.after_concat, Backend.history_concat]
      exact ih.call now request

-- What a `get` finds is the last accepted write of its key, unless that has been deleted or has
-- been read once at or after the end of its lifetime. With room for all keys it is always found.
-- No `get` in a registered collection fails.
theorem get_finds_last_write (name : Option String) (calls : List (Time × Request))
    (c : Collection) (key : String) (now : Time)
    (hc : (Backend.history (new name) calls).Registered c) :
    ∃ found,
      ((Backend.after (new name) calls).call now (.get (c.entry key))).answer = .ok found ∧
      (∀ value, found = some value → ∃ writtenAt,
        (Backend.history (new name) calls).Kept (c.entry key) c.effectiveTtl value writtenAt ∧
        now - writtenAt < c.effectiveTtl.nanoseconds) ∧
      ((Backend.history (new name) calls).HasRoom c → ∀ value writtenAt,
        (Backend.history (new name) calls).Kept (c.entry key) c.effectiveTtl value writtenAt →
        now - writtenAt < c.effectiveTtl.nanoseconds → found = some value) := by
  have hr := reflects_after name calls
  generalize Backend.history (new name) calls = h at hr hc ⊢
  generalize Backend.after (new name) calls = s at hr ⊢
  obtain ⟨p, hp, rfl⟩ := hr.registered c hc
  have hp' := (hr.partition _ p hp).2
  have hget : (s.call now (.get (p.collection.entry key))).answer =
      match (p.read now key).1 with
      | none => .ok none
      | some entry => (p.collection.type.decode entry.bytes).map some :=
    get_answer (s := s) hp now
  cases hread : (p.read now key).1 with
  | none =>
      refine ⟨none, by rw [hget, hread], nofun, ?_⟩
      intro hroom value writtenAt hk hyoung
      obtain ⟨bytes, -, hl⟩ := hp'.found hroom key value writtenAt hk
      have hlive : p.isExpired now ⟨bytes, writtenAt⟩ = false :=
        Partition.isExpired_eq_false_iff.mpr (Nat.not_le.mpr hyoung)
      rw [Partition.read_eq_some_iff.mpr ⟨hl, hlive⟩] at hread
      cases hread
  | some entry =>
      obtain ⟨hl, hlive⟩ := Partition.read_eq_some_iff.mp hread
      obtain ⟨value, hencode, hk⟩ := hp'.kept key entry hl
      have hdecode := ValueType.decode_of_encode hencode
      refine ⟨some value, ?_, ?_, ?_⟩
      · rw [hget, hread]
        show (p.collection.type.decode entry.bytes).map some = _
        rw [hdecode]
        rfl
      · intro other heq
        rw [← Option.some.inj heq]
        exact ⟨entry.storedAt, hk, Nat.not_le.mp (Partition.isExpired_eq_false_iff.mp hlive)⟩
      · -- two writes that still count have left the same bytes
        intro hroom other writtenAt hother _
        obtain ⟨bytes, hencode', hl'⟩ := hp'.found hroom key other writtenAt hother
        rw [hl] at hl'
        have hbytes : entry.bytes = bytes := by rw [Option.some.inj hl']
        rw [hbytes] at hdecode
        rw [ValueType.decode_of_encode hencode'] at hdecode
        rw [Except.ok.inj hdecode]

-- Ten nanoseconds are not over after nine, and a clock that goes back does not make an entry older.
theorem get_finds_young_entry :
    let c : Collection := ⟨"c", some ⟨10⟩, .int64, 1⟩
    let calls : List (Time × Request) :=
      [(0, .register c), (5, .set (c.entry "k") (.int64 7)), (14, .get (c.entry "k"))]
    (Backend.history (new none) calls).Registered c ∧
      ((Backend.after (new none) calls).call 2 (.get (c.entry "k"))).answer =
        .ok (some (.int64 7)) := by
  intro c calls
  have hh : Backend.history (new none) calls =
      [⟨0, .register c, .ok none⟩, ⟨5, .set (c.entry "k") (.int64 7), .ok none⟩,
        ⟨14, .get (c.entry "k"), .ok (some (.int64 7))⟩] := by
    unfold calls c
    rfl
  have hc : (Backend.history (new none) calls).Registered c := by
    rw [hh]
    simp [History.Registered, Exchange.Registers]
  have hk : (Backend.history (new none) calls).Kept (c.entry "k") c.effectiveTtl (.int64 7) 5 := by
    rw [hh]
    refine ⟨[_], [_], rfl, ?_⟩
    simp [Exchange.Ends, Exchange.Writes, c, Collection.effectiveTtl]
  refine ⟨hc, ?_⟩
  obtain ⟨found, hans, -, hfound⟩ := get_finds_last_write none calls c "k" 2 hc
  rw [hans, hfound (by rw [hh]; right; decide) _ 5 hk (by decide)]

end PolyCache.MemoryCache
