import PolyCache.Backend.Null
import PolyCache.Proofs.Backend.Memory
import PolyCache.Proofs.Backend.Mock

-- The cache that keeps nothing, the one in memory and the mock fail alike, so a test against one
-- foretells the failures of the others. The last two also find the same values, as long as no entry
-- is turned away and none is read after its lifetime.
namespace PolyCache

variable {n : NullCache} {m m' : MemoryCache} {k k' : MockCache} {p : Partition} {h : History}
  {now : Time} {request : Request} {key : EntryKey} {value : Value} {name : String} {e : Error}

-- The same collections are registered in all three, and no failures are asked of the mock.
structure Agree (n : NullCache) (m : MemoryCache) (k : MockCache) : Prop where
  unfailing : k.failing = none
  null : ∀ name, n.collections.get name = (m.partitions.get name).map Partition.collection
  mock : ∀ name, k.collections.get name = (m.partitions.get name).map Partition.collection

theorem agree_start (name : Option String) : Agree .new (.new name) .new where
  unfailing := rfl
  null _ := rfl
  mock _ := rfl

theorem Agree.record (ha : Agree n m k) (request : Request) : Agree n m (k.record request) where
  unfailing := ha.unfailing
  null := ha.null
  mock := ha.mock

theorem Agree.get_ok (ha : Agree n m k) (hp : m.partitions.get name = .ok p) :
    n.collections.get name = .ok p.collection ∧ k.collections.get name = .ok p.collection := by
  rw [ha.null, ha.mock, hp]
  exact ⟨rfl, rfl⟩

theorem Agree.get_error (ha : Agree n m k) (hp : m.partitions.get name = .error e) :
    n.collections.get name = .error e ∧ k.collections.get name = .error e := by
  rw [ha.null, ha.mock, hp]
  exact ⟨rfl, rfl⟩

-- A partition may change in everything but its collection.
theorem Agree.put {p' : Partition} (ha : Agree n m k) (hp : m.partitions.get name = .ok p)
    (hc : p'.collection = p.collection) (data : List (EntryKey × Value)) :
    Agree n (m.put name p') { k with data } where
  unfailing := ha.unfailing
  null other := by rw [ha.null, MemoryCache.collection_of_put hp hc]
  mock other := by
    show k.collections.get other = _
    rw [ha.mock, MemoryCache.collection_of_put hp hc]

def StoredEntry.Encodes (type : ValueType) (entry : StoredEntry) (value : Value) : Prop :=
  type.encode value = .ok entry.bytes

-- No entry stands for two values.
theorem StoredEntry.encodes_unique {type : ValueType} {stored? : Option StoredEntry}
    {value? other? : Option Value} (hv : Option.Rel (Encodes type) stored? value?)
    (ho : Option.Rel (Encodes type) stored? other?) : value? = other? := by
  cases hv with
  | none =>
      cases ho with
      | none => rfl
  | some hv =>
      cases ho with
      | some ho =>
          have hdecode := ValueType.decode_of_encode hv
          rw [ValueType.decode_of_encode ho] at hdecode
          rw [Except.ok.inj hdecode]

-- Bytes that are found always decode: they are the encoded value of the last write. The value is
-- that of the entry that was found.
theorem MemoryCache.Reflects.get_found (hr : m.Reflects h)
    (hp : m.partitions.get key.collection = .ok p) (now : Time) :
    ∃ found, (m.get now key).answer = .ok found ∧
      Option.Rel (StoredEntry.Encodes p.collection.type) (p.read now key.key).1 found := by
  rw [get_answer hp]
  cases hread : (p.read now key.key).1 with
  | none => exact ⟨none, rfl, .none⟩
  | some entry =>
      have hl := (Partition.read_eq_some_iff.mp hread).1
      obtain ⟨value, hencode, -⟩ := (hr.partition _ p hp).2.kept key.key entry hl
      refine ⟨some value, ?_, .some hencode⟩
      show (p.collection.type.decode entry.bytes).map some = _
      rw [ValueType.decode_of_encode hencode]
      rfl

-- All succeed, or all fail with the same error, and they agree afterwards.
structure FailAlike (n : Outcome NullCache) (m : Outcome MemoryCache) (k : Outcome MockCache) :
    Prop where
  null : n.answer.failure? = m.answer.failure?
  mock : k.answer.failure? = m.answer.failure?
  state : Agree n.state m.state k.state

theorem Agree.refuse (ha : Agree n m k) (e : Error) :
    FailAlike (.refuse n e) (.refuse m e) (.refuse k e) :=
  ⟨rfl, rfl, ha⟩

theorem Agree.register (ha : Agree n m k) (c : Collection) :
    FailAlike (n.register c) (m.register c) (k.register c) := by
  have hnull := Registry.insert_alike Partition.collection (ha.null c.name) (.new c)
  have hmock := Registry.insert_alike Partition.collection (ha.mock c.name) (.new c)
  unfold NullCache.register MemoryCache.register MockCache.register
  rcases hnull with ⟨e, hm, hn⟩ | ⟨partitions, names, hm, hn, hnames⟩
  · rcases hmock with ⟨e', hm', hk⟩ | ⟨_, _, hm', -⟩
    · obtain rfl := Except.error.inj (hm.symm.trans hm')
      replace hn : n.collections.insert c.name c = .error e := hn
      replace hk : k.collections.insert c.name c = .error e := hk
      rw [hm, hn, hk]
      exact ⟨rfl, rfl, ha⟩
    · cases hm.symm.trans hm'
  · rcases hmock with ⟨_, hm', -⟩ | ⟨_, collections, hm', hk, hcollections⟩
    · cases hm.symm.trans hm'
    · obtain rfl := Except.ok.inj (hm.symm.trans hm')
      replace hn : n.collections.insert c.name c = .ok names := hn
      replace hk : k.collections.insert c.name c = .ok collections := hk
      rw [hm, hn, hk]
      exact ⟨rfl, rfl, ha.unfailing, fun other => hnames other (ha.null other),
        fun other => hcollections other (ha.mock other)⟩

theorem Agree.set (ha : Agree n m k) (now : Time) (key : EntryKey) (value : Value) :
    FailAlike (n.set key value) (m.set now key value) (k.set key value) := by
  unfold NullCache.set MemoryCache.set MockCache.set
  cases hp : m.partitions.get key.collection with
  | error e =>
      obtain ⟨hn, hk⟩ := ha.get_error hp
      rw [hn, hk]
      exact ha.refuse e
  | ok p =>
      obtain ⟨hn, hk⟩ := ha.get_ok hp
      rw [hn, hk]
      dsimp only
      cases p.collection.type.encode value with
      | error e => exact ha.refuse e
      | ok bytes =>
          refine ⟨rfl, rfl, ha.put hp ?_ _⟩
          rfl

theorem Agree.get (ha : Agree n m k) (hr : m.Reflects h) (now : Time) (key : EntryKey) :
    FailAlike (n.lookup key) (m.get now key) (k.get key) := by
  unfold NullCache.lookup MockCache.get
  cases hp : m.partitions.get key.collection with
  | error e =>
      obtain ⟨hn, hk⟩ := ha.get_error hp
      rw [hn, hk, MemoryCache.get, hp]
      exact ha.refuse e
  | ok p =>
      obtain ⟨hn, hk⟩ := ha.get_ok hp
      obtain ⟨found, hfound, -⟩ := hr.get_found hp now
      rw [hn, hk]
      refine ⟨?_, ?_, ?_⟩
      · rw [hfound]
        rfl
      · rw [hfound]
        rfl
      · rw [MemoryCache.get_state hp]
        exact ha.put hp Partition.read_collection k.data

theorem Agree.del (ha : Agree n m k) (key : EntryKey) :
    FailAlike (n.lookup key) (m.del key) (k.del key) := by
  unfold NullCache.lookup MemoryCache.del MockCache.del
  cases hp : m.partitions.get key.collection with
  | error e =>
      obtain ⟨hn, hk⟩ := ha.get_error hp
      rw [hn, hk]
      exact ha.refuse e
  | ok p =>
      obtain ⟨hn, hk⟩ := ha.get_ok hp
      rw [hn, hk]
      refine ⟨rfl, rfl, ha.put hp ?_ _⟩
      rfl

theorem Agree.call (ha : Agree n m k) (hr : m.Reflects h) (now : Time) (request : Request) :
    FailAlike (n.call now request) (m.call now request) (k.call now request) := by
  rw [MockCache.call_eq_perform ha.unfailing]
  have hrecorded := ha.record request
  cases request with
  | register c => exact hrecorded.register c
  | set key value => exact hrecorded.set now key value
  | get key => exact hrecorded.get hr now key
  | del key => exact hrecorded.del key
  | close => exact ⟨rfl, rfl, ha.unfailing, fun _ => rfl, fun _ => rfl⟩

-- The null cache never finds anything.
theorem NullCache.call_answer {found : Option Value}
    (h : (n.call now request).answer = .ok found) : found = none := by
  have hlookup (key : EntryKey) (h : (n.lookup key).answer = .ok found) : found = none := by
    unfold lookup at h
    split at h
    · cases h
    · exact (Except.ok.inj h).symm
  cases request with
  | register c =>
      replace h : (n.register c).answer = .ok found := h
      unfold register at h
      split at h
      · cases h
      · exact (Except.ok.inj h).symm
  | set key value =>
      replace h : (n.set key value).answer = .ok found := h
      unfold set at h
      split at h
      · cases h
      · split at h
        · cases h
        · exact (Except.ok.inj h).symm
  | get key => exact hlookup key h
  | del key => exact hlookup key h
  | close => exact (Except.ok.inj h).symm

theorem NullCache.history_answer {calls : List (Time × Request)} {x : Exchange}
    {found : Option Value} (hx : x ∈ Backend.history n calls) (h : x.answer = .ok found) :
    found = none := by
  induction calls generalizing n with
  | nil => cases hx
  | cons call calls ih =>
      rcases List.mem_cons.mp hx with rfl | hx
      · exact call_answer h
      · exact ih hx

-- Entry and value of each key of one collection: the bytes are those of the value, or there is
-- neither.
structure Twins (name : String) (m : MemoryCache) (k : MockCache) : Prop where
  entries : ∀ p, m.partitions.get name = .ok p → ∀ key,
    Option.Rel (StoredEntry.Encodes p.collection.type) (p.shelf.entries.lookup key)
      (k.value? name key)
  vacant : m.partitions.get name = .error (.usage (.notRegistered name)) → ∀ key,
    k.value? name key = none

theorem twins_start (cacheName : Option String) : Twins name (.new cacheName) .new where
  entries p hp := by simp [MemoryCache.new] at hp
  vacant _ key := rfl

-- The same answer, and the entries are alike afterwards.
structure AnswerAlike (name : String) (m : Outcome MemoryCache) (k : Outcome MockCache) : Prop where
  answer : m.answer = k.answer
  state : Twins name m.state k.state

theorem Twins.refuse (ht : Twins name m k) (e : Error) :
    AnswerAlike name (.refuse m e) (.refuse k e) :=
  ⟨rfl, ht⟩

theorem Twins.record (ht : Twins name m k) (request : Request) :
    Twins name m (k.record request) where
  entries := ht.entries
  vacant := ht.vacant

theorem Twins.put {p' : Partition} (hp : m.partitions.get name = .ok p)
    (hc : p'.collection = p.collection)
    (hentries : ∀ key,
      Option.Rel (StoredEntry.Encodes p.collection.type) (p'.shelf.entries.lookup key)
        (k.value? name key)) :
    Twins name (m.put name p') k := by
  have hput : (m.put name p').partitions.get name = .ok p' := by
    rw [MemoryCache.get_put, if_pos rfl, hp]
    rfl
  refine ⟨?_, ?_⟩
  · intro q hq
    rw [hput] at hq
    cases hq
    rw [hc]
    exact hentries
  · intro hnone
    rw [hput] at hnone
    cases hnone

theorem Twins.register {c : Collection} (ht : Twins c.name m k) (ha : Agree n m k) :
    AnswerAlike c.name (m.register c) (k.register c) := by
  have hmock := Registry.insert_alike Partition.collection (ha.mock c.name) (.new c)
  unfold MemoryCache.register MockCache.register
  rcases hmock with ⟨e, hm, hk⟩ | ⟨partitions, collections, hm, hk, -⟩
  · replace hk : k.collections.insert c.name c = .error e := hk
    rw [hm, hk]
    exact ht.refuse e
  · replace hk : k.collections.insert c.name c = .ok collections := hk
    have hvacant := Registry.get_of_vacant (Registry.insert_eq_ok_iff.mp hm).1
    have hnew : partitions.get c.name = .ok (.new c) := by
      rw [Registry.get_insert hm, if_pos rfl]
    rw [hm, hk]
    refine ⟨rfl, ?_, ?_⟩
    · intro p hp key
      replace hp : partitions.get c.name = .ok p := hp
      have hnone : k.value? c.name key = none := ht.vacant hvacant key
      rw [hnew] at hp
      cases hp
      show Option.Rel _ _ (k.value? c.name key)
      rw [hnone]
      exact .none
    · intro hnone
      cases hnew.symm.trans hnone

-- Without a bound every write is heard.
theorem Twins.set (ht : Twins key.collection m k) (ha : Agree n m k) (now : Time) (value : Value)
    (hbound : ∀ p, m.partitions.get key.collection = .ok p → p.shelf.bound? = none) :
    AnswerAlike key.collection (m.set now key value) (k.set key value) := by
  unfold MemoryCache.set MockCache.set
  cases hp : m.partitions.get key.collection with
  | error e =>
      rw [(ha.get_error hp).2]
      exact ht.refuse e
  | ok p =>
      rw [(ha.get_ok hp).2]
      dsimp only
      cases hencode : p.collection.type.encode value with
      | error e => exact ht.refuse e
      | ok bytes =>
          have hfull : p.shelf.isFull = false := by
            rw [Shelf.isFull_eq_false_iff, hbound p hp]
            intro bound hnone
            cases hnone
          refine ⟨rfl, Twins.put hp ?_ ?_⟩
          · rfl
          · intro other
            dsimp only
            rw [Shelf.lookup_write (Or.inr hfull)]
            show Option.Rel _ _ (List.lookup _ (Entries.insert _ _ _ _))
            rw [MockCache.value?_insert]
            by_cases ho : other = key.key
            · rw [if_pos ho, if_pos (by rw [ho])]
              exact .some hencode
            · rw [if_neg ho, if_neg fun heq => ho (by rw [← heq])]
              exact ht.entries p hp other

-- An entry that is not expired is found, and stays.
theorem Twins.get (ht : Twins key.collection m k) (ha : Agree n m k) (hr : m.Reflects h)
    (hlive : ∀ p entry, m.partitions.get key.collection = .ok p →
      p.shelf.entries.lookup key.key = some entry → p.isExpired now entry = false) :
    AnswerAlike key.collection (m.get now key) (k.get key) := by
  unfold MockCache.get
  cases hp : m.partitions.get key.collection with
  | error e =>
      rw [(ha.get_error hp).2, MemoryCache.get, hp]
      exact ht.refuse e
  | ok p =>
      obtain ⟨found, hfound, hrel⟩ := hr.get_found hp now
      have hread := Partition.lookup_read_of_live fun entry => hlive p entry hp
      rw [← Partition.lookup_read_self, hread] at hrel
      rw [(ha.get_ok hp).2]
      refine ⟨?_, ?_⟩
      · have hsame := StoredEntry.encodes_unique hrel (ht.entries p hp key.key)
        rw [hfound, hsame]
        rfl
      · rw [MemoryCache.get_state hp]
        apply Twins.put hp Partition.read_collection
        intro other
        rw [hread]
        exact ht.entries p hp other

theorem Twins.del (ht : Twins key.collection m k) (ha : Agree n m k) :
    AnswerAlike key.collection (m.del key) (k.del key) := by
  unfold MemoryCache.del MockCache.del
  cases hp : m.partitions.get key.collection with
  | error e =>
      rw [(ha.get_error hp).2]
      exact ht.refuse e
  | ok p =>
      rw [(ha.get_ok hp).2]
      refine ⟨rfl, Twins.put hp ?_ ?_⟩
      · rfl
      · intro other
        dsimp only
        rw [Shelf.lookup_shelf_erase]
        show Option.Rel _ _ (List.lookup _ (Entries.erase _ _))
        rw [MockCache.value?_erase]
        by_cases ho : other = key.key
        · rw [if_pos ho, if_pos (by rw [ho])]
          exact .none
        · rw [if_neg ho, if_neg fun heq => ho (by rw [← heq])]
          exact ht.entries p hp other

-- No write is turned away from the collections of this name, and no read comes too late.
def History.Lasting (h : History) (name : String) : Prop :=
  ∀ c, c.name = name → (∃ x ∈ h, x.Registers c) → c.maxItems = 0 ∧ h.ReadInTime c

theorem History.Lasting.of_concat {x : Exchange} (hl : History.Lasting (h ++ [x]) name) :
    h.Lasting name := by
  intro c hname hreg
  obtain ⟨y, hy, hregisters⟩ := hreg
  obtain ⟨hmax, htime⟩ := hl c hname ⟨y, List.mem_append_left _ hy, hregisters⟩
  exact ⟨hmax, htime.of_concat⟩

theorem Twins.call (ht : Twins name m k) (ha : Agree n m k) (hr : m.Reflects h)
    (hreg : ∀ p, m.partitions.get name = .ok p → h.Registered p.collection)
    (hl : History.Lasting (h ++ [⟨now, request, (m.call now request).answer⟩]) name)
    (hc : request.concerns name = true) :
    AnswerAlike name (m.call now request) (k.call now request) := by
  have hlasting (p : Partition) (hp : m.partitions.get name = .ok p) :
      p.collection.maxItems = 0 ∧ History.ReadInTime
        (h ++ [⟨now, request, (m.call now request).answer⟩]) p.collection := by
    obtain ⟨⟨x, hx, hregisters⟩, -⟩ := hreg p hp
    exact hl p.collection (hr.partition _ p hp).1 ⟨x, List.mem_append_left _ hx, hregisters⟩
  rw [MockCache.call_eq_perform ha.unfailing]
  have hrecorded := ha.record request
  have hkept := ht.record request
  cases request with
  | register c =>
      obtain rfl := Request.eq_of_concerns hc rfl
      exact hkept.register hrecorded
  | set key value =>
      obtain rfl := Request.eq_of_concerns hc rfl
      refine hkept.set hrecorded now value ?_
      intro p hp
      rw [(hr.partition _ p hp).2.bound, Collection.bound?, if_pos (hlasting p hp).1]
  | get key =>
      obtain rfl := Request.eq_of_concerns hc rfl
      refine hkept.get hrecorded hr ?_
      intro p entry hp hentry
      obtain ⟨value, -, hwritten⟩ := (hr.partition _ p hp).2.kept _ entry hentry
      have hyoung := (hlasting p hp).2 h _ [] rfl (hreg p hp) key.key value entry.storedAt
        (by rw [hr.entry_eq hp]) hwritten
      rw [Partition.isExpired_eq_false_iff]
      exact Nat.not_le.mpr hyoung
  | del key =>
      obtain rfl := Request.eq_of_concerns hc rfl
      exact hkept.del hrecorded
  | close =>
      refine ⟨rfl, ⟨?_, ?_⟩⟩
      · intro p hp
        cases hp
      · intro hnone
        cases hnone

theorem Twins.other (ht : Twins name m k) (hk : k.failing = none)
    (hc : request.concerns name = false) (now : Time) :
    Twins name (m.call now request).state (k.call now request).state := by
  have hm := MemoryCache.get_call_other (s := m) hc now
  have hsame := MockCache.same_call hk hc now
  refine ⟨?_, ?_⟩
  · intro p hp key
    rw [hm] at hp
    rw [hsame.entries]
    exact ht.entries p hp key
  · intro hnone key
    rw [hm] at hnone
    rw [hsame.entries]
    exact ht.vacant hnone key

section Runs

variable (cacheName : Option String) (calls : List (Time × Request))

theorem agree_after :
    Agree (Backend.after NullCache.new calls) (Backend.after (MemoryCache.new cacheName) calls)
        (Backend.after MockCache.new calls) ∧
      (Backend.history NullCache.new calls).failures =
        (Backend.history (MemoryCache.new cacheName) calls).failures ∧
      (Backend.history MockCache.new calls).failures =
        (Backend.history (MemoryCache.new cacheName) calls).failures := by
  induction calls using List.reverseRecOn with
  | nil => exact ⟨agree_start cacheName, rfl, rfl⟩
  | append_singleton calls last ih =>
      obtain ⟨now, request⟩ := last
      obtain ⟨ha, hnull, hmock⟩ := ih
      have hr := MemoryCache.reflects_after cacheName calls
      obtain ⟨hn, hk, hafter⟩ := ha.call hr now request
      simp only [Backend.after_concat, Backend.history_concat, History.failures_concat]
      refine ⟨hafter, ?_, ?_⟩
      · rw [hnull]
        exact congrArg (_ ++ [·]) hn
      · rw [hmock]
        exact congrArg (_ ++ [·]) hk

theorem twins_after
    (hl : (Backend.history (MemoryCache.new cacheName) calls).Lasting name) :
    Twins name (Backend.after (MemoryCache.new cacheName) calls)
        (Backend.after MockCache.new calls) ∧
      (Backend.history (MemoryCache.new cacheName) calls).about name =
        (Backend.history MockCache.new calls).about name := by
  -- the last call is taken off, for what it needs is said of the history before it
  induction calls using List.reverseRecOn with
  | nil => exact ⟨twins_start cacheName, rfl⟩
  | append_singleton calls last ih =>
      obtain ⟨now, request⟩ := last
      rw [Backend.history_concat] at hl
      obtain ⟨ht, habout⟩ := ih hl.of_concat
      have ha := (agree_after cacheName calls).1
      have hr := MemoryCache.reflects_after cacheName calls
      simp only [Backend.after_concat, Backend.history_concat, History.about_concat, habout]
      cases hc : request.concerns name with
      | false =>
          refine ⟨ht.other ha.unfailing hc now, ?_⟩
          simp [History.about, hc]
      | true =>
          obtain ⟨hanswer, hafter⟩ := ht.call ha hr
            (fun _ => MemoryCache.registered_of_partition cacheName calls) hl hc
          refine ⟨hafter, ?_⟩
          simp only [Backend.call]
          rw [hanswer]

-- All three fail alike, whatever is asked of them and when. The null cache finds nothing; the other
-- two find the same in every collection without a bound whose entries are not read too late.
theorem stores_fail_alike :
    (Backend.history NullCache.new calls).failures =
        (Backend.history (MemoryCache.new cacheName) calls).failures ∧
      (Backend.history MockCache.new calls).failures =
        (Backend.history (MemoryCache.new cacheName) calls).failures ∧
      (∀ x ∈ Backend.history NullCache.new calls, ∀ found, x.answer = .ok found → found = none) ∧
      ∀ name, (Backend.history (MemoryCache.new cacheName) calls).Lasting name →
        (Backend.history (MemoryCache.new cacheName) calls).about name =
          (Backend.history MockCache.new calls).about name := by
  obtain ⟨-, hnull, hmock⟩ := agree_after cacheName calls
  refine ⟨hnull, hmock, ?_, ?_⟩
  · intro x hx found hanswer
    exact NullCache.history_answer hx hanswer
  · intro name hl
    exact (twins_after cacheName calls hl).2

end Runs

-- An entry that is read at the age of nine nanoseconds out of ten, next to a nameless collection
-- and a value of the wrong type. After the close it is not there to be too old.
theorem one_entry_in_all_stores :
    let c : Collection := ⟨"c", some ⟨10⟩, .int64, 0⟩
    let calls : List (Time × Request) :=
      [(0, .register c), (1, .register (.new "" .string)), (5, .set (c.entry "k") (.int64 7)),
        (6, .set (c.entry "k") (.string "seven")), (14, .get (c.entry "k")), (20, .close),
        (30, .get (c.entry "k"))]
    (Backend.history NullCache.new calls).failures =
        [none, some (.usage .emptyName), none, some (.usage (.notStorable .string .int64)), none,
          none, some (.usage .closed)] ∧
      (Backend.history MockCache.new calls).about "c" =
        [⟨0, .register c, .ok none⟩, ⟨5, .set (c.entry "k") (.int64 7), .ok none⟩,
          ⟨6, .set (c.entry "k") (.string "seven"), .error (.usage (.notStorable .string .int64))⟩,
          ⟨14, .get (c.entry "k"), .ok (some (.int64 7))⟩, ⟨20, .close, .ok none⟩,
          ⟨30, .get (c.entry "k"), .error (.usage .closed)⟩] := by
  intro c calls
  have hh : Backend.history (MemoryCache.new none) calls =
      [⟨0, .register c, .ok none⟩, ⟨1, .register (.new "" .string), .error (.usage .emptyName)⟩,
        ⟨5, .set (c.entry "k") (.int64 7), .ok none⟩,
        ⟨6, .set (c.entry "k") (.string "seven"), .error (.usage (.notStorable .string .int64))⟩,
        ⟨14, .get (c.entry "k"), .ok (some (.int64 7))⟩, ⟨20, .close, .ok none⟩,
        ⟨30, .get (c.entry "k"), .error (.usage .closed)⟩] := by
    unfold calls c
    rfl
  have honly : ∀ c', (∃ x ∈ Backend.history (MemoryCache.new none) calls, x.Registers c') →
      c' = c := by
    rw [hh]
    rintro c' ⟨x, hx, hreq, hans⟩
    simp only [List.mem_cons, List.not_mem_nil, or_false] at hx
    rcases hx with rfl | rfl | rfl | rfl | rfl | rfl | rfl <;> cases hreq
    · rfl
    · cases hans
  have hlasting : (Backend.history (MemoryCache.new none) calls).Lasting "c" := by
    intro c' hname hreg
    rw [honly c' hreg]
    refine ⟨rfl, ?_⟩
    intro before x after heq hopen key value writtenAt hreq hk
    have hclock : (before ++ x :: after).Pairwise fun a b => a.time < b.time := by
      rw [← heq, hh]
      simp
    have hmem : ∀ y ∈ before ++ x :: after, y ∈ Backend.history (MemoryCache.new none) calls := by
      rw [heq]
      exact fun _ hy => hy
    -- only one write is accepted, so it is what is read
    have hwritten : writtenAt = 5 := by
      obtain ⟨y, hy, hwrites, rfl⟩ := hk.written
      have hy := hmem y (List.mem_append_left _ hy)
      obtain ⟨hset, hans⟩ := hwrites
      rw [hh] at hy
      simp only [List.mem_cons, List.not_mem_nil, or_false] at hy
      rcases hy with rfl | rfl | rfl | rfl | rfl | rfl | rfl <;> cases hset
      · rfl
      · cases hans
    -- and the second read comes after the close
    have hearly : x.time ≤ 20 := by
      have hclose : (⟨20, .close, .ok none⟩ : Exchange) ∈ before ++ x :: after := by
        rw [← heq, hh]
        simp
      rcases List.mem_append.mp hclose with hbefore | hafter
      · exact absurd rfl (hopen.2 _ hbefore)
      · have hfirst := (List.pairwise_append.mp hclock).2.1
        rcases List.mem_cons.mp hafter with rfl | hafter
        · exact Nat.le_refl 20
        · exact Nat.le_of_lt ((List.pairwise_cons.mp hfirst).1 _ hafter)
    have hx := hmem x (by simp)
    rw [hh] at hx
    simp only [List.mem_cons, List.not_mem_nil, or_false] at hx
    rw [hwritten]
    rcases hx with rfl | rfl | rfl | rfl | rfl | rfl | rfl <;> cases hreq
    · decide
    · exact absurd hearly (by decide)
  obtain ⟨hnull, -, -, habout⟩ := stores_fail_alike none calls
  rw [hnull, ← habout "c" hlasting, hh]
  exact ⟨rfl, rfl⟩

end PolyCache
