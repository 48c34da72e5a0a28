import PolyCache.Backend.Null
import PolyCache.Proofs.Backend.Memory
import PolyCache.Proofs.Backend.Mock
import PolyCache.Proofs.ReadThrough
import PolyCache.Proofs.Relational.Failures

-- Reads through a cache by a caller who takes the values of a collection for values of another
-- type. The caller is told if a value is found. If none is, the value that is loaded is the
-- answer, and only the write in the background is refused, so the mistake stays hidden until
-- another caller has filled the key.
namespace PolyCache

-- The values of a type are stored as values of this one, and no others are read back.
structure Storable.Stores (α : Type) [Storable α] (type : ValueType) : Prop where
  written : ∀ (a : α) value, Storable.toValue a = .ok value → value.type = type
  refused : ∀ value, value.type ≠ type →
    (Storable.ofValue value : Except Error α) = .error (unexpected type value)

theorem Storable.stores_int64 : Stores Int64 .int64 where
  written _ _ h := by rw [← Except.ok.inj h]; rfl
  refused value h := by
    cases value with
    | int64 n => exact absurd rfl h
    | _ => rfl

theorem Storable.stores_real : Stores Binary64 .real where
  written _ _ h := by rw [← Except.ok.inj h]; rfl
  refused value h := by
    cases value with
    | real x => exact absurd rfl h
    | _ => rfl

theorem Storable.stores_string : Stores String .string where
  written _ _ h := by rw [← Except.ok.inj h]; rfl
  refused value h := by
    cases value with
    | string s => exact absurd rfl h
    | _ => rfl

theorem Storable.stores_json {α : Type} [Json.JsonForm α] : Stores (AsJson α) .object where
  written a value h := by
    simp only [toValue] at h
    split at h
    · rw [← Except.ok.inj h]
      rfl
    · cases h
  refused value h := by
    cases value with
    | object json => exact absurd rfl h
    | _ => rfl

namespace ReadThrough

-- A read of a collection by a caller who expects values of another type, told by what the backend
-- finds for it and by what loading the value comes to.
structure Mistaken {σ α ω : Type} [Backend σ] [Storable α] (later : Time) (key : EntryKey)
    (expected stored : ValueType) (o : Outcome σ) (world : ω) (loaded : Except Cause α × ω)
    (run : Reading σ α × ω) : Prop where
  -- what is found is refused
  found : ∀ value, o.answer = .ok (some value) →
    Rests o world (.error (unexpected expected value)) run
  -- a rule that the read itself breaks is answered as ever
  broken : ∀ e, o.answer = .error e → e.kind = .usage → Rests o world (.error e) run
  -- what is not found is loaded, and refused by the write
  missed : (o.answer = .ok none ∨ ∃ e, o.answer = .error e ∧ e.kind ≠ .usage) →
    Loads later o key loaded run ∧
      ∀ a value, loaded.1 = .ok a → Storable.toValue a = .ok value →
        (Backend.call later o.state (.set key value)).answer =
          .error (.usage (.notStorable expected stored))
  told : (∃ e, run.1.answer = .error e ∧ e.kind = .usage) ↔ run.1.fetched = false

def TellsOfHits {σ : Type} [Backend σ] (α : Type) [Storable α] (expected : ValueType) (s : σ)
    (c : Collection) : Prop :=
  ∀ (ω : Type) (now later : Time) (key : String)
    (fetch : EntryKey → StateM ω (Except Cause α)) (world : ω),
    Mistaken later (c.entry key) expected c.type (Backend.call now s (.get (c.entry key))) world
      ((fetch (c.entry key)).run world) ((getOrSetIn now later s (c.entry key) fetch).run world)

section Guards

variable {σ : Type} [Backend σ] {α : Type} [Storable α] {s : σ} {c : Collection}
  {expected : ValueType}

-- Only values of a collection's type are found in it, and after a read no others are taken.
structure Guards (s : σ) (c : Collection) : Prop where
  found : ∀ now key value, (Backend.call now s (.get (c.entry key))).answer = .ok (some value) →
    value.type = c.type
  refused : ∀ now later key value, value.type ≠ c.type →
    (Backend.call later (Backend.call now s (.get (c.entry key))).state
        (.set (c.entry key) value)).answer =
      .error (.usage (.notStorable value.type c.type))

-- A load fails for a reason of its own, if at all.
theorem Loads.not_usage {ω : Type} {later : Time} {key : EntryKey} {o : Outcome σ}
    {loaded : Except Cause α × ω} {run : Reading σ α × ω} {e : Error}
    (hl : Loads later o key loaded run) (he : run.1.answer = .error e) : e.kind ≠ .usage := by
  cases hresult : loaded.1 with
  | error cause =>
      rw [(hl.failed cause hresult).1] at he
      cases he
      nofun
  | ok a =>
      rw [hl.answered a hresult] at he
      cases he

theorem Guards.tells (hg : Guards s c) (hα : Storable.Stores α expected)
    (hother : expected ≠ c.type) : TellsOfHits α expected s c := by
  intro ω now later key fetch world
  generalize hrun : (getOrSetIn now later s (c.entry key) fetch).run world = run
  have hfound (value : Value)
      (ho : (Backend.call now s (.get (c.entry key))).answer = .ok (some value)) :
      Rests (Backend.call now s (.get (c.entry key))) world (.error (unexpected expected value))
        run := by
    have hne : value.type ≠ expected := by
      rw [hg.found now key value ho]
      exact hother.symm
    rw [← hα.refused value hne, ← hrun]
    exact rests_of_found now later s (c.entry key) fetch world ho
  have hbroken (e : Error) (ho : (Backend.call now s (.get (c.entry key))).answer = .error e)
      (he : e.kind = .usage) :
      Rests (Backend.call now s (.get (c.entry key))) world (.error e) run := by
    rw [← hrun]
    exact rests_of_usage now later s (c.entry key) fetch world ho he
  have hloads (ho : (Backend.call now s (.get (c.entry key))).answer = .ok none ∨
      ∃ e, (Backend.call now s (.get (c.entry key))).answer = .error e ∧ e.kind ≠ .usage) :
      Loads later (Backend.call now s (.get (c.entry key))) (c.entry key)
        ((fetch (c.entry key)).run world) run := by
    rw [← hrun]
    exact loads_of_missed now later s (c.entry key) fetch world ho
  have htold {e : Error} (hr : Rests (Backend.call now s (.get (c.entry key))) world (.error e) run)
      (he : e.kind = .usage) :
      (∃ e, run.1.answer = .error e ∧ e.kind = .usage) ↔ run.1.fetched = false :=
    iff_of_true ⟨e, hr.answer, he⟩ hr.fetched
  have huntold (hl : Loads later (Backend.call now s (.get (c.entry key))) (c.entry key)
        ((fetch (c.entry key)).run world) run) :
      (∃ e, run.1.answer = .error e ∧ e.kind = .usage) ↔ run.1.fetched = false := by
    refine iff_of_false ?_ (by rw [hl.fetched]; nofun)
    rintro ⟨e, he, hkind⟩
    exact hl.not_usage he hkind
  refine ⟨hfound, hbroken, fun ho => ⟨hloads ho, ?_⟩, ?_⟩
  · intro a value _ hvalue
    have htype := hα.written a value hvalue
    rw [hg.refused now later key value (by rw [htype]; exact hother), htype]
  · cases ho : (Backend.call now s (.get (c.entry key))).answer with
    | ok found =>
        cases found with
        | some value => exact htold (hfound value ho) rfl
        | none => exact huntold (hloads (.inl ho))
    | error e =>
        by_cases he : e.kind = .usage
        · exact htold (hbroken e ho he) he
        · exact huntold (hloads (.inr ⟨e, ho, he⟩))

end Guards

section Backends

variable {c : Collection} {value : Value}

theorem guards_null {s : NullCache} (hc : s.collections.get c.name = .ok c) : Guards s c := by
  have hget (now : Time) (key : String) :
      Backend.call now s (.get (c.entry key)) = .done s := by
    show s.lookup (c.entry key) = _
    rw [NullCache.lookup, Collection.entry, hc]
  refine ⟨?_, ?_⟩
  · intro now key value ho
    rw [hget] at ho
    cases ho
  · intro now later key value hother
    rw [hget]
    show (s.set (c.entry key) value).answer = _
    rw [NullCache.set, Collection.entry, hc]
    dsimp only
    rw [ValueType.encode_of_mistyped hother]
    rfl

theorem guards_memory {s : MemoryCache} {p : Partition} (hp : s.partitions.get c.name = .ok p)
    (hc : p.collection = c) : Guards s c := by
  subst hc
  refine ⟨?_, ?_⟩
  · intro now key value ho
    replace ho : (s.get now (p.collection.entry key)).answer = .ok (some value) := ho
    rw [MemoryCache.get_answer hp] at ho
    split at ho
    · cases ho
    · rename_i entry _
      cases hdecode : p.collection.type.decode entry.bytes with
      | error e =>
          rw [hdecode] at ho
          cases ho
      | ok found =>
          rw [hdecode] at ho
          obtain rfl := Option.some.inj (Except.ok.inj ho)
          exact ValueType.type_of_encode (ValueType.encode_of_decode hdecode)
  · intro now later key value hother
    show (MemoryCache.set later (s.get now (p.collection.entry key)).state
      (p.collection.entry key) value).answer = _
    have hget : (s.put p.collection.name (p.read now key).2).partitions.get p.collection.name =
        .ok (p.read now key).2 := by
      rw [MemoryCache.get_put, if_pos rfl, hp]
      rfl
    rw [MemoryCache.get_state hp, MemoryCache.set, Collection.entry, hget]
    dsimp only
    rw [Partition.read_collection, ValueType.encode_of_mistyped hother]
    rfl

theorem guards_relational {s : RelationalCache} (hc : s.collections.get c.name = .ok c) :
    Guards s c := by
  refine ⟨?_, ?_⟩
  · intro now key value ho
    replace ho : (s.get now (c.entry key)).answer = .ok (some value) := ho
    simp only [RelationalCache.get, Collection.entry, hc] at ho
    split at ho
    · cases ho
    · rename_i row _ _
      unfold RelationalCache.rowValue at ho
      split at ho
      · cases ho
      · rename_i bytes _
        cases hdecode : c.type.decode bytes with
        | error e =>
            rw [hdecode] at ho
            cases ho
        | ok found =>
            rw [hdecode] at ho
            obtain rfl := Option.some.inj (Except.ok.inj ho)
            exact ValueType.type_of_encode (ValueType.encode_of_decode hdecode)
    · cases ho
  · intro now later key value hother
    have hkept : (s.get now (c.entry key)).state.collections.get c.name = .ok c := by
      rw [(RelationalCache.get_aside s now (c.entry key)).collections, hc]
    show (RelationalCache.set later (s.get now (c.entry key)).state (c.entry key) value).answer = _
    rw [RelationalCache.set_of_unencoded hkept (ValueType.encode_of_mistyped hother)]
    rfl

theorem guards_mock {s : MockCache} (hs : s.Reached) (hfailing : s.failing = none)
    (hc : s.collections.get c.name = .ok c) : Guards s c := by
  have hget (now : Time) (key : String) :
      s.call now (.get (c.entry key)) =
        ⟨s.record (.get (c.entry key)), .ok (s.data.lookup (c.entry key)), []⟩ := by
    rw [MockCache.call_eq_perform hfailing, MockCache.perform, MockCache.get,
      MockCache.record_collections, Collection.entry, hc]
    rfl
  refine ⟨?_, ?_⟩
  · intro now key value ho
    replace ho : (s.call now (.get (c.entry key))).answer = .ok (some value) := ho
    rw [hget] at ho
    obtain ⟨d, bytes, hd, hbytes⟩ := hs.isTyped (c.entry key) value (Except.ok.inj ho)
    obtain rfl := Except.ok.inj (hc.symm.trans hd)
    exact ValueType.type_of_encode hbytes
  · intro now later key value hother
    show (MockCache.call later (s.call now (.get (c.entry key))).state
      (.set (c.entry key) value)).answer = _
    rw [hget]
    dsimp only
    rw [MockCache.call_eq_perform (s := s.record _) hfailing, MockCache.perform, MockCache.set,
      MockCache.record_collections, MockCache.record_collections, Collection.entry, hc]
    dsimp only
    rw [ValueType.encode_of_mistyped hother]
    rfl

end Backends

-- In every backend a caller who takes values for those of another type is told exactly if nothing
-- is loaded, and nothing of what is loaded is written.
theorem mistaken_callers_are_told_of_hits {α : Type} [Storable α] {expected : ValueType}
    (hα : Storable.Stores α expected) (c : Collection) (hother : expected ≠ c.type) :
    (∀ s : NullCache, s.collections.get c.name = .ok c → TellsOfHits α expected s c) ∧
      (∀ s : MemoryCache, ∀ p, s.partitions.get c.name = .ok p → p.collection = c →
        TellsOfHits α expected s c) ∧
      (∀ s : RelationalCache, s.collections.get c.name = .ok c → TellsOfHits α expected s c) ∧
      (∀ s : MockCache, s.Reached → s.failing = none → s.collections.get c.name = .ok c →
        TellsOfHits α expected s c) := by
  refine ⟨?_, ?_, ?_, ?_⟩
  · intro s hc
    exact (guards_null hc).tells hα hother
  · intro s p hp hc
    exact (guards_memory hp hc).tells hα hother
  · intro s hc
    exact (guards_relational hc).tells hα hother
  · intro s hs hfailing hc
    exact (guards_mock hs hfailing hc).tells hα hother

-- Strings read from a collection of integers: the caller is told of the integer that is there, and
-- keeps the string that was loaded though it is not written.
theorem strings_read_from_integers :
    let c : Collection := ⟨"c", none, .int64, 0⟩
    let s := Backend.after (MemoryCache.new none)
      [(0, .register c), (0, .set (c.entry "full") (.int64 7))]
    let fetch (key : EntryKey) : StateM (List EntryKey) (Except Cause String) := do
      modify (key :: ·)
      return .ok "x"
    let hit := (getOrSetIn 1 2 s (c.entry "full") fetch).run []
    let miss := (getOrSetIn 1 2 s (c.entry "empty") fetch).run []
    hit.1.answer = .error (unexpected .string (.int64 7)) ∧ hit.2 = [] ∧
      miss.1.answer = .ok "x" ∧ miss.2 = [c.entry "empty"] ∧
      (Backend.call 2 (Backend.call 1 s (.get (c.entry "empty"))).state
        (.set (c.entry "empty") (.string "x"))).answer =
          .error (.usage (.notStorable .string .int64)) := by
  intro c s fetch hit miss
  obtain ⟨p, hp, hc⟩ : ∃ p, s.partitions.get c.name = .ok p ∧ p.collection = c := ⟨_, rfl, rfl⟩
  have htells : TellsOfHits String .string s c :=
    (mistaken_callers_are_told_of_hits Storable.stores_string c (by decide)).2.1 s p hp hc
  have hfound := (htells _ 1 2 "full" fetch []).found (.int64 7) rfl
  obtain ⟨hloads, hrefused⟩ := (htells _ 1 2 "empty" fetch []).missed (.inl rfl)
  exact ⟨hfound.answer, hfound.world, hloads.answered "x" rfl, hloads.world,
    hrefused "x" (.string "x") rfl rfl⟩

-- A key that nobody has filled: the mistake is not answered.
theorem not_every_mistaken_caller_is_told :
    ¬∀ (c : Collection) (s : MemoryCache) (p : Partition), s.partitions.get c.name = .ok p →
      p.collection = c → c.type ≠ .string →
        ∀ now key (fetch : EntryKey → Except Cause String),
          ∃ e, (getOrSet now s (c.entry key) fetch).answer = .error e ∧ e.kind = .usage := by
  intro h
  let c : Collection := ⟨"c", none, .int64, 0⟩
  obtain ⟨e, he, -⟩ := h c ((MemoryCache.new none).register c).state (.new c) rfl rfl nofun 0 "k"
    fun _ => .ok "x"
  have hanswered : (getOrSet 0 ((MemoryCache.new none).register c).state (c.entry "k")
      fun _ => .ok "x").answer = .ok "x" := rfl
  rw [hanswered] at he
  cases he

end ReadThrough

end PolyCache
