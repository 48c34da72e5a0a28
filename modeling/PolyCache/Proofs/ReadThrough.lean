import PolyCache.Backend.Mock
import PolyCache.Proofs.History
import PolyCache.ReadThrough

-- What a read through a cache answers and leaves, for any backend, any type of values and any way
-- of loading them. A load changes a world that the cache knows nothing of, so a load that is left
-- out or made twice would show there.
namespace PolyCache

-- A value that does not fit the type is the caller's fault.
def Storable.IsLawful (α : Type) [Storable α] : Prop :=
  ∀ value e, (Storable.ofValue value : Except Error α) = .error e → e.kind = .usage

theorem Storable.isLawful_int64 : IsLawful Int64 := by
  intro value e he
  cases value <;> cases he <;> rfl

theorem Storable.isLawful_real : IsLawful Binary64 := by
  intro value e he
  cases value <;> cases he <;> rfl

theorem Storable.isLawful_string : IsLawful String := by
  intro value e he
  cases value <;> cases he <;> rfl

theorem Storable.isLawful_json {α : Type} [Json.JsonForm α] : IsLawful (AsJson α) := by
  intro value e he
  cases value with
  | object json =>
      simp only [ofValue] at he
      split at he <;> cases he
      rfl
  | _ =>
      cases he
      rfl

namespace ReadThrough

variable {σ : Type} [Backend σ] {α : Type} [Storable α] {ω : Type} {now later : Time} {s : σ}
  {key : EntryKey} {fetch : EntryKey → StateM ω (Except Cause α)} {world : ω}
  {log : List LogEvent} {o : Outcome σ} {e : Error} {value : Value} {a : α} {cause : Cause}

omit [Backend σ] in
theorem warned_state (event : Error → LogEvent) (o : Outcome σ) :
    (warned event o).state = o.state := by
  unfold warned
  split <;> rfl

-- A write does what the `set` of the stored form does, if there is one.
theorem write_of_ok (h : Storable.toValue a = .ok value) :
    (write later s key a).state = (Backend.call later s (.set key value)).state := by
  rw [write, h, warned_state]

theorem write_of_error (h : Storable.toValue a = .error e) : (write later s key a).state = s := by
  rw [write, h, warned_state]
  rfl

-- The backend is as the read has left it, and nothing has been loaded.
structure Rests (o : Outcome σ) (world : ω) (answer : Except Error α) (run : Reading σ α × ω) :
    Prop where
  answer : run.1.answer = answer
  state : run.1.state = o.state
  fetched : run.1.fetched = false
  world : run.2 = world

-- A value has been loaded once. It is the answer, and it is written if it has a stored form; if the
-- load failed, that is the answer, and nothing is written.
structure Loads (later : Time) (o : Outcome σ) (key : EntryKey) (loaded : Except Cause α × ω)
    (run : Reading σ α × ω) : Prop where
  world : run.2 = loaded.2
  fetched : run.1.fetched = true
  failed : ∀ cause, loaded.1 = .error cause →
    run.1.answer = .error (.fetch cause) ∧ run.1.state = o.state
  answered : ∀ a, loaded.1 = .ok a → run.1.answer = .ok a
  written : ∀ a value, loaded.1 = .ok a → Storable.toValue a = .ok value →
    run.1.state = (Backend.call later o.state (.set key value)).state
  unwritten : ∀ a e, loaded.1 = .ok a → Storable.toValue a = .error e → run.1.state = o.state

theorem run_loadIn (later : Time) (s : σ) (key : EntryKey) (log : List LogEvent)
    (fetch : EntryKey → StateM ω (Except Cause α)) (world : ω) :
    (loadIn later s key log fetch).run world =
      (match ((fetch key).run world).1 with
        | .error cause => ⟨s, .error (.fetch cause), true, log⟩
        | .ok a => ⟨(write later s key a).state, .ok a, true, log ++ (write later s key a).log⟩,
        ((fetch key).run world).2) := by
  rw [loadIn, StateT.run_bind]
  generalize (fetch key).run world = loaded
  obtain ⟨result, world⟩ := loaded
  cases result <;> rfl

theorem loads (later : Time) (o : Outcome σ) (key : EntryKey) (log : List LogEvent)
    (fetch : EntryKey → StateM ω (Except Cause α)) (world : ω) :
    Loads later o key ((fetch key).run world)
      ((loadIn later o.state key log fetch).run world) := by
  rw [run_loadIn]
  generalize (fetch key).run world = loaded
  obtain ⟨result, world⟩ := loaded
  cases result with
  | error cause =>
      refine ⟨rfl, rfl, ?_, nofun, nofun, nofun⟩
      rintro cause' ⟨⟩
      exact ⟨rfl, rfl⟩
  | ok a =>
      refine ⟨rfl, rfl, nofun, ?_, ?_, ?_⟩
      · rintro a' ⟨⟩
        rfl
      · rintro a' value ⟨⟩ hvalue
        exact write_of_ok hvalue
      · rintro a' e ⟨⟩ he
        exact write_of_error he

-- A load answers with its own failures, never with those of the backend.
theorem Loads.not_backend {loaded : Except Cause α × ω} {run : Reading σ α × ω}
    (hl : Loads later o key loaded run) (he : run.1.answer = .error e) : e.kind ≠ .backend := by
  cases hresult : loaded.1 with
  | error cause =>
      rw [(hl.failed cause hresult).1] at he
      cases he
      nofun
  | ok a =>
      rw [hl.answered a hresult] at he
      cases he

section Readings

variable (now later : Time) (s : σ) (key : EntryKey) (fetch : EntryKey → StateM ω (Except Cause α))
  (world : ω)

theorem rests_of_found (h : (Backend.call now s (.get key)).answer = .ok (some value)) :
    Rests (Backend.call now s (.get key)) world (Storable.ofValue value)
      ((getOrSetIn now later s key fetch).run world) := by
  simp only [getOrSetIn, h]
  exact ⟨rfl, rfl, rfl, rfl⟩

theorem rests_of_usage (h : (Backend.call now s (.get key)).answer = .error e)
    (he : e.kind = .usage) :
    Rests (Backend.call now s (.get key)) world (.error e)
      ((getOrSetIn now later s key fetch).run world) := by
  simp only [getOrSetIn, h, he, if_true]
  exact ⟨rfl, rfl, rfl, rfl⟩

theorem loads_of_missed
    (h : (Backend.call now s (.get key)).answer = .ok none ∨
      ∃ e, (Backend.call now s (.get key)).answer = .error e ∧ e.kind ≠ .usage) :
    Loads later (Backend.call now s (.get key)) key ((fetch key).run world)
      ((getOrSetIn now later s key fetch).run world) := by
  rcases h with h | ⟨e, h, he⟩
  · simp only [getOrSetIn, h]
    exact loads _ _ _ _ _ _
  · simp only [getOrSetIn, h, he, if_false]
    exact loads _ _ _ _ _ _

end Readings

-- What a read of the backend finds is converted. What it fails with is the answer if the caller is
-- to blame. In all other cases the value is loaded, once and for this key, so an outage of the
-- backend never shows, neither in the read nor in the write.
theorem reads_through (now later : Time) (s : σ) (key : EntryKey)
    (fetch : EntryKey → StateM ω (Except Cause α)) (world : ω) :
    let o := Backend.call now s (.get key)
    let run := (getOrSetIn now later s key fetch).run world
    (∀ value, o.answer = .ok (some value) → Rests o world (Storable.ofValue value) run) ∧
      (∀ e, o.answer = .error e → e.kind = .usage → Rests o world (.error e) run) ∧
      (o.answer = .ok none ∨ (∃ e, o.answer = .error e ∧ e.kind ≠ .usage) →
        Loads later o key ((fetch key).run world) run) ∧
      (Storable.IsLawful α → ∀ e, run.1.answer = .error e → e.kind ≠ .backend) := by
  intro o run
  have hfound (value : Value) (ho : o.answer = .ok (some value)) :=
    rests_of_found now later s key fetch world ho
  have husage (e : Error) (ho : o.answer = .error e) (he : e.kind = .usage) :=
    rests_of_usage now later s key fetch world ho he
  have hmissed := loads_of_missed now later s key fetch world
  refine ⟨hfound, husage, hmissed, ?_⟩
  intro hlawful e he
  cases ho : o.answer with
  | ok found =>
      cases found with
      | some value =>
          have hconverted := (hfound value ho).answer.symm.trans he
          rw [hlawful value e hconverted]
          nofun
      | none => exact (hmissed (.inl ho)).not_backend he
  | error e' =>
      by_cases hkind : e'.kind = .usage
      · have hsame := (husage e' ho hkind).answer.symm.trans he
        rw [← Except.error.inj hsame, hkind]
        nofun
      · exact (hmissed (.inr ⟨e', ho, hkind⟩)).not_backend he

-- A mock whose reads all fail: the value is loaded once, for the key, and it is written all the
-- same. A string that is found where an integer is asked for is an error, and nothing is loaded.
theorem outage_loads_once :
    let fetch (key : EntryKey) : StateM (List EntryKey) (Except Cause Int64) := do
      modify (key :: ·)
      return .ok 7
    let c : Collection := ⟨"c", none, .int64, 0⟩
    let failing := (MockCache.new.register c).state.failWhen fun request => request.name == "get"
    let loaded := (getOrSetIn 1 2 failing (c.entry "k") fetch).run []
    let d : Collection := ⟨"d", none, .string, 0⟩
    let full := Backend.after MockCache.new
      [(0, .register d), (0, .set (d.entry "k") (.string "seven"))]
    let found := (getOrSetIn 1 2 full (d.entry "k") fetch).run []
    (loaded.1.answer = .ok 7 ∧ loaded.2 = [c.entry "k"] ∧
        loaded.1.state.data = [(c.entry "k", .int64 7)]) ∧
      found.1.answer = .error (unexpected .int64 (.string "seven")) ∧ found.2 = [] ∧
      (unexpected .int64 (.string "seven")).kind ≠ .backend := by
  intro fetch c failing loaded d full found
  constructor
  · have ho : (Backend.call 1 failing (.get (c.entry "k"))).answer =
        .error (.backend (.injected "get")) := rfl
    have hloads := (reads_through 1 2 failing (c.entry "k") fetch []).2.2.1 (.inr ⟨_, ho, nofun⟩)
    refine ⟨hloads.answered 7 rfl, hloads.world, ?_⟩
    rw [hloads.written 7 (.int64 7) rfl rfl]
    rfl
  · have ho : (Backend.call 1 full (.get (d.entry "k"))).answer = .ok (some (.string "seven")) :=
      rfl
    obtain ⟨hfound, -, -, hkind⟩ := reads_through 1 2 full (d.entry "k") fetch []
    have hrests := hfound (.string "seven") ho
    exact ⟨hrests.answer, hrests.world, hkind Storable.isLawful_int64 _ hrests.answer⟩

end ReadThrough

end PolyCache
