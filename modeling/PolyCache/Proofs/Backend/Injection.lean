import Mathlib.Data.List.DropRight
import PolyCache.Proofs.Backend.Mock
import PolyCache.Proofs.Registry.Runs

-- A test can tell a mock which calls to fail. Such a call is recorded and fails, and that is all: a
-- run without it goes on as before.
namespace PolyCache.MockCache

abbrev Predicate := Request → Bool

-- What is done to a mock: the calls of a cache, and what a test sets up in between.
inductive Act where
  | call (now : Time) (request : Request)
  | failWhen (predicate : Predicate)
  | clearFailures
  | clearOperations

namespace Act

def request? : Act → Option Request
  | .call _ request => some request
  | _ => none

def clears : Act → Bool
  | .clearOperations => true
  | _ => false

-- The predicate in force after an act. A new one replaces the one before.
def force (old : Option Predicate) : Act → Option Predicate
  | .failWhen predicate => some predicate
  | .clearFailures => none
  | .call _ _ | .clearOperations => old

end Act

def picks (force : Option Predicate) (request : Request) : Bool := force.any fun p => p request

-- A call for which the predicate in force holds.
def Act.isPicked (force : Option Predicate) (a : Act) : Bool := a.request?.any (picks force)

def act (s : MockCache) : Act → MockCache
  | .call now request => (s.call now request).state
  | .failWhen predicate => s.failWhen predicate
  | .clearFailures => s.clearFailures
  | .clearOperations => s.clearOperations

def after (s : MockCache) (acts : List Act) : MockCache := acts.foldl act s

-- A call with its answer, and whether the predicate in force held for it.
structure Reply extends Exchange where
  picked : Bool

def reply? (s : MockCache) (force : Option Predicate) : Act → Option Reply
  | .call now request => some ⟨⟨now, request, (s.call now request).answer⟩, picks force request⟩
  | _ => none

-- The calls of a run, the oldest first. What is in force is told by the run, not by the mock.
def replies (s : MockCache) (force : Option Predicate) : List Act → List Reply
  | [] => []
  | a :: acts => (s.reply? force a).toList ++ replies (s.act a) (a.force force) acts

-- The run without the calls for which the predicate in force holds.
def spared (force : Option Predicate) : List Act → List Act
  | [] => []
  | a :: acts => (if a.isPicked force then [] else [a]) ++ spared (a.force force) acts

-- The requests of all calls since the operations were last cleared.
def requested (acts : List Act) : List Request :=
  (acts.rtakeWhile fun a => !a.clears).filterMap Act.request?

section Steps

variable {s : MockCache} {now : Time} {request : Request} {e : Error}

theorem fails_eq_picks (s : MockCache) (request : Request) :
    s.fails request = picks s.failing request := by
  unfold fails picks
  cases s.failing <;> rfl

theorem call_of_fails (h : s.fails request = true) (now : Time) :
    s.call now request = .refuse (s.record request) (.backend (.injected request.name)) :=
  if_pos h

theorem call_of_not_fails (h : s.fails request = false) (now : Time) :
    s.call now request = (s.record request).perform request :=
  if_neg (by simp [h])

theorem perform_usage (h : (s.perform request).answer = .error e) : e.kind = .usage := by
  cases request with
  | register c =>
      simp only [perform, register] at h
      split at h
      · cases h
        exact Registry.insert_usage ‹_›
      · cases h
  | set key value =>
      simp only [perform, set] at h
      split at h
      · cases h
        exact Registry.get_usage ‹_›
      · split at h <;> cases h
        exact ValueType.encode_usage ‹_›
  | get key =>
      simp only [perform, get] at h
      split at h <;> cases h
      exact Registry.get_usage ‹_›
  | del key =>
      simp only [perform, del] at h
      split at h <;> cases h
      exact Registry.get_usage ‹_›
  | close => cases h

theorem failing_act (s : MockCache) (a : Act) : (s.act a).failing = a.force s.failing := by
  cases a with
  | call now request =>
      obtain ⟨collections, data, heq⟩ := (s.record request).perform_frame request
      show (s.call now request).state.failing = s.failing
      cases h : s.fails request with
      | true => rw [call_of_fails h]; rfl
      | false => rw [call_of_not_fails h, heq]; rfl
  | failWhen | clearFailures | clearOperations => rfl

theorem operations_call (s : MockCache) (now : Time) (request : Request) :
    (s.call now request).state.operations = s.operations ++ [request] := by
  obtain ⟨collections, data, heq⟩ := (s.record request).perform_frame request
  cases h : s.fails request with
  | true => rw [call_of_fails h]; rfl
  | false => rw [call_of_not_fails h, heq]; rfl

end Steps

section Records

variable {s : MockCache} {force : Option Predicate}

-- The same mock with another record of operations.
def recording (s : MockCache) (operations : List Request) : MockCache := { s with operations }

-- Nothing that is carried out looks at the record.
theorem perform_recording (s : MockCache) (operations : List Request) (request : Request) :
    ((s.recording operations).perform request).answer = (s.perform request).answer ∧
      ((s.recording operations).perform request).state =
        (s.perform request).state.recording operations := by
  cases request with
  | register c =>
      simp only [perform, register, recording]
      split <;> exact ⟨rfl, rfl⟩
  | set key value =>
      simp only [perform, set, recording]
      split
      · exact ⟨rfl, rfl⟩
      · split <;> exact ⟨rfl, rfl⟩
  | get key =>
      simp only [perform, get, recording]
      split <;> exact ⟨rfl, rfl⟩
  | del key =>
      simp only [perform, del, recording]
      split <;> exact ⟨rfl, rfl⟩
  | close => exact ⟨rfl, rfl⟩

theorem call_recording (s : MockCache) (operations : List Request) (now : Time)
    (request : Request) :
    ((s.recording operations).call now request).answer = (s.call now request).answer ∧
      ((s.recording operations).call now request).state =
        (s.call now request).state.recording (operations ++ [request]) := by
  have hfails : (s.recording operations).fails request = s.fails request := rfl
  cases h : s.fails request with
  | true =>
      rw [call_of_fails h, call_of_fails (hfails.trans h)]
      exact ⟨rfl, rfl⟩
  | false =>
      rw [call_of_not_fails h, call_of_not_fails (hfails.trans h)]
      exact perform_recording (s.record request) (operations ++ [request]) request

theorem act_recording (s : MockCache) (operations : List Request) (a : Act) :
    ∃ operations', (s.recording operations).act a = (s.act a).recording operations' := by
  cases a with
  | call now request => exact ⟨_, (call_recording s operations now request).2⟩
  | failWhen | clearFailures | clearOperations => exact ⟨_, rfl⟩

theorem reply?_recording (s : MockCache) (operations : List Request) (a : Act) :
    (s.recording operations).reply? force a = s.reply? force a := by
  cases a with
  | call now request => simp only [reply?, (call_recording s operations now request).1]
  | failWhen | clearFailures | clearOperations => rfl

theorem picked_of_reply? {a : Act} {r : Reply} (h : s.reply? force a = some r) :
    r.picked = a.isPicked force := by
  cases a with
  | call now request =>
      cases h
      rfl
  | failWhen | clearFailures | clearOperations => cases h

-- All that a picked call leaves behind stands in the record.
theorem act_of_picked (hs : s.failing = force) {a : Act} (ha : a.isPicked force = true) :
    (∃ operations, s.act a = s.recording operations) ∧ a.force force = force := by
  cases a with
  | call now request =>
      have hfails : s.fails request = true := (fails_eq_picks s request).trans (hs ▸ ha)
      refine ⟨⟨s.operations ++ [request], ?_⟩, rfl⟩
      rw [act, call_of_fails hfails]
      rfl
  | failWhen | clearFailures | clearOperations => cases ha

-- The induction is on the run; the shorter one is always at the same state but for the record.
theorem after_spared (hs : s.failing = force) (acts : List Act) (operations : List Request) :
    (s.recording operations).replies force (spared force acts) =
        (s.replies force acts).filter (fun r => !r.picked) ∧
      ∃ operations', (s.recording operations).after (spared force acts) =
        (s.after acts).recording operations' := by
  induction acts generalizing s force operations with
  | nil => exact ⟨rfl, operations, rfl⟩
  | cons a acts ih =>
      have hnext : (s.act a).failing = a.force force := hs ▸ failing_act s a
      rw [replies, List.filter_append, spared]
      cases ha : a.isPicked force with
      | true =>
          obtain ⟨⟨recorded, hact⟩, hforce⟩ := act_of_picked hs ha
          have hdropped : (s.reply? force a).toList.filter (fun r => !r.picked) = [] := by
            cases hr : s.reply? force a with
            | none => rfl
            | some r => simp [picked_of_reply? hr, ha]
          obtain ⟨hreplies, hafter⟩ := ih hnext operations
          have hsame : (s.act a).recording operations = s.recording operations := by rw [hact]; rfl
          rw [hsame, hforce] at hreplies hafter
          rw [hdropped, hforce]
          exact ⟨hreplies, hafter⟩
      | false =>
          obtain ⟨recorded, hact⟩ := act_recording s operations a
          have hkept : (s.reply? force a).toList.filter (fun r => !r.picked) =
              (s.reply? force a).toList := by
            cases hr : s.reply? force a with
            | none => rfl
            | some r => simp [picked_of_reply? hr, ha]
          obtain ⟨hreplies, operations', hafter⟩ := ih hnext recorded
          rw [hkept]
          constructor
          · show Option.toList _ ++ _ = _
            rw [reply?_recording, hact]
            exact congrArg (_ ++ ·) hreplies
          · refine ⟨operations', ?_⟩
            show ((s.recording operations).act a).after _ = _
            rw [hact]
            exact hafter

theorem replies_of_picked (hs : s.failing = force) (acts : List Act) :
    ∀ r ∈ s.replies force acts,
      (r.picked = true → r.answer = .error (.backend (.injected r.request.name))) ∧
        (r.picked = false → ∀ e, r.answer = .error e → e.kind = .usage) := by
  induction acts generalizing s force with
  | nil => exact List.forall_mem_nil _
  | cons a acts ih =>
      refine List.forall_mem_append.mpr ⟨?_, ih (hs ▸ failing_act s a)⟩
      cases a with
      | call now request =>
          have hfails : s.fails request = picks force request := hs ▸ fails_eq_picks s request
          refine List.forall_mem_singleton.mpr ⟨fun hp => ?_, fun hp e he => ?_⟩
          · exact congrArg Outcome.answer (call_of_fails (hfails.trans hp) now)
          · replace he : (s.call now request).answer = .error e := he
            rw [call_of_not_fails (hfails.trans hp)] at he
            exact perform_usage he
      | failWhen | clearFailures | clearOperations => exact List.forall_mem_nil _

end Records

section Runs

theorem after_concat (s : MockCache) (acts : List Act) (a : Act) :
    s.after (acts ++ [a]) = (s.after acts).act a :=
  List.foldl_concat ..

theorem reached_after (acts : List Act) : Reached (new.after acts) := by
  induction acts using List.reverseRecOn with
  | nil => exact .start
  | append_singleton acts a ih =>
      rw [after_concat]
      cases a with
      | call now request => exact ih.call now request
      | failWhen predicate => exact ih.failWhen predicate
      | clearFailures => exact ih.clearFailures
      | clearOperations => exact ih.clearOperations

theorem operations_after (acts : List Act) : (new.after acts).operations = requested acts := by
  induction acts using List.reverseRecOn with
  | nil => rfl
  | append_singleton acts a ih =>
      rw [after_concat, requested, List.rtakeWhile_concat]
      cases a with
      | call now request =>
          show ((new.after acts).call now request).state.operations = _
          rw [operations_call, ih, if_pos (by rfl), List.filterMap_append]
          rfl
      | failWhen | clearFailures =>
          rw [if_pos (by rfl), List.filterMap_append]
          exact ih.trans (List.append_nil _).symm
      | clearOperations => rfl

theorem perform_sorted {s : MockCache} (hs : Entries.Sorted EntryKey.less s.data)
    (request : Request) : Entries.Sorted EntryKey.less (s.perform request).state.data := by
  cases request with
  | register c =>
      simp only [perform, register]
      split <;> exact hs
  | set key value =>
      simp only [perform, set]
      split
      · exact hs
      · split
        · exact hs
        · exact hs.insert EntryKey.less_isOrder key value
  | get key =>
      simp only [perform, get]
      split <;> exact hs
  | del key =>
      simp only [perform, del]
      split
      · exact hs
      · exact hs.filter _
  | close => exact Entries.sorted_nil _

theorem Reached.sorted {s : MockCache} (hs : s.Reached) : Entries.Sorted EntryKey.less s.data := by
  induction hs with
  | start => exact Entries.sorted_nil _
  | @call s now request _ ih =>
      unfold MockCache.call
      split
      · exact ih
      · exact perform_sorted (s := s.record request) ih request
  | failWhen _ _ ih | clearFailures _ ih | clearOperations _ ih => exact ih

-- Whatever is asked to fail, and whenever: the calls for which the predicate in force holds fail
-- with a backend error, and no others do. Without these calls the run answers the same and ends
-- with the same collections and entries. What is recorded are all calls since the record was last
-- cleared, and each entry could be written again to the collection that it is in.
theorem injected_failures_are_pure (acts : List Act) :
    let s := new.after acts
    let t := new.after (spared none acts)
    (∀ r ∈ new.replies none acts,
      (r.picked = true → r.answer = .error (.backend (.injected r.request.name))) ∧
        (r.picked = false → ∀ e, r.answer = .error e → e.kind = .usage)) ∧
    new.replies none (spared none acts) =
      (new.replies none acts).filter (fun r => !r.picked) ∧
    t.collections = s.collections ∧ t.data = s.data ∧
    s.operations = requested acts ∧
    ∀ key value, (key, value) ∈ s.data →
      ∃ c bytes, s.collections.get key.collection = .ok c ∧ c.type.encode value = .ok bytes := by
  intro s t
  obtain ⟨hreplies, operations, hafter⟩ := after_spared (s := new) rfl acts []
  have ht : t = s.recording operations := hafter
  have hreached : s.Reached := reached_after acts
  refine ⟨replies_of_picked rfl acts, hreplies, ?_, ?_, operations_after acts, ?_⟩
  · rw [ht]; rfl
  · rw [ht]; rfl
  · intro key value hm
    have hdistinct := hreached.sorted.distinct EntryKey.less_isOrder
    exact hreached.isTyped key value (hdistinct.lookup_of_mem hm)

-- A write and a close that are to fail, and a read that finds the entry from before. The close that
-- fails is recorded like the read after it.
theorem failed_close_keeps_entries :
    let c : Collection := .new "c" .int64
    let acts : List Act :=
      [.call 0 (.register c), .call 1 (.set (c.entry "k") (.int64 1)),
        .failWhen fun request => request.name == "set" || request.name == "close",
        .call 2 (.set (c.entry "k") (.int64 2)), .clearOperations, .call 3 .close,
        .clearFailures, .call 4 (.get (c.entry "k"))]
    (∀ e, (⟨⟨3, .close, .error e⟩, true⟩ : Reply) ∈ new.replies none acts →
      e = .backend (.injected "close")) ∧
    new.replies none (spared none acts) =
      [⟨⟨0, .register c, .ok none⟩, false⟩, ⟨⟨1, .set (c.entry "k") (.int64 1), .ok none⟩, false⟩,
        ⟨⟨4, .get (c.entry "k"), .ok (some (.int64 1))⟩, false⟩] ∧
    (new.after acts).operations = [.close, .get (c.entry "k")] ∧
    (new.after acts).data = [(c.entry "k", .int64 1)] ∧
    ∃ c' bytes, (new.after acts).collections.get "c" = .ok c' ∧
      c'.type.encode (.int64 1) = .ok bytes := by
  intro c acts
  obtain ⟨hpicked, hspared, -, hdata, hoperations, htyped⟩ := injected_failures_are_pure acts
  have hkept : (new.after acts).data = [(c.entry "k", .int64 1)] := hdata ▸ rfl
  refine ⟨?_, hspared.trans rfl, hoperations.trans rfl, hkept, ?_⟩
  · exact fun e he => Except.error.inj ((hpicked _ he).1 rfl)
  · exact htyped (c.entry "k") (.int64 1) (hkept ▸ List.mem_singleton.mpr rfl)

end Runs

end PolyCache.MockCache
