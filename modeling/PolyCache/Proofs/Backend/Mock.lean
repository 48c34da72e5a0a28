import PolyCache.Backend.Mock
import PolyCache.Proofs.Codec
import PolyCache.Proofs.History
import PolyCache.Proofs.Registry

-- What the mock finds for each key after a request, as long as no failures are asked of it.
namespace PolyCache

open Entries

-- Keys of different collections never meet, whatever the names are made of.
theorem EntryKey.less_isOrder : IsOrder EntryKey.less where
  irrefl k := by simp [EntryKey.less, stringLess_isOrder.irrefl]
  trans := by
    rintro ⟨a, i⟩ ⟨b, j⟩ ⟨c, k⟩ hij hjk
    simp only [EntryKey.less, Bool.or_eq_true, Bool.and_eq_true, beq_iff_eq] at *
    rcases hij with hab | ⟨rfl, hij⟩
    · rcases hjk with hbc | ⟨rfl, -⟩
      · exact Or.inl (stringLess_isOrder.trans _ _ _ hab hbc)
      · exact Or.inl hab
    · rcases hjk with hac | ⟨rfl, hjk⟩
      · exact Or.inl hac
      · exact Or.inr ⟨rfl, stringLess_isOrder.trans _ _ _ hij hjk⟩
  total := by
    rintro ⟨a, i⟩ ⟨b, j⟩ hij hji
    simp only [EntryKey.less, Bool.or_eq_false_iff] at hij hji
    obtain rfl := stringLess_isOrder.total _ _ hij.1 hji.1
    simp only [beq_self_eq_true, Bool.true_and] at hij hji
    rw [stringLess_isOrder.total _ _ hij.2 hji.2]

namespace MockCache

variable {s r : MockCache} {now : Time} {request : Request} {key other : EntryKey} {value : Value}
  {c : Collection} {name : String} {e : Error}

def value? (s : MockCache) (name key : String) : Option Value := s.data.lookup ⟨name, key⟩

theorem call_eq_perform (hs : s.failing = none) (now : Time) (request : Request) :
    s.call now request = (s.record request).perform request := by
  unfold call fails
  rw [hs]
  rfl

@[simp] theorem record_collections : (s.record request).collections = s.collections := rfl

@[simp] theorem record_data : (s.record request).data = s.data := rfl

-- A request that is carried out changes what is registered and stored, and nothing else.
theorem perform_frame (s : MockCache) (request : Request) :
    ∃ collections data, (s.perform request).state = { s with collections, data } := by
  cases request with
  | register c =>
      simp only [perform, register]
      split <;> exact ⟨_, _, rfl⟩
  | set key value =>
      simp only [perform, set]
      split
      · exact ⟨_, _, rfl⟩
      · split <;> exact ⟨_, _, rfl⟩
  | get key =>
      simp only [perform, get]
      split <;> exact ⟨_, _, rfl⟩
  | del key =>
      simp only [perform, del]
      split <;> exact ⟨_, _, rfl⟩
  | close => exact ⟨_, _, rfl⟩

theorem failing_call (hs : s.failing = none) (now : Time) (request : Request) :
    (s.call now request).state.failing = none := by
  obtain ⟨collections, data, heq⟩ := (s.record request).perform_frame request
  rw [call_eq_perform hs, heq]
  exact hs

theorem value?_insert (key : EntryKey) (value : Value) (other : String) :
    (Entries.insert EntryKey.less key value s.data).lookup ⟨name, other⟩ =
      if ⟨name, other⟩ = key then some value else s.value? name other := by
  rw [lookup_insert EntryKey.less_isOrder]
  simp only [beq_iff_eq, value?]

theorem value?_erase (key : EntryKey) (other : String) :
    (Entries.erase key s.data).lookup ⟨name, other⟩ =
      if ⟨name, other⟩ = key then none else s.value? name other := by
  rw [lookup_erase]
  simp only [beq_iff_eq, value?]

-- What the mock knows of one collection: whether it is registered, and its entries.
structure Same (name : String) (s r : MockCache) : Prop where
  collection : s.collections.get name = r.collections.get name
  entries : ∀ key, s.value? name key = r.value? name key

-- A request about another collection leaves it as it is.
theorem same_call (hs : s.failing = none) (h : request.concerns name = false) (now : Time) :
    Same name (s.call now request).state s := by
  rw [call_eq_perform hs]
  cases request with
  | register c =>
      have hne := Request.ne_of_not_concerns h rfl
      simp only [perform, register]
      split
      · exact ⟨rfl, fun _ => rfl⟩
      · rename_i collections hinsert
        refine ⟨?_, fun _ => rfl⟩
        show collections.get name = _
        rw [Registry.get_insert hinsert, if_neg hne]
        rfl
  | set key value =>
      have hne := Request.ne_of_not_concerns h rfl
      simp only [perform, set]
      split
      · exact ⟨rfl, fun _ => rfl⟩
      · split
        · exact ⟨rfl, fun _ => rfl⟩
        · refine ⟨rfl, fun other => ?_⟩
          exact (value?_insert key value other).trans (if_neg fun heq => hne (by rw [← heq]))
  | get key =>
      simp only [perform, get]
      split <;> exact ⟨rfl, fun _ => rfl⟩
  | del key =>
      have hne := Request.ne_of_not_concerns h rfl
      simp only [perform, del]
      split
      · exact ⟨rfl, fun _ => rfl⟩
      · refine ⟨rfl, fun other => ?_⟩
        exact (value?_erase key other).trans (if_neg fun heq => hne (by rw [← heq]))
  | close => cases h

-- What a request about the collection answers, and leaves of it, depends on nothing else.
theorem Same.call (h : Same name s r) (hs : s.failing = none) (hr : r.failing = none)
    (hc : request.concerns name = true) (now : Time) :
    (s.call now request).answer = (r.call now request).answer ∧
      Same name (s.call now request).state (r.call now request).state := by
  rw [call_eq_perform hs, call_eq_perform hr]
  have hname := h.collection
  cases request with
  | register c =>
      obtain rfl := Request.eq_of_concerns hc rfl
      rcases Registry.insert_same hname c with ⟨e, hr, hs⟩ | ⟨t, u, hr, hs, hsame⟩
      · simp only [perform, register, record_collections, hs, hr]
        exact ⟨rfl, h.collection, h.entries⟩
      · simp only [perform, register, record_collections, hs, hr]
        exact ⟨rfl, hsame, h.entries⟩
  | set key value =>
      obtain rfl := Request.eq_of_concerns hc rfl
      simp only [perform, set, record_collections, ← hname]
      split
      · exact ⟨rfl, h.collection, h.entries⟩
      · split
        · exact ⟨rfl, h.collection, h.entries⟩
        · refine ⟨rfl, h.collection, fun other => ?_⟩
          show List.lookup _ (Entries.insert _ _ _ _) = List.lookup _ (Entries.insert _ _ _ _)
          rw [record_data, record_data, value?_insert, value?_insert, h.entries]
  | get key =>
      obtain rfl := Request.eq_of_concerns hc rfl
      simp only [perform, get, record_collections, ← hname]
      split
      · exact ⟨rfl, h.collection, h.entries⟩
      · exact ⟨congrArg Except.ok (h.entries key.key), h.collection, h.entries⟩
  | del key =>
      obtain rfl := Request.eq_of_concerns hc rfl
      simp only [perform, del, record_collections, ← hname]
      split
      · exact ⟨rfl, h.collection, h.entries⟩
      · refine ⟨rfl, h.collection, fun other => ?_⟩
        show List.lookup _ (Entries.erase _ _) = List.lookup _ (Entries.erase _ _)
        rw [record_data, record_data, value?_erase, value?_erase, h.entries]
  | close => exact ⟨rfl, rfl, fun _ => rfl⟩

-- A mock after calls, in between which its owner changes what it fails and forgets what it has
-- recorded.
inductive Reached : MockCache → Prop where
  | start : Reached .new
  | call {s : MockCache} (now : Time) (request : Request) : Reached s →
      Reached (s.call now request).state
  | failWhen {s : MockCache} (predicate : Request → Bool) : Reached s →
      Reached (s.failWhen predicate)
  | clearFailures {s : MockCache} : Reached s → Reached s.clearFailures
  | clearOperations {s : MockCache} : Reached s → Reached s.clearOperations

-- Each value can be written to the collection that it is found in.
def IsTyped (s : MockCache) : Prop :=
  ∀ key value, s.data.lookup key = some value →
    ∃ c bytes, s.collections.get key.collection = .ok c ∧ c.type.encode value = .ok bytes

theorem IsTyped.perform (hs : s.IsTyped) (request : Request) :
    (s.perform request).state.IsTyped := by
  cases request with
  | register c =>
      simp only [MockCache.perform, register]
      split
      · exact hs
      · rename_i collections hinsert
        intro key value hvalue
        obtain ⟨d, bytes, hd, hbytes⟩ := hs key value hvalue
        refine ⟨d, bytes, ?_, hbytes⟩
        -- a name that is registered cannot be registered again
        have hne : key.collection ≠ c.name := by
          intro heq
          have hnone := Registry.get_of_vacant (Registry.insert_eq_ok_iff.mp hinsert).1
          rw [← heq, hd] at hnone
          cases hnone
        exact (Registry.get_insert hinsert _).trans ((if_neg hne).trans hd)
  | set key value =>
      simp only [MockCache.perform, set]
      split
      · exact hs
      · rename_i c hc
        split
        · exact hs
        · rename_i bytes hbytes
          intro other value' hvalue
          rw [Outcome.done, lookup_insert EntryKey.less_isOrder] at hvalue
          split at hvalue
          · rename_i heq
            obtain rfl := beq_iff_eq.mp heq
            obtain rfl := Option.some.inj hvalue
            exact ⟨c, bytes, hc, hbytes⟩
          · exact hs other value' hvalue
  | get key =>
      simp only [MockCache.perform, get]
      split <;> exact hs
  | del key =>
      simp only [MockCache.perform, del]
      split
      · exact hs
      · intro other value hvalue
        rw [Outcome.done, lookup_erase] at hvalue
        split at hvalue
        · cases hvalue
        · exact hs other value hvalue
  | close =>
      intro key value hvalue
      cases hvalue

theorem Reached.isTyped (hs : s.Reached) : s.IsTyped := by
  induction hs with
  | start =>
      intro key value hvalue
      cases hvalue
  | @call s now request _ ih =>
      unfold MockCache.call
      split
      · exact ih
      · exact IsTyped.perform (s := s.record request) ih request
  | failWhen _ _ ih => exact ih
  | clearFailures _ ih => exact ih
  | clearOperations _ ih => exact ih

end MockCache

end PolyCache
