import PolyCache.Proofs.Backend.Memory
import PolyCache.Proofs.Backend.Mock
import PolyCache.Proofs.Relational.Isolation

-- Collections are independent: a run without the requests about all others answers alike
-- for the one that is left.
namespace PolyCache

-- A relation between two states, kept while the first answers requests about other collections and
-- while both answer requests about this one.
theorem Backend.about_history {σ : Type} [Backend σ] {name : String} (R : σ → σ → Prop)
    (hother : ∀ s r now request, R s r → request.concerns name = false →
      R (call now s request).state r)
    (hown : ∀ s r now request, R s r → request.concerns name = true →
      (call now s request).answer = (call now r request).answer ∧
        R (call now s request).state (call now r request).state)
    {s r : σ} (h : R s r) (calls : List (Time × Request)) :
    (history s calls).about name = history r (calls.filter fun x => x.2.concerns name) := by
  induction calls generalizing s r with
  | nil => rfl
  | cons first calls ih =>
      obtain ⟨now, request⟩ := first
      cases hc : request.concerns name with
      | false =>
          rw [List.filter_cons_of_neg (by simp [hc]), history, History.about,
            List.filter_cons_of_neg (by simp [hc])]
          exact ih (hother s r now request h hc)
      | true =>
          obtain ⟨hanswer, hafter⟩ := hown s r now request h hc
          rw [List.filter_cons_of_pos (by simp [hc]), history, history, History.about,
            List.filter_cons_of_pos (by simp [hc]), hanswer]
          exact congrArg (_ :: ·) (ih hafter)

namespace RelationalCache

variable {s r : RelationalCache} {name : String}

-- What is asked and answered in a run without failures.
def exchanges (s : RelationalCache) (steps : List (Time × Step)) : History :=
  s.transcript (steps.map fun x => (x.1, .step x.2))

-- Timers fire and owners change their minds whatever the collection.
def Step.concerns (step : Step) (name : String) : Bool :=
  match step with
  | .call request => request.concerns name
  | _ => true

theorem IsSound.step (hs : s.IsSound) (now : Time) (step : Step) :
    (s.happen now (.step step)).1.IsSound := by
  cases step with
  | call request => exact hs.call now request
  | fire => exact (fire_unnoticed hs now).sound
  | approve rule => exact (unnoticed_setApproval hs rule now).sound

theorem about_exchanges (h : Same name s r) (hs : s.IsSound) (hr : r.IsSound)
    (steps : List (Time × Step)) :
    (s.exchanges steps).about name =
      r.exchanges (steps.filter fun x => x.2.concerns name) := by
  induction steps generalizing s r with
  | nil => rfl
  | cons first steps ih =>
      obtain ⟨now, step⟩ := first
      have hnext := hs.step now step
      have hnext' := hr.step now step
      cases step with
      | call request =>
          cases hc : request.concerns name with
          | false =>
              have hsame := (call_other hs hc now).trans h
              rw [List.filter_cons_of_neg (by simp [Step.concerns, hc])]
              show History.about (_ :: exchanges (s.call now request).state steps) name = _
              rw [History.about, List.filter_cons_of_neg (by simp [hc])]
              exact ih hsame hnext hr
          | true =>
              obtain ⟨hanswer, hsame⟩ := h.call hs hr now hc
              rw [List.filter_cons_of_pos (by simp [Step.concerns, hc])]
              show History.about (_ :: exchanges (s.call now request).state steps) name =
                _ :: exchanges (r.call now request).state _
              rw [History.about, List.filter_cons_of_pos (by simp [hc]), hanswer]
              exact congrArg (_ :: ·) (ih hsame hnext hnext')
      | fire =>
          exact ih (h.fire hs hr now) hnext hnext'
      | approve rule => exact ih (h.setApproval rule) hnext hnext'

end RelationalCache

-- In memory, in the mock and in tables of a sound server: to leave out all requests about other
-- collections changes no answer about this one, with whatever was in the tables at first,
-- evictions, expiries and sweeps.
theorem collections_are_independent (name : String) :
    (∀ cacheName calls,
      (Backend.history (MemoryCache.new cacheName) calls).about name =
        Backend.history (MemoryCache.new cacheName)
          (calls.filter fun x => x.2.concerns name)) ∧
      (∀ calls,
        (Backend.history MockCache.new calls).about name =
          Backend.history MockCache.new (calls.filter fun x => x.2.concerns name)) ∧
      ∀ schema approve server, Relational.Server.Ordered server → ∀ steps,
        ((RelationalCache.start schema approve server).exchanges steps).about name =
          (RelationalCache.start schema approve server).exchanges
            (steps.filter fun x => x.2.concerns name) := by
  refine ⟨?_, ?_, ?_⟩
  · intro cacheName calls
    apply Backend.about_history fun s r : MemoryCache =>
      s.partitions.get name = r.partitions.get name
    · intro s r now request h hc
      exact (MemoryCache.get_call_other hc now).trans h
    · intro s r now request h hc
      exact MemoryCache.call_alike h hc now
    · rfl
  · intro calls
    apply Backend.about_history fun s r : MockCache =>
      s.failing = none ∧ r.failing = none ∧ MockCache.Same name s r
    · rintro s r now request ⟨hs, hr, hsame⟩ hc
      have hother := MockCache.same_call hs hc now
      exact ⟨MockCache.failing_call hs now request, hr, hother.collection.trans hsame.collection,
        fun key => (hother.entries key).trans (hsame.entries key)⟩
    · rintro s r now request ⟨hs, hr, hsame⟩ hc
      obtain ⟨hanswer, hafter⟩ := hsame.call hs hr hc now
      exact ⟨hanswer, MockCache.failing_call hs now request, MockCache.failing_call hr now request,
        hafter⟩
    · exact ⟨rfl, rfl, rfl, fun _ => rfl⟩
  · intro schema approve server ho steps
    have hs := RelationalCache.isSound_start schema approve ho
    exact RelationalCache.about_exchanges (.refl name _) hs hs steps

-- Two collections in one database, and what is left of the run for the first.
theorem one_of_two_collections :
    let c : Collection := ⟨"c", some ⟨10000000000⟩, .int64, 0⟩
    let d : Collection := ⟨"d", some ⟨5⟩, .string, 0⟩
    let s := RelationalCache.start "public" none .empty
    (s.exchanges
        [(100, .call (.register c)), (100, .call (.register d)),
          (101, .call (.set (c.entry "k") (.int64 7))),
          (102, .call (.set (d.entry "k") (.string "seven"))), (2000000, .fire),
          (2000001, .call (.get (d.entry "k"))), (2000002, .call (.get (c.entry "k")))]).about "c" =
      [⟨100, .register c, .ok none⟩, ⟨101, .set (c.entry "k") (.int64 7), .ok none⟩,
        ⟨2000002, .get (c.entry "k"), .ok (some (.int64 7))⟩] := by
  intro c d s
  have hindependent := (collections_are_independent "c").2.2 "public" none .empty
    Relational.Server.ordered_empty
  rw [hindependent]
  unfold d c
  decide +kernel

end PolyCache
