import Mathlib.Data.List.Basic
import PolyCache.Executor

-- What goes on in the background does not depend on a caller who only waits for it.
namespace PolyCache.Executor

variable {σ φ : Type} {b : Behavior σ φ} {r : Executor σ φ} {call task : Nat} {c : Call φ}

-- There is nothing left to do but to learn an answer.
def Waits (b : Behavior σ φ) : Call φ → Prop
  | .future (.pending future) => ∀ answers now s, ∃ polled,
    b answers now s future = ⟨s, [], polled, []⟩ ∧
      (polled = .pending future ∨ ∃ answer, polled = .ready answer)
  | _ => True

def IsIdle (b : Behavior σ φ) (r : Executor σ φ) (call : Nat) : Prop :=
  ∃ c, r.calls[call]? = some c ∧ Waits b c

theorem IsIdle.lt (hi : r.IsIdle b call) : call < r.calls.length := by
  obtain ⟨c, hc, -⟩ := hi
  exact (List.getElem?_eq_some_iff.mp hc).1

theorem take_nothing (r : Executor σ φ) (polled : Polled φ) :
    r.take ⟨r.state, [], polled, []⟩ = r := by
  rw [take, List.map_nil, List.append_nil, List.append_nil]

theorem putCall_self (hc : r.calls[call]? = some c) : r.putCall call c = r := by
  obtain ⟨hlt, hget⟩ := List.getElem?_eq_some_iff.mp hc
  rw [putCall, ← hget, List.set_getElem_self]

-- A caller who polls while he waits changes nothing for anyone else.
theorem IsIdle.poll (hi : r.IsIdle b call) :
    ∃ c, Waits b c ∧ r.poll b call = r.putCall call c := by
  obtain ⟨c, hc, hwaits⟩ := hi
  have hself : ∃ c, Waits b c ∧ r = r.putCall call c := ⟨c, hwaits, (putCall_self hc).symm⟩
  unfold Executor.poll
  rw [hc]
  match c with
  | .future (.pending future) =>
      obtain ⟨polled, hturn, hpolled⟩ := hwaits r.answers r.now r.state
      dsimp only
      rw [turn, hturn, take_nothing]
      refine ⟨.future polled, ?_, rfl⟩
      rcases hpolled with rfl | ⟨answer, rfl⟩
      · exact hwaits
      · trivial
  | .future (.ready answer) => exact hself
  | .handle task => exact hself
  | .dropped => exact hself

-- The same in all but what callers have in hands.
structure Same (r r' : Executor σ φ) : Prop where
  now : r'.now = r.now
  state : r'.state = r.state
  tasks : r'.tasks = r.tasks
  log : r'.log = r.log

-- A task that has been spawned has its number for good, and only its own polls change it.
theorem getElem?_tasks_take (hlt : task < r.tasks.length) (turn : Turn σ φ) :
    (r.take turn).tasks[task]? = r.tasks[task]? :=
  List.getElem?_append_left hlt

theorem tasks_step (hlt : task < r.tasks.length) {e : Event σ φ} (hrun : e ≠ .run task) :
    (r.step b e).tasks[task]? = r.tasks[task]? := by
  cases e with
  | enter future => rfl
  | launch future => exact List.getElem?_append_left hlt
  | poll i =>
      simp only [step, Executor.poll]
      split
      · exact getElem?_tasks_take hlt _
      · rfl
  | drop i => rfl
  | run i =>
      have hne : i ≠ task := fun h => hrun (h ▸ rfl)
      simp only [step, run]
      split
      · exact (List.getElem?_set_ne hne).trans (getElem?_tasks_take hlt _)
      · rfl
  | happen change => rfl
  | tick now => rfl

end PolyCache.Executor
