import PolyCache.Background
import PolyCache.Proofs.Relational.Detached

-- What a task that writes in the background does, next to the backend's own future.
namespace PolyCache.Background

open Executor

variable {σ φ α : Type} {b : Behavior σ φ} {r r' : Executor σ (Background φ)} {task i : Nat}
  {failed : Error → LogEvent} {e : Error} {p p' q : Polled (Background φ)}
  {l l' more : List (Polled (Background φ))}

-- A task that writes, and the future that it polls: both have the same left
-- to do, or the same answer.
inductive Paired (failed : Error → LogEvent) : Polled (Background φ) → Polled (Background φ) → Prop
  | pending (future : φ) :
    Paired failed (.pending (.write failed future)) (.pending (.backend future))
  | ready (answer : Answer) : Paired failed (.ready answer) (.ready answer)

theorem paired_map (failed : Error → LogEvent) (polled : Polled φ) :
    Paired failed (polled.map (.write failed)) (polled.map .backend) := by
  cases polled with
  | ready answer => exact .ready answer
  | pending future => exact .pending future

-- Two lists of tasks that differ in this one at most.
def PairedAt (failed : Error → LogEvent) (task : Nat) (l l' : List (Polled (Background φ))) :
    Prop :=
  ∃ p p', l[task]? = some p ∧ Paired failed p p' ∧ l' = l.set task p'

theorem PairedAt.lt (h : PairedAt failed task l l') : task < l.length := by
  obtain ⟨p, -, hp, -⟩ := h
  exact (List.getElem?_eq_some_iff.mp hp).1

theorem PairedAt.append (h : PairedAt failed task l l') (more : List (Polled (Background φ))) :
    PairedAt failed task (l ++ more) (l' ++ more) := by
  have hlt := h.lt
  obtain ⟨p, p', hp, hpaired, rfl⟩ := h
  refine ⟨p, p', (List.getElem?_append_left hlt).trans hp, hpaired, ?_⟩
  rw [List.set_append_left _ _ hlt]

theorem PairedAt.set (h : PairedAt failed task l l') (hpaired : Paired failed p p') :
    PairedAt failed task (l.set task p) (l'.set task p') := by
  have hlt := h.lt
  obtain ⟨-, -, -, -, rfl⟩ := h
  refine ⟨p, p', List.getElem?_set_self hlt, hpaired, ?_⟩
  rw [List.set_set, List.set_set]

theorem PairedAt.set_other (h : PairedAt failed task l l') (hi : i ≠ task)
    (q : Polled (Background φ)) : PairedAt failed task (l.set i q) (l'.set i q) := by
  obtain ⟨p, p', hp, hpaired, rfl⟩ := h
  refine ⟨p, p', (List.getElem?_set_ne hi).trans hp, hpaired, ?_⟩
  rw [List.set_comm _ _ hi]

theorem PairedAt.getElem?_other (h : PairedAt failed task l l') (hi : i ≠ task) :
    l'[i]? = l[i]? := by
  obtain ⟨p, p', -, -, rfl⟩ := h
  exact List.getElem?_set_ne hi.symm

theorem PairedAt.answers (h : PairedAt failed task l l') :
    l'.map Polled.answer? = l.map Polled.answer? := by
  apply List.ext_getElem?
  intro i
  rw [List.getElem?_map, List.getElem?_map]
  by_cases hi : i = task
  · subst hi
    have hlt := h.lt
    obtain ⟨p, p', hp, hpaired, rfl⟩ := h
    rw [hp, List.getElem?_set_self hlt]
    cases hpaired <;> rfl
  · rw [h.getElem?_other hi]

-- The same in all but this task and the log.
structure Shadows (failed : Error → LogEvent) (task : Nat) (r r' : Executor σ (Background φ)) :
    Prop where
  now : r'.now = r.now
  state : r'.state = r.state
  calls : r'.calls = r.calls
  tasks : PairedAt failed task r.tasks r'.tasks

theorem Shadows.turn (h : Shadows failed task r r') (future : Background φ) :
    r'.turn (behavior b) future = r.turn (behavior b) future := by
  rw [Executor.turn, Executor.turn, answers, h.tasks.answers, h.now, h.state]
  rfl

theorem Shadows.run (h : Shadows failed task r r') (i : Nat) :
    Shadows failed task (r.run (behavior b) i) (r'.run (behavior b) i) := by
  have hturn := h.turn (b := b)
  by_cases hi : i = task
  · subst hi
    have hlt := h.tasks.lt
    obtain ⟨p, p', hp, hpaired, htasks⟩ := h.tasks
    have hp' : r'.tasks[i]? = some p' := by rw [htasks, List.getElem?_set_self hlt]
    cases hpaired with
    | pending future =>
        simp only [Executor.run, hp, hp', hturn]
        exact ⟨h.now, rfl, h.calls, (h.tasks.append _).set (paired_map failed _)⟩
    | ready answer =>
        simp only [Executor.run, hp, hp']
        exact h
  · simp only [Executor.run, h.tasks.getElem?_other hi]
    split
    · simp only [hturn]
      exact ⟨h.now, rfl, h.calls, (h.tasks.append _).set_other hi _⟩
    · exact h

theorem Shadows.step (h : Shadows failed task r r') (event : Event σ (Background φ)) :
    Shadows failed task (r.step (behavior b) event) (r'.step (behavior b) event) := by
  have hcalls := h.calls
  have hlength : r'.tasks.length = r.tasks.length := by
    obtain ⟨p, p', -, -, htasks⟩ := h.tasks
    rw [htasks, List.length_set]
  cases event with
  | enter future =>
      refine ⟨h.now, h.state, ?_, h.tasks⟩
      simp only [Executor.step, enter, hcalls]
  | launch future =>
      refine ⟨h.now, h.state, ?_, h.tasks.append _⟩
      simp only [Executor.step, launch, hcalls, hlength]
  | poll call =>
      simp only [Executor.step, poll, hcalls]
      split
      · simp only [h.turn]
        refine ⟨h.now, rfl, ?_, h.tasks.append _⟩
        simp only [take, putCall, hcalls]
      · exact h
  | drop call =>
      refine ⟨h.now, h.state, ?_, h.tasks⟩
      simp only [Executor.step, drop, putCall, hcalls]
  | run i => exact h.run i
  | happen change =>
      refine ⟨h.now, ?_, hcalls, h.tasks⟩
      simp only [Executor.step, h.now, h.state]
  | tick now => exact ⟨rfl, h.state, hcalls, h.tasks⟩

theorem Shadows.after (h : Shadows failed task r r') (later : List (Event σ (Background φ))) :
    Shadows failed task (r.after (behavior b) later) (r'.after (behavior b) later) := by
  induction later generalizing r r' with
  | nil => exact h
  | cons event later ih => exact ih (h.step event)

theorem Shadows.answer? (h : Shadows failed task r r') (call : Nat) :
    r'.answer? call = r.answer? call := by
  rw [Executor.answer?, Executor.answer?, answers, h.tasks.answers, h.calls]
  rfl

-- A value without a stored form costs its task nothing but a complaint.
def Refuses (task : Nat) (e : Error) (r : Executor σ (Background φ)) : Prop :=
  (∃ failed, r.tasks[task]? = some (.pending (.unwritten failed e))) ∨
    r.tasks[task]? = some (.ready (.error e))

theorem Refuses.lt (h : Refuses task e r) : task < r.tasks.length := by
  rcases h with ⟨failed, h⟩ | h <;> exact (List.getElem?_eq_some_iff.mp h).1

theorem Refuses.run (h : Refuses task e r) :
    (r.run (behavior b) task).state = r.state ∧
      (r.run (behavior b) task).tasks[task]? = some (.ready (.error e)) := by
  have hlt := h.lt
  rcases h with ⟨failed, h⟩ | h
  · simp only [Executor.run, h]
    refine ⟨rfl, ?_⟩
    simp only [putTask, take, Executor.turn, behavior, List.map_nil, List.append_nil]
    exact List.getElem?_set_self hlt
  · have hrun : r.run (behavior b) task = r := by rw [Executor.run, h]
    rw [hrun]
    exact ⟨rfl, h⟩

theorem Refuses.step (h : Refuses task e r) (event : Event σ (Background φ)) :
    Refuses task e (r.step (behavior b) event) := by
  by_cases hrun : event = .run task
  · subst hrun
    exact Or.inr h.run.2
  · have hsame := tasks_step (b := behavior b) h.lt hrun
    unfold Refuses
    rw [hsame]
    exact h

theorem Refuses.after (h : Refuses task e r) (later : List (Event σ (Background φ))) :
    Refuses task e (r.after (behavior b) later) := by
  induction later generalizing r with
  | nil => exact h
  | cons event later ih => exact ih (h.step event)

end PolyCache.Background
