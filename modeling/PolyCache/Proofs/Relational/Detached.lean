import PolyCache.Proofs.Executor
import PolyCache.Relational.Detached

-- A write of a relational cache that its caller abandons, next to one that he awaits.
namespace PolyCache

namespace RelationalCache

open Relational Executor

variable {s : RelationalCache} {now : Time} {request : Request} {write : Write} {e : Error}
  {r : Executor RelationalCache Future}

-- The first poll is over, and nothing else is going on.
def waiting (now : Time) (s : RelationalCache) (write : Write) : Executor RelationalCache Future :=
  ⟨now, s, [.pending (.send write)], [.future (.pending (.join 0))], []⟩

-- The task has sent the statement. Its caller knows, or has yet to poll.
inductive Sent (now : Time) (s : RelationalCache) (write : Write) :
    Executor RelationalCache Future → Prop
  | untold :
      Sent now s write
        ⟨now, (s.send now write).state, [.ready (s.send now write).answer],
          [.future (.pending (.join 0))], (s.send now write).log⟩
  | told :
      Sent now s write
        ⟨now, (s.send now write).state, [.ready (s.send now write).answer],
          [.future (.ready (s.send now write).answer)], (s.send now write).log⟩

theorem Sent.step (hs : Sent now s write r) {event : Event RelationalCache Future}
    (he : event.isPoll = true) : Sent now s write (r.step behavior event) := by
  cases event with
  | poll call =>
      cases hs with
      | untold =>
          cases call with
          | zero =>
              have htold : Sent now s write _ := .told
              rw [← List.append_nil (s.send now write).log] at htold
              exact htold
          | succ call => exact .untold
      | told => cases call <;> exact .told
  | run task =>
      cases hs with
      | untold => cases task <;> exact .untold
      | told => cases task <;> exact .told
  | _ => cases he

theorem Sent.after (hs : Sent now s write r) {later : List (Event RelationalCache Future)}
    (hpolls : ∀ event ∈ later, event.isPoll = true) :
    Sent now s write (r.after behavior later) := by
  induction later generalizing r with
  | nil => exact hs
  | cons event later ih =>
      obtain ⟨hfirst, hrest⟩ := List.forall_mem_cons.mp hpolls
      exact ih (hs.step hfirst) hrest

theorem Sent.state (hs : Sent now s write r) : r.state = (s.send now write).state := by
  cases hs <;> rfl

theorem Sent.answer? (hs : Sent now s write r) :
    (r.poll behavior 0).answer? 0 = some (s.send now write).answer := by
  cases hs <;> rfl

end RelationalCache

end PolyCache
