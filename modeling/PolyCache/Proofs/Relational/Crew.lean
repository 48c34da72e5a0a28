import PolyCache.Proofs.Relational.Reapers

-- Reapers as the tasks that they are. Other reapers and calls may come between the spawning of a
-- reaper and its first tick, between its question and its sweep, and between its being told to stop
-- and its stopping.
namespace PolyCache.RelationalCache

open Relational

-- Whom the end of the cache has reached.
inductive Ending where
  | none
  -- a call waits for the reapers of these collections, one after the other, and has told the first
  | closing (rest : List Collection)
  -- whoever made that call waits no longer, and all have been told
  | abandoned
  -- the cache was dropped, and all have been told
  | dropped

def Ending.Reaches : Ending → Collection → Prop
  | .none, _ => False
  | .closing rest, c => rest.head? = some c
  | .abandoned, _ => True
  | .dropped, _ => True

structure Crew where
  -- its reapers are those asleep
  cache : RelationalCache
  -- spawned, but without a tick yet
  starting : List Reaper
  -- with approval to sweep
  approved : List Reaper
  ending : Ending

-- What there is to tell of an act, with what was in force at that moment: the owner who was asked,
-- or what stood in the way of a statement.
inductive Entry where
  | answered (x : Exchange)
  -- a reaper has its first tick
  | began (c : Collection) (owner : Option (Collection → Bool))
  -- its timer has fired
  | fired (c : Collection) (owner : Option (Collection → Bool))
  | swept (c : Collection) (obstacles : Outage) (result : Except Error Reply)
  | other

namespace Entry

def exchange? : Entry → Option Exchange
  | .answered x => some x
  | _ => none

-- Each tick begins with a question.
def question? : Entry → Option (Collection × Option (Collection → Bool))
  | .began c owner => some (c, owner)
  | .fired c owner => some (c, owner)
  | _ => none

-- The collection whose reaper is at work.
def reaper? : Entry → Option String
  | .began c _ => some c.name
  | .fired c _ => some c.name
  | .swept c _ _ => some c.name
  | _ => none

def begins (name : String) : Entry → Bool
  | .began c _ => c.name == name
  | _ => false

theorem begins_of_no_reaper {e : Entry} (h : e.reaper? = none) (name : String) :
    e.begins name = false := by
  cases e with
  | began c owner => cases h
  | answered | fired | swept | other => rfl

-- A registration after which there is a reaper.
def hires (name : String) : Entry → Bool
  | .answered ⟨_, .register c, .ok _⟩ => c.name == name && c.ttl.isSome
  | _ => false

end Entry

-- The latest entry last.
abbrev Chronicle := List Entry

def Chronicle.calls (h : Chronicle) : History := h.filterMap Entry.exchange?

namespace Crew

def reapers (w : Crew) : List Reaper := w.starting ++ w.approved ++ w.cache.reapers

-- The reaper of a collection, if its rows have a lifetime. It does not wait for its first tick.
def spawned (now : Time) (c : Collection) : List Reaper :=
  (c.ttl.map fun period => ⟨c, period, now⟩).toList

-- A reaper asks. With approval it is about to sweep, without it sleeps.
def ask (now : Time) (w : Crew) (q : Reaper) : Crew :=
  match w.cache.consult q.collection with
  | (true, cache) => { w with cache, approved := w.approved ++ [q] }
  | (false, cache) => { w with cache := cache.sleep now q }

-- These reapers sleep, and no others.
def withAsleep (w : Crew) (reapers : List Reaper) : Crew :=
  { w with cache := { w.cache with reapers } }

-- Calls are answered one after the other, also while one of `close` waits, and reapers act whenever
-- they can.
inductive Next (now : Time) : Crew → Entry → Crew → Prop where
  | call {w : Crew} {request : Request} (stands : w.ending ≠ .dropped)
      (other : ∀ c, request ≠ .register c) (stays : request ≠ .close) :
      Next now w (.answered ⟨now, request, (w.cache.call now request).answer⟩)
        { w with cache := (w.cache.call now request).state }
  -- a registration fails, or it spawns a reaper that has yet to begin
  | refuse {w : Crew} {c : Collection} {e : Error} (stands : w.ending ≠ .dropped)
      (refused : (w.cache.enroll now c).answer = .error e) :
      Next now w (.answered ⟨now, .register c, .error e⟩)
        { w with cache := (w.cache.enroll now c).state }
  | enroll {w : Crew} {c : Collection} (stands : w.ending ≠ .dropped)
      (enrolled : (w.cache.enroll now c).answer = .ok none) :
      Next now w (.answered ⟨now, .register c, .ok none⟩)
        { w with
          cache := (w.cache.enroll now c).state
          starting := w.starting ++ spawned now c }
  -- the first tick comes whether or not the reaper has been told to stop
  | start {w : Crew} {q : Reaper} {rest : List Reaper} (starts : w.starting.Perm (q :: rest)) :
      Next now w (.began q.collection w.cache.approve) ({ w with starting := rest }.ask now q)
  -- and so may any other, for the timer may be heard first
  | fire {w : Crew} {q : Reaper} {rest : List Reaper} (sleeps : w.cache.reapers.Perm (q :: rest))
      (due : q.due ≤ now) :
      Next now w (.fired q.collection w.cache.approve) ((w.withAsleep rest).ask now q)
  | connect {w : Crew} {connection : Connection} {link : Link} (wanted : w.approved ≠ [])
      (connects : w.cache.link.acquire = (.ok connection, link)) :
      Next now w .other { w with cache := { w.cache with link } }
  | sweep {w : Crew} {q : Reaper} {rest : List Reaper} (sweeps : w.approved.Perm (q :: rest)) :
      Next now w (.swept q.collection w.cache.link.obstacles (w.cache.swept now q.collection))
        { w with
          cache := (w.cache.sweep now q.collection).1.sleep now q
          approved := rest }
  -- a call of `close` begins: no collection is registered any more, and the first reaper is told
  | close {w : Crew} (stands : w.ending = .none) :
      Next now w .other
        { w with
          cache := { w.cache with collections := w.cache.collections.close.1 }
          ending := .closing w.cache.collections.close.2 }
  | stop {w : Crew} {q : Reaper} {rest : List Reaper} (sleeps : w.cache.reapers.Perm (q :: rest))
      (told : w.ending.Reaches q.collection) : Next now w .other (w.withAsleep rest)
  -- it is gone, or there was none, and the next one is told
  | await {w : Crew} {c : Collection} {rest : List Collection}
      (closes : w.ending = .closing (c :: rest)) (gone : ∀ q ∈ w.reapers, q.collection ≠ c) :
      Next now w .other { w with ending := .closing rest }
  | closed {w : Crew} (closes : w.ending = .closing []) :
      Next now w (.answered ⟨now, .close, .ok none⟩) { w with ending := .none }
  -- no other such call has anybody to wait for
  | again {w : Crew} (stands : w.ending ≠ .dropped) (told : w.ending ≠ .none) :
      Next now w (.answered ⟨now, .close, .ok none⟩) w
  | abandon {w : Crew} {rest : List Collection} (closes : w.ending = .closing rest) :
      Next now w .other { w with ending := .abandoned }
  | drop (w : Crew) : Next now w .other { w with ending := .dropped }
  | approve (w : Crew) (rule : Collection → Bool) :
      Next now w .other { w with cache := w.cache.setApproval rule }
  | fail (w : Crew) (outage : Outage) :
      Next now w .other { w with cache := { w.cache with link := { w.cache.link with outage } } }
  | kill (w : Crew) :
      Next now w .other { w with cache := { w.cache with link := w.cache.link.kill } }

inductive Run (start : Crew) : Chronicle → Crew → Prop where
  | rest : Run start [] start
  | step {h : Chronicle} {w u : Crew} {now : Time} {e : Entry} (before : Run start h w)
      (next : Next now w e u) : Run start (h ++ [e]) u

variable {w u : Crew} {now : Time} {q : Reaper} {h : Chronicle}

theorem Run.append {start : Crew} {later : Chronicle} (hr : Run start h w) (hl : Run w later u) :
    Run start (h ++ later) u := by
  induction hl with
  | rest =>
      rw [List.append_nil]
      exact hr
  | step before next ih =>
      rw [← List.append_assoc]
      exact .step ih next

theorem Run.one {e : Entry} (hn : Next now w e u) : Run w [e] u := .step .rest hn

end Crew

namespace Crew

variable {s s' : RelationalCache} {w u : Crew} {now : Time} {q : Reaper} {h : History}

end Crew

end PolyCache.RelationalCache
