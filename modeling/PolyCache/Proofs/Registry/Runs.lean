import Mathlib.Data.List.Induction
import Mathlib.Data.List.Perm.Basic
import PolyCache.Proofs.Registry

-- A registry tells what has been asked of it so far. The first accepted writer of a name keeps it
-- until the registry is closed, and the first close hands out everything, once.
namespace PolyCache.Registry

variable {α : Type}

inductive Operation (α : Type) where
  | ensureVacant (name : String)
  | insert (name : String) (entry : α)
  | get (name : String)
  | contains (name : String)
  | entries
  | size
  | close

inductive Reply (α : Type) where
  | vacant
  -- the entry that was taken or found
  | entry (entry : α)
  | truth (b : Bool)
  | listing (entries : List (String × α))
  | count (n : Nat)
  | released (entries : List α)
  | refused (e : Error)

def Reply.of {β : Type} (accept : β → Reply α) : Except Error β → Reply α
  | .ok b => accept b
  | .error e => .refused e

def perform (r : Registry α) : Operation α → Reply α × Registry α
  | .ensureVacant name => (.of (fun _ => .vacant) (r.ensureVacant name), r)
  | .insert name entry =>
    match r.insert name entry with
    | .ok r' => (.entry entry, r')
    | .error e => (.refused e, r)
  | .get name => (.of .entry (r.get name), r)
  | .contains name => (.truth (r.contains name), r)
  | .entries => (.listing r.entries, r)
  | .size => (.count r.size, r)
  | .close => (.released r.close.2, r.close.1)

structure Exchange (α : Type) where
  operation : Operation α
  reply : Reply α

-- The oldest exchange first.
abbrev Record (α : Type) := List (Exchange α)

def after (r : Registry α) : List (Operation α) → Registry α
  | [] => r
  | operation :: more => after (r.perform operation).2 more

def record (r : Registry α) : List (Operation α) → Record α
  | [] => []
  | operation :: more =>
    ⟨operation, (r.perform operation).1⟩ :: record (r.perform operation).2 more

theorem after_append (r : Registry α) (operations more : List (Operation α)) :
    r.after (operations ++ more) = (r.after operations).after more := by
  induction operations generalizing r with
  | nil => rfl
  | cons first operations ih => exact ih _

theorem record_append (r : Registry α) (operations more : List (Operation α)) :
    r.record (operations ++ more) = r.record operations ++ (r.after operations).record more := by
  induction operations generalizing r with
  | nil => rfl
  | cons first operations ih => exact congrArg (_ :: ·) (ih _)

-- What an exchange put into the registry.
def Exchange.inserted? (x : Exchange α) : Option (String × α) :=
  match x.operation, x.reply with
  | .insert name entry, .entry _ => some (name, entry)
  | _, _ => none

-- What an exchange handed out for good.
def Exchange.released (x : Exchange α) : List α :=
  match x.reply with
  | .released entries => entries
  | _ => []

namespace Record

def IsOpen (h : Record α) : Prop := ∀ x ∈ h, x.operation ≠ .close

-- The names that were taken, with their entries, in the order in which they were.
def inserted (h : Record α) : List (String × α) := h.filterMap Exchange.inserted?

def released (h : Record α) : List α := h.flatMap Exchange.released

variable {h : Record α} {x : Exchange α}

theorem isOpen_concat : IsOpen (h ++ [x]) ↔ h.IsOpen ∧ x.operation ≠ .close := by
  simp [IsOpen, or_imp, forall_and]

theorem inserted_concat : inserted (h ++ [x]) = h.inserted ++ x.inserted?.toList := by
  simp only [inserted, List.filterMap_append, List.filterMap_cons, List.filterMap_nil]
  cases x.inserted? <;> rfl

theorem released_concat : released (h ++ [x]) = h.released ++ x.released := by
  simp [released]

end Record

-- What a registry holds, by its record.
inductive Holds : Registry α → Record α → Prop where
  | opened {entries : List (String × α)} {h : Record α} (isOpen : h.IsOpen)
      (held : entries.Perm h.inserted) (kept : h.released = []) : Holds ⟨some entries⟩ h
  | closed {h : Record α} (isClosed : ¬h.IsOpen)
      (released : h.released.Perm (h.inserted.map Prod.snd)) : Holds ⟨none⟩ h

structure Follows (r : Registry α) (h : Record α) : Prop where
  holds : r.Holds h
  once : Entries.Distinct h.inserted

theorem follows_empty : Follows (empty : Registry α) [] where
  holds := .opened (by simp [Record.IsOpen]) (List.Perm.refl _) rfl
  once := Entries.distinct_nil

namespace Follows

variable {r r' : Registry α} {h : Record α} {x : Exchange α} {name : String} {entry : α}

theorem get_eq_ok_iff (hr : r.Follows h) :
    r.get name = .ok entry ↔ h.IsOpen ∧ (name, entry) ∈ h.inserted := by
  obtain ⟨holds, once⟩ := hr
  cases holds with
  | @opened entries h isOpen held kept =>
      have hdistinct : Entries.Distinct entries := (held.map Prod.fst).nodup_iff.mpr once
      simp only [get, isOpen, true_and, ← held.mem_iff, ← hdistinct.lookup_eq_some_iff]
      cases entries.lookup name <;> simp
  | closed isClosed released => simp [get, isClosed]

theorem contains_eq_true_iff (hr : r.Follows h) :
    r.contains name = true ↔ h.IsOpen ∧ name ∈ h.inserted.map Prod.fst := by
  cases hr.holds with
  | @opened entries h isOpen held kept =>
      rw [contains, Entries.contains_iff, ← (held.map Prod.fst).mem_iff]
      exact (and_iff_right isOpen).symm
  | closed isClosed released => simp [contains, entries, Entries.contains, isClosed]

theorem ensureVacant_eq_ok_iff (hr : r.Follows h) :
    r.ensureVacant name = .ok () ↔ h.IsOpen ∧ name ≠ "" ∧ name ∉ h.inserted.map Prod.fst := by
  cases hr.holds with
  | @opened entries h isOpen held kept =>
      rw [← (held.map Prod.fst).mem_iff, ← Entries.contains_iff, and_iff_right isOpen]
      simp only [ensureVacant, checkVacant]
      by_cases hname : name = ""
      · simp [hname]
      · cases Entries.contains name entries <;> simp [hname]
  | closed isClosed released => simp [ensureVacant, isClosed]

theorem insert_accepted_iff (hr : r.Follows h) :
    (∃ r', r.insert name entry = .ok r') ↔
      h.IsOpen ∧ name ≠ "" ∧ name ∉ h.inserted.map Prod.fst := by
  simp only [insert_eq_ok_iff, exists_and_left, exists_eq, and_true, hr.ensureVacant_eq_ok_iff]

-- An exchange that takes no name and is not the last.
theorem rest (hr : r.Follows h) (hopen : x.operation ≠ .close) (hnone : x.inserted? = none)
    (hkept : x.released = []) : r.Follows (h ++ [x]) := by
  have hinserted : Record.inserted (h ++ [x]) = h.inserted := by
    rw [Record.inserted_concat, hnone, Option.toList_none, List.append_nil]
  have hreleased : Record.released (h ++ [x]) = h.released := by
    rw [Record.released_concat, hkept, List.append_nil]
  constructor
  · cases hr.holds with
    | opened isOpen held kept =>
        exact .opened (Record.isOpen_concat.mpr ⟨isOpen, hopen⟩) (hinserted ▸ held)
          (hreleased.trans kept)
    | closed isClosed released =>
        refine .closed (fun h => isClosed (Record.isOpen_concat.mp h).1) ?_
        rw [hinserted, hreleased]
        exact released
  · exact hinserted ▸ hr.once

theorem insert (hr : r.Follows h) (hinsert : r.insert name entry = .ok r') (found : α) :
    r'.Follows (h ++ [⟨.insert name entry, .entry found⟩]) := by
  obtain ⟨isOpen, -, hnew⟩ := hr.insert_accepted_iff.mp ⟨r', hinsert⟩
  obtain ⟨-, rfl⟩ := Registry.insert_eq_ok_iff.mp hinsert
  have hinserted : Record.inserted (h ++ [⟨.insert name entry, .entry found⟩]) =
      h.inserted ++ [(name, entry)] := Record.inserted_concat
  have hreleased : Record.released (h ++ [⟨.insert name entry, .entry found⟩]) = h.released :=
    Record.released_concat.trans (List.append_nil _)
  constructor
  · cases hr.holds with
    | @opened entries h isOpen held kept =>
        refine .opened (Record.isOpen_concat.mpr ⟨isOpen, nofun⟩) ?_ (hreleased.trans kept)
        rw [hinserted]
        rw [← (held.map Prod.fst).mem_iff] at hnew
        exact (Entries.perm_insert Entries.stringLess_isOrder hnew entry).trans
          (held.append_right _)
    | closed isClosed released => exact absurd isOpen isClosed
  · rw [hinserted]
    exact Entries.distinct_concat hr.once hnew

theorem close (hr : r.Follows h) :
    r.close.1.Follows (h ++ [⟨.close, .released r.close.2⟩]) := by
  have hinserted : Record.inserted (h ++ [⟨.close, .released r.close.2⟩]) = h.inserted :=
    Record.inserted_concat.trans (List.append_nil _)
  have hreleased : Record.released (h ++ [⟨.close, .released r.close.2⟩]) =
      h.released ++ r.close.2 := Record.released_concat
  refine ⟨.closed (fun h => (Record.isOpen_concat.mp h).2 rfl) ?_, hinserted ▸ hr.once⟩
  rw [hinserted, hreleased]
  cases hr.holds with
  | opened isOpen held kept =>
      rw [kept]
      exact held.map Prod.snd
  | closed isClosed released =>
      show (Record.released _ ++ []).Perm _
      rw [List.append_nil]
      exact released

theorem perform (hr : r.Follows h) (operation : Operation α) :
    (r.perform operation).2.Follows (h ++ [⟨operation, (r.perform operation).1⟩]) := by
  cases operation with
  | ensureVacant name =>
      refine hr.rest nofun rfl ?_
      simp only [Registry.perform]
      cases r.ensureVacant name <;> rfl
  | insert name entry =>
      simp only [Registry.perform]
      cases hinsert : r.insert name entry with
      | ok r' => exact hr.insert hinsert entry
      | error e => exact hr.rest nofun rfl rfl
  | get name =>
      refine hr.rest nofun rfl ?_
      simp only [Registry.perform]
      cases r.get name <;> rfl
  | contains | entries | size => exact hr.rest nofun rfl rfl
  | close => exact hr.close

end Follows

-- Induction on the operations, the latest last.
theorem follows_after (operations : List (Operation α)) :
    (empty.after operations).Follows (empty.record operations) := by
  induction operations using List.reverseRecOn with
  | nil => exact follows_empty
  | append_singleton operations last ih =>
      rw [after_append, record_append]
      exact ih.perform last

section Closed

variable {r : Registry α}

theorem perform_closed (hr : r.entries? = none) (operation : Operation α) :
    (r.perform operation).2.entries? = none ∧
      Exchange.inserted? ⟨operation, (r.perform operation).1⟩ = none ∧
      Exchange.released ⟨operation, (r.perform operation).1⟩ = [] := by
  obtain ⟨entries?⟩ := r
  obtain rfl : entries? = none := hr
  cases operation <;> exact ⟨rfl, rfl, rfl⟩

-- Nothing comes in or goes out after the first close.
theorem record_closed (hr : r.entries? = none) (operations : List (Operation α)) :
    (r.record operations).inserted = [] ∧ (r.record operations).released = [] := by
  induction operations generalizing r with
  | nil => exact ⟨rfl, rfl⟩
  | cons first operations ih =>
      obtain ⟨hclosed, hinserted, hreleased⟩ := perform_closed hr first
      obtain ⟨ihinserted, ihreleased⟩ := ih hclosed
      constructor
      · rw [record, Record.inserted, List.filterMap_cons, hinserted]
        exact ihinserted
      · rw [record, Record.released, List.flatMap_cons, hreleased]
        exact ihreleased

end Closed

theorem perform_refused {r : Registry α} {operation : Operation α} {e : Error}
    (h : (r.perform operation).1 = .refused e) : (r.perform operation).2 = r := by
  cases operation with
  | insert name entry =>
      simp only [perform] at h ⊢
      cases hinsert : r.insert name entry with
      | ok r' =>
          rw [hinsert] at h
          cases h
      | error e => rfl
  | close => cases h
  | ensureVacant | get | contains | entries | size => rfl

theorem insert_vacant (r : Registry α) (name : String) (entry : α) :
    r.ensureVacant name = (r.insert name entry).map fun _ => () := by
  cases h : r.insert name entry with
  | ok r' => exact (insert_eq_ok_iff.mp h).1
  | error e => exact insert_eq_error_iff.mp h

theorem get_usage {r : Registry α} {name : String} {e : Error} (h : r.get name = .error e) :
    e.kind = .usage := by
  unfold get at h
  split at h
  · cases h
    rfl
  · split at h <;> cases h
    rfl

theorem insert_usage {r : Registry α} {name : String} {entry : α} {e : Error}
    (h : r.insert name entry = .error e) : e.kind = .usage := by
  have hvacant := insert_eq_error_iff.mp h
  unfold ensureVacant checkVacant at hvacant
  split at hvacant
  · cases hvacant
    rfl
  · split at hvacant
    · cases hvacant
      rfl
    · split at hvacant <;> cases hvacant
      rfl

theorem Follows.entries {r : Registry α} {h : Record α} (hr : r.Follows h) :
    (h.IsOpen → r.entries.Perm h.inserted) ∧ (¬h.IsOpen → r.entries = []) := by
  cases hr.holds with
  | opened isOpen held kept => exact ⟨fun _ => held, fun hclosed => absurd isOpen hclosed⟩
  | closed isClosed released => exact ⟨fun hopen => absurd hopen isClosed, fun _ => rfl⟩

theorem Follows.released {r : Registry α} {h : Record α} (hr : r.Follows h) :
    (h.IsOpen → h.released = []) ∧ (¬h.IsOpen → h.released.Perm (h.inserted.map Prod.snd)) := by
  cases hr.holds with
  | opened isOpen held kept => exact ⟨fun _ => kept, fun hclosed => absurd isOpen hclosed⟩
  | closed isClosed released => exact ⟨fun hopen => absurd hopen isClosed, fun _ => released⟩

-- The first close hands out all that was ever taken.
theorem first_close (before more : List (Operation α)) (hopen : (empty.record before).IsOpen) :
    (empty.after before).close.2.Perm
        ((empty.record (before ++ .close :: more)).inserted.map Prod.snd) ∧
      ((empty.after before).close.1.record more).released = [] := by
  obtain ⟨hinserted, hreleased⟩ := record_closed (r := (empty.after before).close.1) rfl more
  have hlater : Record.inserted ((empty.after before).record (.close :: more)) = [] := hinserted
  have hall : (empty.record (before ++ .close :: more)).inserted =
      (empty.record before).inserted := by
    rw [record_append, Record.inserted, List.filterMap_append]
    exact (congrArg (_ ++ ·) hlater).trans (List.append_nil _)
  rw [hall]
  exact ⟨((follows_after before).entries.1 hopen).map Prod.snd, hreleased⟩

-- What a registry answers, by what it has been asked and has answered so far.
theorem answers_follow_record (operations : List (Operation α)) :
    let r := (empty : Registry α).after operations
    let h := (empty : Registry α).record operations
    (∀ name entry,
      ((∃ r', r.insert name entry = .ok r') ↔
        h.IsOpen ∧ name ≠ "" ∧ name ∉ h.inserted.map Prod.fst) ∧
      r.ensureVacant name = (r.insert name entry).map fun _ => ()) ∧
    (h.inserted.map Prod.fst).Nodup ∧
    (∀ name,
      (∀ entry, r.get name = .ok entry ↔ h.IsOpen ∧ (name, entry) ∈ h.inserted) ∧
      (∀ e, r.get name = .error e → e.kind = .usage) ∧
      (r.contains name = true ↔ h.IsOpen ∧ name ∈ h.inserted.map Prod.fst)) ∧
    (h.IsOpen → r.entries.Perm h.inserted ∧ r.size = h.inserted.length ∧ h.released = []) ∧
    (¬h.IsOpen → r.entries = [] ∧ r.size = 0 ∧ h.released.Perm (h.inserted.map Prod.snd)) ∧
    (∀ before more, operations = before ++ .close :: more → (empty.record before).IsOpen →
      (empty.after before).close.2.Perm (h.inserted.map Prod.snd) ∧
        ((empty.after before).close.1.record more).released = []) ∧
    ∀ operation e, (r.perform operation).1 = .refused e → (r.perform operation).2 = r := by
  intro r h
  have hr : r.Follows h := follows_after operations
  refine ⟨?_, hr.once, ?_, ?_, ?_, ?_, fun _ _ => perform_refused⟩
  · exact fun name entry => ⟨hr.insert_accepted_iff, insert_vacant r name entry⟩
  · exact fun name => ⟨fun _ => hr.get_eq_ok_iff, fun _ => get_usage, hr.contains_eq_true_iff⟩
  · intro hopen
    have hentries := hr.entries.1 hopen
    exact ⟨hentries, hentries.length_eq, hr.released.1 hopen⟩
  · intro hclosed
    have hentries := hr.entries.2 hclosed
    exact ⟨hentries, by rw [size, hentries, List.length_nil], hr.released.2 hclosed⟩
  · rintro before more rfl hopen
    exact first_close before more hopen

-- Whoever comes second for a name is refused, and so is everybody after the first close.
theorem second_writer_is_refused :
    let first : List (Operation Nat) := [.insert "b" 1, .insert "a" 2, .insert "b" 3, .insert "" 4]
    let h := (empty : Registry Nat).record (first ++ .close :: [.insert "c" 5, .close])
    h.inserted = [("b", 1), ("a", 2)] ∧ (empty.record first).IsOpen ∧ ¬h.IsOpen ∧
      h.released.Perm [1, 2] ∧ (empty.after first).close.2.Perm [1, 2] := by
  intro first h
  have hinserted : h.inserted = [("b", 1), ("a", 2)] := by decide
  have hopen : (empty.record first).IsOpen := by
    simp only [Record.IsOpen, first, record, List.forall_mem_cons]
    exact ⟨nofun, nofun, nofun, nofun, nofun⟩
  have hclosed : ¬h.IsOpen := fun hopen =>
    hopen ⟨.close, _⟩ (List.mem_of_getElem? (i := 4) rfl) rfl
  obtain ⟨-, -, -, -, hfinal, hfirst, -⟩ := answers_follow_record (first ++ .close :: _)
  have hvalues : h.inserted.map Prod.snd = [1, 2] := congrArg (List.map Prod.snd) hinserted
  exact ⟨hinserted, hopen, hclosed, hvalues ▸ (hfinal hclosed).2.2,
    hvalues ▸ (hfirst first _ rfl hopen).1⟩

end PolyCache.Registry
