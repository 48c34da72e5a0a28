import PolyCache.Leader.Locks
import PolyCache.Proofs.Entries

-- Who holds a key after each change of the locks. The table of locks keeps its order, so that a key
-- has one holder at most.
namespace PolyCache.Leader

theorem keyLess_isOrder : Entries.IsOrder keyLess where
  irrefl k := Entries.intLess_isOrder.irrefl k.toInt
  trans j k l := Entries.intLess_isOrder.trans j.toInt k.toInt l.toInt
  total _ _ hj hk := Int64.toInt_inj.mp (Entries.intLess_isOrder.total _ _ hj hk)

namespace Locks

def WellFormed (l : Locks) : Prop := Entries.Sorted keyLess l.holders

theorem WellFormed.distinct {l : Locks} (hl : l.WellFormed) : Entries.Distinct l.holders :=
  Entries.Sorted.distinct keyLess_isOrder hl

theorem wellFormed_empty : empty.WellFormed := Entries.sorted_nil _

theorem WellFormed.give {l : Locks} (hl : l.WellFormed) (key : LockKey) (session : SessionId) :
    (l.give key session).WellFormed :=
  Entries.Sorted.insert keyLess_isOrder hl key session

theorem WellFormed.free {l : Locks} (hl : l.WellFormed) (key : LockKey) :
    (l.free key).WellFormed :=
  Entries.Sorted.filter hl _

theorem WellFormed.take {l : Locks} (hl : l.WellFormed) (key : LockKey) (session : SessionId) :
    (l.take key session).WellFormed := by
  unfold Locks.take
  split
  · exact hl.give key session
  · exact hl

theorem WellFormed.release {l : Locks} (hl : l.WellFormed) (key : LockKey) (session : SessionId) :
    (l.release key session).WellFormed := by
  unfold Locks.release
  split
  · exact hl.free key
  · exact hl

theorem WellFormed.releaseAll {l : Locks} (hl : l.WellFormed) (ended : SessionId → Bool) :
    (l.releaseAll ended).WellFormed :=
  Entries.Sorted.filter hl _

@[simp] theorem holder?_empty (key : LockKey) : empty.holder? key = none := rfl

@[simp] theorem holder?_give (l : Locks) (key : LockKey) (session : SessionId) :
    (l.give key session).holder? key = some session := by
  simp [holder?, give, Entries.lookup_insert keyLess_isOrder]

@[simp] theorem holder?_free (l : Locks) (key : LockKey) : (l.free key).holder? key = none := by
  simp [holder?, free, Entries.lookup_erase]

-- A key that is taken keeps its holder.
theorem holder?_take (l : Locks) (key : LockKey) (session : SessionId) :
    (l.take key session).holder? key = some ((l.holder? key).getD session) := by
  unfold take
  split
  · rename_i h
    simp [h]
  · rename_i h
    simp [h]

theorem holder?_release (l : Locks) (key : LockKey) (session : SessionId) :
    (l.release key session).holder? key = (l.holder? key).filter (· ≠ session) := by
  unfold release isHeldBy
  by_cases h : l.holder? key = some session
  · simp [h, Option.filter]
  · simp only [h, beq_iff_eq, if_false]
    cases hh : l.holder? key with
    | none => rfl
    | some other =>
        have hne : other ≠ session := by
          rintro rfl
          exact h hh
        simp [Option.filter, hne]

theorem holder?_releaseAll {l : Locks} (hl : l.WellFormed) (ended : SessionId → Bool)
    (key : LockKey) :
    (l.releaseAll ended).holder? key = (l.holder? key).filter (!ended ·) :=
  hl.distinct.lookup_filter (fun _ session => !ended session) key

theorem isHeldBy_iff {l : Locks} {key : LockKey} {session : SessionId} :
    l.isHeldBy key session = true ↔ l.holder? key = some session := by
  simp [isHeldBy]

end Locks

end PolyCache.Leader
