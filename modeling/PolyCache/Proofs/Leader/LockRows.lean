import Mathlib.Algebra.Group.Nat.Defs
import Mathlib.Data.Finset.Dedup
import PolyCache.Leader.Pool

-- What a session learns about its locks from the rows in which a server lists all locks. A key is
-- signed and has 64 bits, its halves in a row are unsigned and have 32, and the question for a key
-- cuts it with a shift that repeats the sign.
namespace PolyCache.Leader

-- What a lock is on: a key, a pair of small keys, or something that is no key at all.
inductive LockTarget where
  | key (key : LockKey)
  | pair (first second : Int32)
  | object (classId objectId : UInt32) (subId : Nat)
deriving DecidableEq

-- A lock that a session holds, or waits for while it is not granted.
structure LockRequest where
  target : LockTarget
  isGranted : Bool
  session : SessionId
deriving DecidableEq

namespace LockRequest

def row (r : LockRequest) : LockRow :=
  match r.target with
  | .key key => { LockRow.ofKey key r.session with isGranted := r.isGranted }
  | .pair first second => ⟨.advisory, first.toUInt32, second.toUInt32, 2, r.isGranted, r.session⟩
  | .object classId objectId subId =>
    ⟨.relation, classId, objectId, subId, r.isGranted, r.session⟩

-- The key that a session holds by this request.
def heldKey? (session : SessionId) : LockRequest → Option LockKey
  | ⟨.key key, true, owner⟩ => if owner = session then some key else none
  | _ => none

end LockRequest

def heldKeys (session : SessionId) (requests : List LockRequest) : Finset LockKey :=
  (requests.filterMap (LockRequest.heldKey? session)).toFinset

def Locks.requests (l : Locks) : List LockRequest :=
  l.holders.map fun (key, session) => ⟨.key key, true, session⟩

section Halves

theorem sshiftRight_and_mask (x : BitVec 64) :
    x.sshiftRight 32 &&& 0xFFFFFFFF#64 = x >>> 32 := by
  apply BitVec.eq_of_getLsbD_eq
  intro i hi
  have hmask : (0xFFFFFFFF#64).getLsbD i = decide (i < 32) := by
    show (BitVec.ofNat 64 (2 ^ 32 - 1)).getLsbD i = _
    rw [BitVec.getLsbD_ofNat, Nat.testBit_two_pow_sub_one, decide_eq_true hi, Bool.true_and]
  rw [BitVec.getLsbD_and, BitVec.getLsbD_sshiftRight, BitVec.getLsbD_ushiftRight, hmask]
  by_cases h : i < 32
  · rw [if_pos (by omega)]
    simp [h, hi]
  · -- the copies of the sign are masked, and there is nothing beyond the upper half
    have hnone : x.getLsbD (32 + i) = false := BitVec.getLsbD_of_ge _ _ (by omega)
    simp [h, hnone]

theorem toNat_upper (key : LockKey) :
    ((key >>> 32) &&& LockRow.halfMask).toUInt64.toNat = key.toUInt64.toNat / 2 ^ 32 := by
  have hshift : ((key >>> 32) &&& LockRow.halfMask).toBitVec = key.toBitVec >>> 32 :=
    sshiftRight_and_mask _
  show ((key >>> 32) &&& LockRow.halfMask).toBitVec.toNat = key.toBitVec.toNat / 2 ^ 32
  rw [hshift, BitVec.toNat_ushiftRight, Nat.shiftRight_eq_div_pow]

theorem toNat_lower (key : LockKey) :
    (key &&& LockRow.halfMask).toUInt64.toNat = key.toUInt64.toNat % 2 ^ 32 :=
  Nat.and_two_pow_sub_one_eq_mod key.toBitVec.toNat 32

theorem toInt64_eq_iff (half : UInt32) (x : Int64) :
    half.toUInt64.toInt64 = x ↔ half.toNat = x.toUInt64.toNat := by
  constructor
  · rintro rfl
    rfl
  · intro h
    rw [show half.toUInt64 = x.toUInt64 from UInt64.toNat_inj.mp h]
    rfl

-- Both halves of a key together tell it from all others.
theorem key_eq_iff {j k : LockKey} :
    j = k ↔ j.toUInt64.toNat / 2 ^ 32 = k.toUInt64.toNat / 2 ^ 32 ∧
      j.toUInt64.toNat % 2 ^ 32 = k.toUInt64.toNat % 2 ^ 32 := by
  constructor
  · rintro rfl
    exact ⟨rfl, rfl⟩
  · rintro ⟨hupper, hlower⟩
    have h : j.toUInt64 = k.toUInt64 := UInt64.toNat_inj.mp (by omega)
    exact Int64.toBitVec_inj.mp (congrArg UInt64.toBitVec h)

end Halves

namespace LockRow

variable {key : LockKey} {session : SessionId}

theorem matchesKey_iff {row : LockRow} :
    row.matchesKey key session = true ↔
      row.type = .advisory ∧ row.classId.toNat = key.toUInt64.toNat / 2 ^ 32 ∧
        row.objectId.toNat = key.toUInt64.toNat % 2 ^ 32 ∧ row.objectSubId = 1 ∧
        row.isGranted = true ∧ row.session = session := by
  simp only [matchesKey, Bool.and_eq_true, beq_iff_eq, toInt64_eq_iff, and_assoc]
  rw [toNat_upper, toNat_lower]

theorem classId_ofKey (key : LockKey) :
    (ofKey key session).classId.toNat = key.toUInt64.toNat / 2 ^ 32 := by
  have hbound := key.toUInt64.toNat_lt
  have hupper : (key.toUInt64 >>> 32).toNat = key.toUInt64.toNat / 2 ^ 32 :=
    Nat.shiftRight_eq_div_pow _ 32
  rw [ofKey, UInt64.toNat_toUInt32, hupper]
  omega

theorem objectId_ofKey (key : LockKey) :
    (ofKey key session).objectId.toNat = key.toUInt64.toNat % 2 ^ 32 :=
  UInt64.toNat_toUInt32 _

end LockRow

section Listing

variable {requests : List LockRequest} {key : LockKey} {session : SessionId}

-- A row is counted for one request only.
theorem matchesKey_row_iff (r : LockRequest) :
    r.row.matchesKey key session = true ↔ r = ⟨.key key, true, session⟩ := by
  obtain ⟨target, isGranted, owner⟩ := r
  rw [LockRow.matchesKey_iff]
  cases target with
  | key other =>
      show LockType.advisory = _ ∧ (LockRow.ofKey other owner).classId.toNat = _ ∧
        (LockRow.ofKey other owner).objectId.toNat = _ ∧ 1 = 1 ∧ isGranted = true ∧
        owner = session ↔ _
      rw [LockRow.classId_ofKey, LockRow.objectId_ofKey]
      simp only [LockRequest.mk.injEq, LockTarget.key.injEq, key_eq_iff, true_and, and_assoc]
  | pair | object => simp [LockRequest.row]

theorem heldKey?_eq_some_iff (r : LockRequest) :
    r.heldKey? session = some key ↔ r = ⟨.key key, true, session⟩ := by
  obtain ⟨target, isGranted, owner⟩ := r
  cases target with
  | key other =>
      cases isGranted with
      | true => simp [LockRequest.heldKey?, and_comm]
      | false => simp [LockRequest.heldKey?]
  | pair | object => simp [LockRequest.heldKey?]

theorem mem_heldKeys :
    key ∈ heldKeys session requests ↔ ⟨.key key, true, session⟩ ∈ requests := by
  simp [heldKeys, heldKey?_eq_some_iff]

theorem countHeld_rows :
    Locks.countHeld (requests.map LockRequest.row) key session =
      requests.count ⟨.key key, true, session⟩ := by
  rw [Locks.countHeld, ← List.countP_eq_length_filter, List.countP_map, List.count]
  apply List.countP_congr
  intro r _
  rw [beq_iff_eq]
  exact matchesKey_row_iff r

theorem rows_eq (l : Locks) : l.rows = l.requests.map LockRequest.row := by
  rw [Locks.requests, List.map_map]
  rfl

-- The question for a key counts a row if the asking session holds just this key. The locks of
-- others, those that are not granted and those on pairs of small keys make no difference.
theorem holds_lock_iff_held (requests : List LockRequest) (key : LockKey) (session : SessionId) :
    (0 < Locks.countHeld (requests.map LockRequest.row) key session ↔
      key ∈ heldKeys session requests) ∧
    ∀ l : Locks, Pool.answer l session key .holdsLock =
      (decide (key ∈ heldKeys session l.requests), l) := by
  have hcount (requests : List LockRequest) :
      0 < Locks.countHeld (requests.map LockRequest.row) key session ↔
        key ∈ heldKeys session requests := by
    rw [countHeld_rows, List.count_pos_iff, mem_heldKeys]
  refine ⟨hcount requests, fun l => ?_⟩
  simp only [Pool.answer, rows_eq, hcount]

-- A key below zero and one above 32 bits, beside a pair with the same halves as the latter.
example :
    let requests : List LockRequest :=
      [⟨.key (-1), true, 1⟩, ⟨.key 4294967303, true, 2⟩, ⟨.pair 1 7, true, 1⟩]
    Locks.countHeld (requests.map LockRequest.row) (-1) 1 = 1 ∧
      Locks.countHeld (requests.map LockRequest.row) 4294967303 1 = 0 ∧
      Locks.countHeld (requests.map LockRequest.row) 4294967303 2 = 1 := by
  decide

end Listing

end PolyCache.Leader
