import PolyCache.Proofs.Entries
import PolyCache.Relational.Server

-- What each statement does to the row of a key.
namespace PolyCache.Relational

namespace Server

open Entries

variable {s : Server} {name other key k : String} {t : Table} {now : Time} {seconds : Binary64}

def row? (s : Server) (name key : String) : Option Row := (s.table name).lookup key

-- The rows of each table stand in the order of their keys, so each key has one row at most.
def Ordered (s : Server) : Prop := ∀ name, Sorted stringLess (s.table name)

theorem table_putTable :
    (s.putTable name t).table other = if other = name then t else s.table other := by
  rw [table, table?, putTable, lookup_insert stringLess_isOrder, table, table?]
  by_cases ho : other = name <;> simp [ho]

theorem table_create : (s.create name).table other = s.table other := by
  unfold create
  split
  · rfl
  · rename_i hc
    have hnone := contains_eq_false_iff.mp (Bool.eq_false_iff.mpr hc)
    rw [table_putTable]
    split
    · rename_i ho
      rw [table, table?, ho, hnone]
      rfl
    · rfl

theorem table_retain (keep : String → Row → Bool) :
    (s.retain name keep).1.table other =
      if other = name then (s.table name).filter fun (k, row) => keep k row
      else s.table other := by
  unfold retain
  cases hrows : s.table? name with
  | none =>
      by_cases ho : other = name
      · simp [ho, table, hrows]
      · simp [ho]
  | some rows =>
      dsimp only
      rw [table_putTable]
      by_cases ho : other = name
      · simp [ho, table, hrows]
      · simp [ho]

@[simp] theorem row?_create : (s.create name).row? other k = s.row? other k := by
  rw [row?, row?, table_create]

theorem row?_upsert (bytes : Option Bytes) :
    (s.upsert now name key bytes).row? other k =
      if other = name ∧ k = key then some ⟨bytes, now⟩ else s.row? other k := by
  rw [row?, upsert, table_putTable, row?]
  by_cases ho : other = name
  · subst ho
    rw [if_pos rfl, lookup_insert stringLess_isOrder]
    by_cases hk : k = key <;> simp [hk]
  · simp [ho]

theorem row?_delete :
    (s.delete name key).1.row? other k =
      if other = name ∧ k = key then none else s.row? other k := by
  rw [row?, delete, table_retain, row?]
  by_cases ho : other = name
  · subst ho
    rw [if_pos rfl]
    have herase := lookup_erase key k (s.table other)
    rw [erase] at herase
    rw [herase]
    by_cases hk : k = key <;> simp [hk]
  · simp [ho]

theorem row?_sweep (hs : s.Ordered) :
    (s.sweep now name seconds).1.row? other k =
      if other = name then (s.row? other k).filter fun row => !row.isExpired now seconds
      else s.row? other k := by
  rw [row?, sweep, table_retain, row?]
  by_cases ho : other = name
  · subst ho
    rw [if_pos rfl, if_pos rfl]
    exact ((hs other).distinct stringLess_isOrder).lookup_filter
      (fun _ row => !row.isExpired now seconds) k
  · rw [if_neg ho, if_neg ho]

-- What a statement does to the rows of its table, and what it brings back.
def effect (now : Time) : Verb → List Parameter → Table → Table × Reply
  | .upsert, [.text key, .bytes bytes], rows =>
    (insert stringLess key ⟨some bytes, now⟩ rows, .changed 1)
  | .select, [.text key, .real seconds], rows =>
    (rows, .found ((rows.lookup key).filter fun row => row.isLive now seconds))
  | .sweep, [.real seconds], rows =>
    let kept := rows.filter fun (_, row) => !row.isExpired now seconds
    (kept, .changed (rows.length - kept.length))
  | .delete, [.text key], rows =>
    let kept := rows.filter fun (k, _) => !(k == key)
    (kept, .changed (rows.length - kept.length))
  | _, _, rows => (rows, .changed 0)

theorem count_retain (keep : String → Row → Bool) :
    (s.retain name keep).2 =
      (s.table name).length - ((s.table name).filter fun (k, row) => keep k row).length := by
  unfold retain table
  cases s.table? name <;> rfl

-- A statement works on its own table, whatever the others hold.
theorem execute_effect (now : Time) (s : Server) (statement : Statement)
    (parameters : List Parameter) :
    (s.execute now statement parameters).2 =
        (effect now statement.verb parameters (s.table statement.qualified)).2 ∧
      ∀ other, (s.execute now statement parameters).1.table other =
        if other = statement.qualified then
          (effect now statement.verb parameters (s.table statement.qualified)).1
        else s.table other := by
  have hsame (other : String) : s.table other =
      if other = statement.qualified then s.table statement.qualified else s.table other := by
    split
    · rename_i ho
      rw [ho]
    · rfl
  unfold execute
  split
  · rename_i hverb
    rw [hverb]
    exact ⟨rfl, fun other => table_create.trans (hsame other)⟩
  · rename_i key bytes hverb
    rw [hverb]
    exact ⟨rfl, fun other => table_putTable⟩
  · rename_i key seconds hverb
    rw [hverb]
    exact ⟨rfl, hsame⟩
  · rename_i seconds hverb
    rw [hverb]
    exact ⟨congrArg Reply.changed (count_retain _), fun other => table_retain _⟩
  · rename_i key hverb
    rw [hverb]
    exact ⟨congrArg Reply.changed (count_retain _), fun other => table_retain _⟩
  · rename_i ps verb rest hcreate hupsert hselect hsweep hdelete
    have hnone (rows : Table) : effect now statement.verb ps rows = (rows, .changed 0) := by
      unfold effect
      split
      · rename_i hverb
        exact (hupsert _ _ hverb rfl).elim
      · rename_i hverb
        exact (hselect _ _ hverb rfl).elim
      · rename_i hverb
        exact (hsweep _ hverb rfl).elim
      · rename_i hverb
        exact (hdelete _ hverb rfl).elim
      · rfl
    rw [hnone]
    exact ⟨rfl, hsame⟩

theorem ordered_empty : empty.Ordered := fun _ => sorted_nil _

theorem Ordered.create (hs : s.Ordered) (name : String) : (s.create name).Ordered := by
  intro other
  rw [table_create]
  exact hs other

theorem Ordered.upsert (hs : s.Ordered) (now : Time) (name key : String) (bytes : Option Bytes) :
    (s.upsert now name key bytes).Ordered := by
  intro other
  rw [Server.upsert, table_putTable]
  split
  · exact (hs name).insert stringLess_isOrder key _
  · exact hs other

theorem Ordered.retain (hs : s.Ordered) (name : String) (keep : String → Row → Bool) :
    (s.retain name keep).1.Ordered := by
  intro other
  rw [table_retain]
  split
  · exact (hs name).filter _
  · exact hs other

theorem Ordered.execute (hs : s.Ordered) (now : Time) (statement : Statement)
    (parameters : List Parameter) : (s.execute now statement parameters).1.Ordered := by
  unfold Server.execute
  split
  · exact hs.create _
  · exact hs.upsert _ _ _ _
  · exact hs
  · exact hs.retain _ _
  · exact hs.retain _ _
  · exact hs

end Server

end PolyCache.Relational
