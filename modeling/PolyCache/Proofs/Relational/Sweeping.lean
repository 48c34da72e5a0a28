import PolyCache.Proofs.Duration
import PolyCache.Proofs.Relational.Cache

-- Nobody who reads through a cache can tell whether its rows have been swept.
namespace PolyCache.Relational

variable {row : Row} {now now' : Time} {ttl : Duration}

-- A row that is not live will not be live again,
theorem Row.not_isLive_later (h : row.isLive now ttl.toBinary64 = false) (hle : now ≤ now') :
    row.isLive now' ttl.toBinary64 = false := by
  unfold isLive at h ⊢
  rw [Duration.lt_iff_place] at h ⊢
  have hage : (row.age now).place ≤ (row.age now').place :=
    Duration.place_mono (Nat.sub_le_sub_right hle _)
  have hold := of_decide_eq_false h
  exact decide_eq_false (by omega)

-- and a row that a sweep deletes is not.
theorem Row.not_isLive_of_isExpired (h : row.isExpired now ttl.toBinary64 = true) :
    row.isLive now ttl.toBinary64 = false := by
  unfold isExpired at h
  unfold isLive
  rw [Duration.lt_iff_place] at h ⊢
  have hold := of_decide_eq_true h
  exact decide_eq_false (by omega)

end PolyCache.Relational

namespace PolyCache.RelationalCache

open Relational

variable {s s' s'' r : RelationalCache} {server : Server} {now now' : Time} {c : Collection}
  {row? : Option Row} {queue : List Reaper}

-- What a read does not see, now or later.
def IsHidden (now : Time) (c : Collection) (row? : Option Row) : Prop := visible now c row? = none

theorem isHidden_none : IsHidden now c none := rfl

theorem IsHidden.later (h : IsHidden now c row?) (hle : now ≤ now') : IsHidden now' c row? := by
  unfold IsHidden visible at h ⊢
  rw [Option.filter_eq_none_iff] at h ⊢
  intro row hrow
  rw [Bool.not_eq_true]
  exact Row.not_isLive_later (Bool.not_eq_true _ ▸ h row hrow) hle

-- Two caches that differ in rows that no read sees. Tables that are no collection's yet do not
-- differ; a table that is no longer a collection's is out of reach.
structure Alike (now : Time) (s r : RelationalCache) : Prop where
  schema : s.schema = r.schema
  collections : s.collections = r.collections
  registered : ∀ c, s.collections.get c.name = .ok c → ∀ key,
    s.row? c.name key = r.row? c.name key ∨
      IsHidden now c (s.row? c.name key) ∧ IsHidden now c (r.row? c.name key)
  vacant : ∀ name, s.collections.get name = .error (.usage (.notRegistered name)) → ∀ key,
    s.row? name key = r.row? name key

theorem Alike.refl (now : Time) (s : RelationalCache) : s.Alike now s :=
  ⟨rfl, rfl, fun _ _ _ => Or.inl rfl, fun _ _ _ => rfl⟩

theorem Alike.symm (h : s.Alike now r) : r.Alike now s where
  schema := h.schema.symm
  collections := h.collections.symm
  registered c hc key := by
    rw [← h.collections] at hc
    rcases h.registered c hc key with heq | ⟨hs, hr⟩
    · exact Or.inl heq.symm
    · exact Or.inr ⟨hr, hs⟩
  vacant name hn key := by
    rw [← h.collections] at hn
    exact (h.vacant name hn key).symm

theorem Alike.trans (h : s.Alike now s') (h' : s'.Alike now s'') : s.Alike now s'' where
  schema := h.schema.trans h'.schema
  collections := h.collections.trans h'.collections
  registered c hc key := by
    rcases h.registered c hc key with heq | ⟨hs, hs'⟩
    · rw [heq]
      exact h'.registered c (h.collections ▸ hc) key
    · rcases h'.registered c (h.collections ▸ hc) key with heq' | ⟨-, hs''⟩
      · rw [← heq']
        exact Or.inr ⟨hs, hs'⟩
      · exact Or.inr ⟨hs, hs''⟩
  vacant name hn key := (h.vacant name hn key).trans (h'.vacant name (h.collections ▸ hn) key)

theorem Alike.later (h : s.Alike now r) (hle : now ≤ now') : s.Alike now' r where
  schema := h.schema
  collections := h.collections
  registered c hc key :=
    (h.registered c hc key).imp_right fun hidden => ⟨hidden.1.later hle, hidden.2.later hle⟩
  vacant := h.vacant

theorem Alike.visible_eq (h : s.Alike now r) (hc : s.collections.get c.name = .ok c)
    (key : String) : visible now c (s.row? c.name key) = visible now c (r.row? c.name key) := by
  rcases h.registered c hc key with heq | ⟨hs, hr⟩
  · rw [heq]
  · exact hs.trans hr.symm

-- A change that leaves the cache sound and that no reader notices.
structure Unnoticed (now : Time) (s s' : RelationalCache) : Prop where
  sound : s'.IsSound
  alike : s.Alike now s'

theorem Unnoticed.refl (hs : s.IsSound) : s.Unnoticed now s := ⟨hs, .refl now s⟩

theorem Unnoticed.trans (h : s.Unnoticed now s') (h' : s'.Unnoticed now s'') :
    s.Unnoticed now s'' :=
  ⟨h'.sound, h.alike.trans h'.alike⟩

theorem Unnoticed.get_ok (h : s.Unnoticed now s') {name : String}
    (hc : s.collections.get name = .ok c) : s'.collections.get name = .ok c := by
  rw [← h.alike.collections]
  exact hc

-- The collections of these reapers are registered.
def Knows (s : RelationalCache) (reapers : List Reaper) : Prop :=
  ∀ q ∈ reapers, s.collections.get q.collection.name = .ok q.collection

theorem Knows.concat {reapers : List Reaper} {q : Reaper} (hr : s.Knows reapers)
    (hq : s.collections.get q.collection.name = .ok q.collection) : s.Knows (reapers ++ [q]) := by
  intro p hp
  rcases List.mem_append.mp hp with hold | hlast
  · exact hr p hold
  · rw [List.mem_singleton.mp hlast]
    exact hq

theorem Unnoticed.knows (h : s.Unnoticed now s') {reapers : List Reaper} (hr : s.Knows reapers) :
    s'.Knows reapers :=
  fun q hq => h.get_ok (hr q hq)

theorem Reaches.unnoticed (h : s.Reaches s.link.server s') (hs : s.IsSound) :
    s.Unnoticed now s' := by
  refine ⟨h.sound hs hs.ordered, ?_⟩
  have hrow (name key : String) : s.row? name key = s'.row? name key := (h.row?_eq name key).symm
  obtain ⟨link, rfl, -, -⟩ := h
  exact ⟨rfl, rfl, fun c _ key => Or.inl (hrow c.name key), fun name _ key => hrow name key⟩

theorem consult_unnoticed (hs : s.IsSound) (c : Collection) :
    s.Unnoticed now (s.consult c).2 :=
  (consult_reaches s c).unnoticed hs

-- A row outlasts a sweep, or no read sees it before or after.
theorem swept_eq_or_hidden (now : Time) (c : Collection) (row? : Option Row) :
    row? = (row?.filter fun row => !row.isExpired now c.effectiveTtl.toBinary64) ∨
      IsHidden now c row? ∧
        IsHidden now c (row?.filter fun row => !row.isExpired now c.effectiveTtl.toBinary64) := by
  cases row? with
  | none => exact Or.inl rfl
  | some row =>
      cases hexpired : row.isExpired now c.effectiveTtl.toBinary64 with
      | false =>
          left
          rw [Option.filter_some, hexpired]
          rfl
      | true =>
          right
          have hdead := Row.not_isLive_of_isExpired hexpired
          constructor
          · simp [IsHidden, visible, hdead]
          · simp [IsHidden, visible, hexpired]

theorem sweep_unnoticed (hs : s.IsSound) (hc : s.collections.get c.name = .ok c) (now : Time) :
    s.Unnoticed now (s.sweep now c).1 := by
  have hreaches := sweep_spec hs.healthy now c
  have hrow := row?_sweep hs now c
  refine ⟨hreaches.sound hs (hs.ordered.retain _ _), ?_⟩
  obtain ⟨link, heq, -, -⟩ := hreaches
  rw [heq] at hrow ⊢
  refine ⟨rfl, rfl, ?_, ?_⟩
  · intro c' hc' key
    rw [hrow]
    by_cases hn : c'.name = c.name
    · have hcc : c' = c := by
        rw [hn, hc] at hc'
        exact (Except.ok.inj hc').symm
      subst hcc
      rw [if_pos rfl]
      exact swept_eq_or_hidden now c' _
    · rw [if_neg hn]
      exact Or.inl rfl
  · intro name hname key
    rw [hrow, if_neg]
    rintro rfl
    rw [hc] at hname
    cases hname

-- A change of the reapers, as long as each belongs to a registered collection.
theorem unnoticed_reapers (hs : s.IsSound) {reapers : List Reaper} (hr : s.Knows reapers)
    (now : Time) : s.Unnoticed now { s with reapers } :=
  ⟨⟨hs.healthy, hs.spelled, hs.ordered, hs.named, hr⟩,
    ⟨rfl, rfl, fun _ _ _ => Or.inl rfl, fun _ _ _ => rfl⟩⟩

theorem sleep_unnoticed (hs : s.IsSound) {q : Reaper}
    (hq : s.collections.get q.collection.name = .ok q.collection) :
    s.Unnoticed now (s.sleep now q) := by
  have hknows : s.Knows (s.reapers ++ [.arm now q.collection q.period]) :=
    Knows.concat hs.reapers hq
  exact unnoticed_reapers hs hknows now

theorem startReaper_unnoticed (hs : s.IsSound) (hc : s.collections.get c.name = .ok c)
    (period : Duration) : s.Unnoticed now (s.startReaper now c period).1 := by
  have hconsult : s.Unnoticed now (s.consult c).2 := consult_unnoticed hs c
  unfold startReaper
  generalize s.consult c = consulted at hconsult ⊢
  obtain ⟨approved, s₁⟩ := consulted
  dsimp only at hconsult ⊢
  have hc₁ : s₁.collections.get c.name = .ok c := hconsult.get_ok hc
  cases approved with
  | false => exact hconsult.trans (sleep_unnoticed (q := .arm now c period) hconsult.sound hc₁)
  | true =>
      have hsweep := hconsult.trans (sweep_unnoticed hconsult.sound hc₁ now)
      exact hsweep.trans (sleep_unnoticed (q := .arm now c period) hsweep.sound (hsweep.get_ok hc))

-- The reapers that queue for the connection are some of those that were woken.
theorem wake_unnoticed (hs : s.IsSound) {q : Reaper}
    (hq : s.collections.get q.collection.name = .ok q.collection) (hqueue : s.Knows queue)
    (now : Time) : s.Unnoticed now (s.wake now queue q).1.2 ∧ s.Knows (s.wake now queue q).1.1 := by
  have hconsult : s.Unnoticed now (s.consult q.collection).2 := consult_unnoticed hs q.collection
  unfold wake
  generalize s.consult q.collection = consulted at hconsult ⊢
  obtain ⟨approved, s₁⟩ := consulted
  dsimp only at hconsult ⊢
  cases approved with
  | false =>
      exact ⟨hconsult.trans (sleep_unnoticed hconsult.sound (hconsult.get_ok hq)), hqueue⟩
  | true =>
      cases queue with
      | nil =>
          obtain ⟨connection, link, hacquire, hserver, hsteady⟩ :=
            Link.acquire_served hconsult.sound.healthy
          simp only [hacquire]
          have hreaches : s₁.Reaches s₁.link.server { s₁ with link } :=
            ⟨link, rfl, hserver, hsteady⟩
          exact ⟨hconsult.trans (hreaches.unnoticed hconsult.sound), hqueue.concat hq⟩
      | cons first rest => exact ⟨hconsult, hqueue.concat hq⟩

theorem wakeAll_unnoticed (hs : s.IsSound) (queue : List Reaper) {woken : List Reaper}
    (hwoken : s.Knows woken) (hqueue : s.Knows queue) (now : Time) :
    s.Unnoticed now (s.wakeAll now queue woken).1.2 ∧ s.Knows (s.wakeAll now queue woken).1.1 := by
  induction woken generalizing s queue with
  | nil => exact ⟨.refl hs, hqueue⟩
  | cons q woken ih =>
      obtain ⟨hwake, hqueue₁⟩ := wake_unnoticed hs (hwoken q List.mem_cons_self) hqueue now
      have hwoken₁ := hwake.knows fun p hp => hwoken p (List.mem_cons_of_mem _ hp)
      obtain ⟨hrest, hqueue₂⟩ := ih hwake.sound _ hwoken₁ (hwake.knows hqueue₁)
      refine ⟨hwake.trans hrest, fun p hp => ?_⟩
      rw [hwake.alike.collections]
      exact hqueue₂ p hp

theorem sweepAll_unnoticed (hs : s.IsSound) (hqueue : s.Knows queue) :
    s.Unnoticed now (s.sweepAll now queue).1 := by
  induction queue generalizing s with
  | nil => exact .refl hs
  | cons q queue ih =>
      have hq := hqueue q List.mem_cons_self
      have hsweep := sweep_unnoticed hs hq now
      have hsleep := hsweep.trans (sleep_unnoticed hsweep.sound (hsweep.get_ok hq))
      have hrest := hsleep.knows fun p hp => hqueue p (List.mem_cons_of_mem _ hp)
      exact hsleep.trans (ih hsleep.sound hrest)

theorem fire_unnoticed (hs : s.IsSound) (now : Time) : s.Unnoticed now (s.fire now).1 := by
  unfold fire
  rw [List.partition_eq_filter_filter]
  -- the collections of the due reapers stay registered while they are woken and while they sweep
  have hsome (keep : Reaper → Bool) : s.Knows (s.reapers.filter keep) :=
    fun q hq => hs.reapers q (List.mem_filter.mp hq).1
  have hwaiting := unnoticed_reapers hs (hsome fun q => !decide (q.due ≤ now)) now
  have hdue :
      s.Knows ((s.reapers.filter fun q => q.due ≤ now).mergeSort fun q r => q.due ≤ r.due) :=
    fun q hq => hsome _ q (List.mem_mergeSort.mp hq)
  obtain ⟨hwake, hqueue⟩ := wakeAll_unnoticed hwaiting.sound [] (hwaiting.knows hdue)
    (by simp [Knows]) now
  have hall := hwaiting.trans hwake
  exact hall.trans (sweepAll_unnoticed hall.sound (hwake.knows hqueue))

end PolyCache.RelationalCache
