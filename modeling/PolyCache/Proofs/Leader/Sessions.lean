import Mathlib.Data.List.Nodup
import Mathlib.Data.List.Perm.Basic
import PolyCache.Proofs.Leader.Elector
import PolyCache.Proofs.Leader.Locks

-- Where sessions are while electors compete: each stands in one place only, in the hands of one
-- elector, in the pool, or among those that have been closed.
namespace PolyCache.Leader

-- Everything in a contender's hands, on its way out, or on its way in.
def Contender.sessions (c : Contender) : List SessionId :=
  c.elector.sessions ++ c.partings.map (·.session) ++ (c.reply.bind Reply.granted?).toList

theorem Contender.sessions_new (key : LockKey) (session : SessionId) :
    (Contender.new key session).sessions = [session] := rfl

theorem Contender.sessions_after (st : Step) : (Contender.after st).sessions = st.sessions := by
  simp [sessions, after, Step.sessions]

theorem Contender.mem_sessions_of_session {c : Contender} {s : SessionId}
    (h : c.elector.session = some s) : s ∈ c.sessions := by
  simp [sessions, Elector.sessions, h]

namespace Contest

def places (w : Contest) : List SessionId :=
  w.contenders.flatMap Contender.sessions ++ w.idle ++ w.closing

structure Sound (w : Contest) : Prop where
  locks : w.locks.WellFormed
  key : ∀ c ∈ w.contenders, c.elector.key = w.key
  elector : ∀ c ∈ w.contenders, c.elector.IsSound
  reply : ∀ c ∈ w.contenders, ∀ r ∈ c.reply, c.elector.Expects r
  apart : w.places.Nodup
  opened : ∀ s ∈ w.places, s ∈ w.opened

theorem sound_new (key : LockKey) : (new key).Sound where
  locks := Locks.wellFormed_empty
  key := by simp [new]
  elector := by simp [new]
  reply := by simp [new]
  apart := by simp [new, places]
  opened := by simp [new, places]

private theorem flatMap_set_perm {α β : Type} (f : α → List β) {l : List α} {i : Nat} {a : α}
    (h : l[i]? = some a) (b : α) :
    ∃ others,
      (l.flatMap f).Perm (f a ++ others) ∧ ((l.set i b).flatMap f).Perm (f b ++ others) := by
  induction l generalizing i with
  | nil => simp at h
  | cons x l ih =>
      cases i with
      | zero =>
          obtain rfl : x = a := by simpa using h
          exact ⟨l.flatMap f, by simp, by simp⟩
      | succ i =>
          obtain ⟨others, ha, hb⟩ := ih (by simpa using h)
          refine ⟨f x ++ others, ?_, ?_⟩
          · rw [List.flatMap_cons]
            exact (ha.append_left _).trans (List.perm_append_comm_assoc _ _ _)
          · rw [List.set_cons_succ, List.flatMap_cons]
            exact (hb.append_left _).trans (List.perm_append_comm_assoc _ _ _)

section

variable {w u : Contest} {i j : ContenderId} {c d : Contender} {s : SessionId}

-- A change of one contender leaves all sessions that others have where they are.
theorem places_put (hc : w.contenders[i]? = some c) (d : Contender) :
    ∃ others, w.places.Perm (c.sessions ++ others) ∧
      (w.put i d).places.Perm (d.sessions ++ others) := by
  obtain ⟨others, ha, hb⟩ := flatMap_set_perm Contender.sessions hc d
  refine ⟨others ++ w.idle ++ w.closing, ?_, ?_⟩
  · simpa only [places, List.append_assoc] using (ha.append_right w.idle).append_right w.closing
  · simpa only [places, put, List.append_assoc] using
      (hb.append_right w.idle).append_right w.closing

theorem Sound.key_of (hw : w.Sound) (hc : w.contenders[i]? = some c) : c.elector.key = w.key :=
  hw.key c (List.mem_of_getElem? hc)

theorem Sound.elector_of (hw : w.Sound) (hc : w.contenders[i]? = some c) : c.elector.IsSound :=
  hw.elector c (List.mem_of_getElem? hc)

theorem Sound.reply_of (hw : w.Sound) (hc : w.contenders[i]? = some c) {r : Reply}
    (hr : c.reply = some r) : c.elector.Expects r :=
  hw.reply c (List.mem_of_getElem? hc) r hr

theorem Sound.owner_unique (hw : w.Sound) (hc : w.contenders[i]? = some c)
    (hd : w.contenders[j]? = some d) (hs : s ∈ c.sessions) (ht : s ∈ d.sessions) : i = j := by
  have hn : (w.contenders.flatMap Contender.sessions).Nodup :=
    (List.nodup_append.mp (List.nodup_append.mp hw.apart).1).1
  have hp := List.pairwise_iff_getElem.mp (List.nodup_flatMap.mp hn).2
  obtain ⟨hi, rfl⟩ := List.getElem?_eq_some_iff.mp hc
  obtain ⟨hj, rfl⟩ := List.getElem?_eq_some_iff.mp hd
  rcases Nat.lt_trichotomy i j with h | h | h
  · exact False.elim (hp i j hi hj h hs ht)
  · exact h
  · exact False.elim (hp j i hj hi h ht hs)

theorem Sound.mem_places (hc : w.contenders[i]? = some c) (hs : s ∈ c.sessions) :
    s ∈ w.places := by
  simp only [places, List.mem_append, List.mem_flatMap]
  exact Or.inl (Or.inl ⟨c, List.mem_of_getElem? hc, hs⟩)

theorem Sound.notMem_closing (hw : w.Sound) (hc : w.contenders[i]? = some c)
    (hs : s ∈ c.sessions) : s ∉ w.closing := by
  intro hm
  have hd := (List.nodup_append.mp hw.apart).2.2
  have hin : s ∈ w.contenders.flatMap Contender.sessions ++ w.idle :=
    List.mem_append_left _ (List.mem_flatMap.mpr ⟨c, List.mem_of_getElem? hc, hs⟩)
  exact hd s hin s hm rfl

-- A changed contender keeps the rest in order if it stays in order itself
-- and has the same sessions.
theorem Sound.put (hw : w.Sound) (hkey : d.elector.key = w.key)
    (helector : d.elector.IsSound) (hreply : ∀ r ∈ d.reply, d.elector.Expects r)
    (hapart : (w.put i d).places.Nodup) (hopened : ∀ s ∈ (w.put i d).places, s ∈ w.opened) :
    (w.put i d).Sound := by
  refine ⟨hw.locks, ?_, ?_, ?_, hapart, hopened⟩ <;> intro x hx <;>
    rcases List.mem_or_eq_of_mem_set hx with hold | rfl
  · exact hw.key x hold
  · exact hkey
  · exact hw.elector x hold
  · exact helector
  · exact hw.reply x hold
  · exact hreply

theorem Sound.put_same (hw : w.Sound) (hc : w.contenders[i]? = some c)
    (hkey : d.elector.key = c.elector.key) (helector : d.elector.IsSound)
    (hreply : ∀ r ∈ d.reply, d.elector.Expects r) (hsessions : d.sessions.Perm c.sessions) :
    (w.put i d).Sound := by
  obtain ⟨others, ha, hb⟩ := places_put hc d
  have hp : (w.put i d).places.Perm w.places :=
    hb.trans ((hsessions.append_right others).trans ha.symm)
  exact hw.put (hkey.trans (hw.key_of hc)) helector hreply (hp.nodup_iff.mpr hw.apart)
    fun s hs => hw.opened s (hp.mem_iff.mp hs)

-- What only the server knows may change while the sessions stay.
theorem Sound.of_server (hw : w.Sound) (hkey : u.key = w.key)
    (hcontenders : u.contenders = w.contenders) (hidle : u.idle = w.idle)
    (hclosing : u.closing = w.closing) (hlocks : u.locks.WellFormed)
    (hopened : w.opened ⊆ u.opened) : u.Sound := by
  have hp : u.places = w.places := by simp only [places, hcontenders, hidle, hclosing]
  refine ⟨hlocks, ?_, ?_, ?_, hp ▸ hw.apart, ?_⟩
  · rw [hcontenders, hkey]
    exact hw.key
  · rw [hcontenders]
    exact hw.elector
  · rw [hcontenders]
    exact hw.reply
  · intro s hs
    rw [hp] at hs
    exact hopened (hw.opened s hs)

theorem perform?_eq (hl : w.locks.WellFormed) {call : Call} {yes : Bool}
    (h : w.perform? call = some (yes, u)) :
    ∃ locks depth, locks.WellFormed ∧ u = { w with locks, depth } := by
  cases call with
  | acquire => simp [perform?] at h
  | tryLock s key =>
      simp only [perform?, Option.ite_none_right_eq_some, Option.some.injEq, Prod.mk.injEq] at h
      obtain ⟨-, -, rfl⟩ := h
      exact ⟨_, _, hl.take key s, rfl⟩
  | holdsLock s key =>
      simp only [perform?, Option.ite_none_right_eq_some, Option.some.injEq, Prod.mk.injEq] at h
      obtain ⟨-, -, rfl⟩ := h
      exact ⟨_, _, hl, rfl⟩
  | unlock s key =>
      simp only [perform?, Option.ite_none_right_eq_some, Option.some.injEq, Prod.mk.injEq] at h
      obtain ⟨-, -, rfl⟩ := h
      split
      · exact ⟨_, _, hl, rfl⟩
      · split
        · exact ⟨_, _, hl.release key s, rfl⟩
        · exact ⟨_, _, hl, rfl⟩

-- A session that is handed out was in nobody's hands.
theorem handOut?_eq (hw : w.Sound) (h : w.handOut? s = some u) :
    ∃ idle opened alive, u = { w with idle, opened, alive } ∧ u.Sound ∧ s ∈ u.opened ∧
      s ∉ u.places := by
  unfold handOut? at h
  split at h
  · rename_i hidle
    obtain rfl := Option.some.inj h
    have hp : w.places.Perm (s :: { w with idle := w.idle.erase s }.places) := by
      have he := (List.perm_cons_erase hidle).append_left
        (w.contenders.flatMap Contender.sessions)
      refine (he.append_right w.closing).trans ?_
      simpa only [places, List.append_assoc, List.cons_append] using List.perm_middle
    have hn := List.nodup_cons.mp (hp.nodup_iff.mp hw.apart)
    have ho : ∀ t ∈ { w with idle := w.idle.erase s }.places, t ∈ w.opened := fun t ht =>
      hw.opened t (hp.mem_iff.mpr (List.mem_cons_of_mem _ ht))
    exact ⟨w.idle.erase s, w.opened, w.alive, rfl,
      ⟨hw.locks, hw.key, hw.elector, hw.reply, hn.2, ho⟩,
      hw.opened s (hp.mem_iff.mpr List.mem_cons_self), hn.1⟩
  · split at h
    · cases h
    · rename_i hnew
      obtain rfl := Option.some.inj h
      exact ⟨w.idle, s :: w.opened, s :: w.alive, rfl,
        hw.of_server rfl rfl rfl rfl hw.locks (List.subset_cons_self _ _),
        List.mem_cons_self, fun hp => hnew (hw.opened s hp)⟩

theorem sound_start (hw : w.Sound) (h : w.handOut? s = some u) :
    Sound { u with contenders := u.contenders ++ [.new w.key s] } := by
  obtain ⟨idle, opened, alive, hu, hs, hopened, hnew⟩ := handOut?_eq hw h
  have hkey : u.key = w.key := by rw [hu]
  have hp : Contest.places { u with contenders := u.contenders ++ [.new w.key s] } =
      u.contenders.flatMap Contender.sessions ++ s :: (u.idle ++ u.closing) := by
    simp [places, Contender.sessions_new]
  have hperm : List.Perm (u.contenders.flatMap Contender.sessions ++ s :: (u.idle ++ u.closing))
      (s :: u.places) := by
    simpa only [places, List.append_assoc] using List.perm_middle
  refine ⟨hs.locks, ?_, ?_, ?_, ?_, ?_⟩
  · intro c hc
    rcases List.mem_append.mp hc with hold | hc
    · exact hs.key c hold
    · rw [List.mem_singleton.mp hc, hkey]
      rfl
  · intro c hc
    rcases List.mem_append.mp hc with hold | hc
    · exact hs.elector c hold
    · rw [List.mem_singleton.mp hc]
      exact Elector.isSound_new _ _
  · intro c hc r hr
    rcases List.mem_append.mp hc with hold | hc
    · exact hs.reply c hold r hr
    · rw [List.mem_singleton.mp hc] at hr
      cases hr
  · rw [hp, hperm.nodup_iff]
    exact List.nodup_cons.mpr ⟨hnew, hs.apart⟩
  · intro t ht
    rw [hp, hperm.mem_iff] at ht
    rcases List.mem_cons.mp ht with rfl | ht
    · exact hopened
    · exact hs.opened t ht

theorem sound_grant (hw : w.Sound) (hc : w.contenders[i]? = some c) (hsettled : c.IsSettled)
    (hcall : c.elector.call? = some .acquire) (h : w.handOut? s = some u) :
    (u.put i { c with reply := some (.session s) }).Sound := by
  obtain ⟨idle, opened, alive, hu, hs, hopened, hnew⟩ := handOut?_eq hw h
  have hcontenders : u.contenders = w.contenders := by rw [hu]
  rw [← hcontenders] at hc
  obtain ⟨others, ha, hb⟩ := places_put hc { c with reply := some (.session s) }
  have hd : ({ c with reply := some (.session s) } : Contender).sessions.Perm
      (s :: c.sessions) := by
    simp [Contender.sessions, hsettled.1, hsettled.2, Reply.granted?]
  have hp := hb.trans ((hd.append_right others).trans (ha.symm.cons s))
  have hk := hs.key_of hc
  have he := hs.elector_of hc
  refine hs.put hk he ?_ ?_ ?_
  · intro r hr
    obtain rfl := Option.some.inj hr
    exact hcall
  · rw [hp.nodup_iff]
    exact List.nodup_cons.mpr ⟨hnew, hs.apart⟩
  · intro t ht
    rcases List.mem_cons.mp (hp.mem_iff.mp ht) with rfl | ht
    · exact hopened
    · exact hs.opened t ht

theorem places_dispose (w : Contest) (p : Parting) (keeps : Bool) :
    (w.dispose p keeps).places.Perm (p.session :: w.places) := by
  unfold dispose places
  split
  · have hm :
        (w.contenders.flatMap Contender.sessions ++ w.idle ++ p.session :: w.closing).Perm _ :=
      List.perm_middle
    simpa only [List.append_assoc, List.cons_append, List.nil_append] using hm
  · have hm : (w.contenders.flatMap Contender.sessions ++ w.idle ++ w.closing ++
        p.session :: []).Perm _ := List.perm_middle
    simpa only [List.append_assoc, List.append_nil] using hm

theorem Sound.dispose (hw : w.Sound) {p : Parting} (hp : p.session ∉ w.places)
    (ho : p.session ∈ w.opened) (keeps : Bool) : (w.dispose p keeps).Sound := by
  have hperm := places_dispose w p keeps
  have hapart : (w.dispose p keeps).places.Nodup :=
    hperm.nodup_iff.mpr (List.nodup_cons.mpr ⟨hp, hw.apart⟩)
  have hopened : ∀ s ∈ (w.dispose p keeps).places, s ∈ w.opened := by
    intro s hs
    rcases List.mem_cons.mp (hperm.mem_iff.mp hs) with rfl | hs
    · exact ho
    · exact hw.opened s hs
  revert hapart hopened
  unfold Contest.dispose
  split <;> exact fun hapart hopened =>
    ⟨hw.locks, hw.key, hw.elector, hw.reply, hapart, hopened⟩

theorem sound_part (hw : w.Sound) (hc : w.contenders[i]? = some c) {p : Parting}
    {partings : List Parting} (hfirst : c.partings = p :: partings) (keeps : Bool) :
    ((w.put i { c with partings }).dispose p keeps).Sound := by
  obtain ⟨others, ha, hb⟩ := places_put hc { c with partings }
  have hd : c.sessions.Perm (p.session :: ({ c with partings } : Contender).sessions) := by
    simp only [Contender.sessions, hfirst, List.map_cons, List.append_assoc, List.cons_append]
    exact List.perm_middle
  have hp : w.places.Perm (p.session :: (w.put i { c with partings }).places) :=
    ha.trans ((hd.append_right others).trans (hb.symm.cons _))
  have hn := List.nodup_cons.mp (hp.nodup_iff.mp hw.apart)
  have ho : ∀ s ∈ (w.put i { c with partings }).places, s ∈ w.opened := fun s hs =>
    hw.opened s (hp.mem_iff.mpr (List.mem_cons_of_mem _ hs))
  have hk := hw.key_of hc
  have he := hw.elector_of hc
  have hput : (w.put i { c with partings }).Sound :=
    hw.put hk he (fun r hr => hw.reply_of hc hr) hn.2 ho
  exact hput.dispose hn.1 (hw.opened _ (hp.mem_iff.mpr List.mem_cons_self)) keeps

theorem sound_reply (hw : w.Sound) (hc : w.contenders[i]? = some c) (hsettled : c.IsSettled)
    {r : Reply} (hr : c.elector.Expects r) (hgranted : r.granted? = none) :
    (w.put i { c with reply := some r }).Sound := by
  have he := hw.elector_of hc
  refine hw.put_same hc rfl he ?_ ?_
  · intro x hx
    obtain rfl := Option.some.inj hx
    exact hr
  · simp [Contender.sessions, hsettled.2, hgranted]

-- A step of an elector leaves its sessions with it or on their way out.
theorem sound_after (hw : w.Sound) (hc : w.contenders[i]? = some c) (hgone : c.partings = [])
    {st : Step} (hst : c.elector.Advances c.reply st) : (w.put i (.after st)).Sound := by
  refine hw.put_same hc hst.key hst.sound (by simp [Contender.after]) ?_
  rw [Contender.sessions_after]
  simpa [Contender.sessions, hgone] using hst.sessions

theorem sound_finish (hw : w.Sound) (s : SessionId) : (w.finish s).Sound :=
  hw.of_server rfl rfl rfl rfl (hw.locks.releaseAll _) (List.Subset.refl _)

theorem sound_yieldTo (hw : w.Sound) (outsider : Option SessionId) :
    (w.yieldTo outsider).Sound := by
  cases outsider with
  | none => exact hw.of_server rfl rfl rfl rfl (hw.locks.free _) (List.Subset.refl _)
  | some s =>
      exact hw.of_server rfl rfl rfl rfl (hw.locks.give _ _) (List.subset_cons_self _ _)

theorem Sound.next (hw : w.Sound) {a : Act} (h : w.Next a u) : u.Sound := by
  cases h with
  | start grant => exact sound_start hw grant
  | wake found settled idle cause notices =>
      apply sound_after hw found settled.1
      rw [settled.2]
      exact Elector.wake_advances (hw.elector_of found) idle _ cause
  | grant found settled call grant => exact sound_grant hw found settled call grant
  | answer found settled calls done =>
      obtain ⟨locks, depth, hl, rfl⟩ := perform?_eq hw.locks done
      have hu := hw.of_server (u := { w with locks, depth }) rfl rfl rfl rfl hl
        (List.Subset.refl _)
      refine sound_reply hu found settled ⟨_, calls, ?_⟩ rfl
      rintro rfl
      cases done
  | unheard found settled calls done fault =>
      obtain ⟨locks, depth, hl, rfl⟩ := perform?_eq hw.locks done
      have hu := hw.of_server (u := { w with locks, depth }) rfl rfl rfl rfl hl
        (List.Subset.refl _)
      exact sound_reply hu found settled (by simp [Elector.Expects, calls]) rfl
  | fail found settled calls fault =>
      exact sound_reply hw found settled (by simp [Elector.Expects, calls]) rfl
  | deliver found gone replied =>
      apply sound_after hw found gone
      rw [replied]
      exact Elector.resume_advances (hw.elector_of found) (hw.reply_of found replied)
  | part found first keeps => exact sound_part hw found first keeps
  | read found =>
      have he := hw.elector_of found
      exact hw.put_same found rfl he (fun r hr => hw.reply_of found hr) (List.Perm.refl _)
  | retire closed => exact sound_finish hw _
  | disconnect s => exact sound_finish hw s
  | usurp fresh => exact sound_yieldTo hw _

end

theorem Run.sound {w u : Contest} {h : History} (hr : Run w h u) (hw : w.Sound) : u.Sound := by
  induction hr with
  | rest => exact hw
  | step _ next ih => exact ih.next next

end Contest

end PolyCache.Leader
