import PolyCache.Proofs.Leader.Sessions

-- What one act of a contest does with one contender.
namespace PolyCache.Leader.Contest

variable {w u : Contest} {a : Act} {i j : ContenderId} {c d : Contender}

-- What an act does with a contender that is there.
inductive Move (w : Contest) (i : ContenderId) (c : Contender) : Act → Contender → Prop where
  | rest {a : Act} (other : a.contender? ≠ some i) : Move w i c a c
  | wake (settled : c.IsSettled) (idle : c.elector.phase = .idle) (cause : Wake)
      (notices : Bool) :
      Move w i c (.wake i cause notices)
        (.after (c.elector.wake (w.isSeenClosed notices) cause))
  | grant (call : c.elector.call? = some .acquire) (t : SessionId) :
      Move w i c (.serve i (.granted t)) { c with reply := some (.session t) }
  | answer {v : Contest} {call : Call} (calls : c.elector.call? = some call) {yes : Bool}
      (done : w.perform? call = some (yes, v)) :
      Move w i c (.serve i (.answered yes)) { c with reply := some (.answer yes) }
  | fail (fate : Fate) (fault : Fault) :
      Move w i c (.serve i fate) { c with reply := some (.failed fault) }
  | deliver {reply : Reply} (replied : c.reply = some reply) :
      Move w i c (.deliver i) (.after (c.elector.resume reply))
  | part (partings : List Parting) (keeps : Bool) : Move w i c (.part i keeps) { c with partings }
  | read : Move w i c (.read i) { c with elector := c.elector.takeErrors.2 }

theorem put_self (hc : w.contenders[i]? = some c) (d : Contender) :
    (w.put i d).contenders[i]? = some d := by
  obtain ⟨hi, -⟩ := List.getElem?_eq_some_iff.mp hc
  simp [put, hi]

theorem put_other (hij : i ≠ j) (d : Contender) :
    (w.put j d).contenders[i]? = w.contenders[i]? := by
  simp [put, Ne.symm hij]

-- The change of one contender is a move of that one, and the others rest.
theorem put_move (hc : w.contenders[i]? = some c) (hu : u.contenders = w.contenders)
    (hact : a.contender? = some j) (hmove : i = j → w.Move i c a d) :
    ∃ x, (u.put j d).contenders[i]? = some x ∧ w.Move i c a x := by
  rw [← hu] at hc
  by_cases h : i = j
  · subst h
    exact ⟨d, put_self hc d, hmove rfl⟩
  · refine ⟨c, (put_other h d).trans hc, .rest ?_⟩
    simp [hact, Ne.symm h]

theorem Next.move (hw : w.Sound) (h : w.Next a u) (hc : w.contenders[i]? = some c) :
    ∃ d, u.contenders[i]? = some d ∧ w.Move i c a d := by
  have hsame {j : ContenderId} {x : Contender} (hj : w.contenders[j]? = some x) (hij : i = j) :
      x = c := Option.some.inj (hj.symm.trans (hij ▸ hc))
  cases h with
  | start grant =>
      obtain ⟨idle, opened, alive, rfl, -, -, -⟩ := handOut?_eq hw grant
      obtain ⟨hi, -⟩ := List.getElem?_eq_some_iff.mp hc
      exact ⟨c, (List.getElem?_append_left hi).trans hc, .rest (by simp [Act.contender?])⟩
  | wake found settled idle cause notices =>
      apply put_move hc rfl rfl
      rintro rfl
      obtain rfl := hsame found rfl
      exact .wake settled idle cause notices
  | grant found settled call grant =>
      obtain ⟨idle, opened, alive, rfl, -, -, -⟩ := handOut?_eq hw grant
      apply put_move hc rfl rfl
      rintro rfl
      obtain rfl := hsame found rfl
      exact .grant call _
  | answer found settled calls done =>
      have hu := perform?_eq hw.locks done
      apply put_move hc (by obtain ⟨locks, depth, -, rfl⟩ := hu; rfl) rfl
      rintro rfl
      obtain rfl := hsame found rfl
      exact .answer calls done
  | unheard found settled calls done fault =>
      obtain ⟨locks, depth, -, rfl⟩ := perform?_eq hw.locks done
      apply put_move hc rfl rfl
      rintro rfl
      obtain rfl := hsame found rfl
      exact .fail _ fault
  | fail found settled calls fault =>
      apply put_move hc rfl rfl
      rintro rfl
      obtain rfl := hsame found rfl
      exact .fail _ fault
  | deliver found gone replied =>
      apply put_move hc rfl rfl
      rintro rfl
      obtain rfl := hsame found rfl
      exact .deliver replied
  | @part j x found p partings first keeps =>
      have hu : ((w.put j { x with partings }).dispose p keeps).contenders =
          (w.put j { x with partings }).contenders := by
        unfold dispose
        split <;> rfl
      rw [hu]
      apply put_move hc rfl rfl
      rintro rfl
      obtain rfl := hsame found rfl
      exact .part partings keeps
  | read found =>
      apply put_move hc rfl rfl
      rintro rfl
      obtain rfl := hsame found rfl
      exact .read
  | retire closed => exact ⟨c, hc, .rest (by simp [Act.contender?])⟩
  | disconnect t => exact ⟨c, hc, .rest (by simp [Act.contender?])⟩
  | @usurp outsider fresh =>
      refine ⟨c, ?_, .rest (by simp [Act.contender?])⟩
      cases outsider <;> exact hc

theorem found_of_put (hd : (w.put j c).contenders[i]? = some d) :
    ∃ x, w.contenders[i]? = some x := by
  obtain ⟨hi, -⟩ := List.getElem?_eq_some_iff.mp hd
  rw [put, List.length_set] at hi
  exact ⟨_, List.getElem?_eq_getElem hi⟩

-- Each contender was there before, but for one that has just started.
theorem Next.found (hw : w.Sound) (h : w.Next a u) (hd : u.contenders[i]? = some d) :
    (∃ c, w.contenders[i]? = some c) ∨
      ∃ s, a = .start s ∧ w.contenders.length = i ∧ d = .new w.key s := by
  cases h with
  | @start v s grant =>
      obtain ⟨idle, opened, alive, rfl, -, -, -⟩ := handOut?_eq hw grant
      have hd : (w.contenders ++ [.new w.key s])[i]? = some d := hd
      rw [List.getElem?_append] at hd
      split at hd
      · exact Or.inl ⟨d, hd⟩
      · obtain ⟨hlast, rfl⟩ := List.getElem?_eq_some_iff.mp hd
        rw [List.length_singleton] at hlast
        exact Or.inr ⟨s, rfl, by omega, by simp⟩
  | grant found settled call grant =>
      obtain ⟨idle, opened, alive, rfl, -, -, -⟩ := handOut?_eq hw grant
      exact Or.inl (found_of_put hd)
  | answer found settled calls done | unheard found settled calls done =>
      obtain ⟨locks, depth, -, rfl⟩ := perform?_eq hw.locks done
      exact Or.inl (found_of_put hd)
  | wake | fail | deliver | read => exact Or.inl (found_of_put hd)
  | part found first keeps =>
      unfold dispose at hd
      split at hd <;> exact Or.inl (found_of_put hd)
  | retire closed => exact Or.inl ⟨d, hd⟩
  | disconnect t => exact Or.inl ⟨d, hd⟩
  | @usurp outsider fresh =>
      left
      cases outsider <;> exact ⟨d, hd⟩

-- What an act of a contender's own does.
inductive Does (w : Contest) (i : ContenderId) (c : Contender) : Act → Contest → Prop where
  | wake (settled : c.IsSettled) (idle : c.elector.phase = .idle) (cause : Wake) (notices : Bool) :
      Does w i c (.wake i cause notices)
        (w.put i (.after (c.elector.wake (w.isSeenClosed notices) cause)))
  | grant {v : Contest} {s : SessionId} (settled : c.IsSettled)
      (call : c.elector.call? = some .acquire) (grant : w.handOut? s = some v) :
      Does w i c (.serve i (.granted s)) (v.put i { c with reply := some (.session s) })
  | answer {v : Contest} {call : Call} {yes : Bool} (settled : c.IsSettled)
      (calls : c.elector.call? = some call) (done : w.perform? call = some (yes, v)) :
      Does w i c (.serve i (.answered yes)) (v.put i { c with reply := some (.answer yes) })
  | unheard {v : Contest} {call : Call} {yes : Bool} (settled : c.IsSettled)
      (calls : c.elector.call? = some call) (done : w.perform? call = some (yes, v))
      (fault : Fault) :
      Does w i c (.serve i (.unheard fault)) (v.put i { c with reply := some (.failed fault) })
  | fail {call : Call} (settled : c.IsSettled) (calls : c.elector.call? = some call)
      (fault : Fault) :
      Does w i c (.serve i (.failed fault)) (w.put i { c with reply := some (.failed fault) })
  | deliver {reply : Reply} (gone : c.partings = []) (replied : c.reply = some reply) :
      Does w i c (.deliver i) (w.put i (.after (c.elector.resume reply)))
  | part {p : Parting} {partings : List Parting} (first : c.partings = p :: partings)
      (keeps : Bool) :
      Does w i c (.part i keeps) ((w.put i { c with partings }).dispose p keeps)
  | read : Does w i c (.read i) (w.put i { c with elector := c.elector.takeErrors.2 })

theorem Next.does (h : w.Next a u) (hc : w.contenders[i]? = some c) (hi : a.contender? = some i) :
    w.Does i c a u := by
  have hsame {j : ContenderId} {x : Contender} (hx : w.contenders[j]? = some x)
      (hj : some j = some i) : x = c ∧ j = i := by
    obtain rfl := Option.some.inj hj
    exact ⟨Option.some.inj (hx.symm.trans hc), rfl⟩
  cases h with
  | start | retire | disconnect | usurp => cases hi
  | wake found settled idle cause notices =>
      obtain ⟨rfl, rfl⟩ := hsame found hi
      exact .wake settled idle cause notices
  | grant found settled call grant =>
      obtain ⟨rfl, rfl⟩ := hsame found hi
      exact .grant settled call grant
  | answer found settled calls done =>
      obtain ⟨rfl, rfl⟩ := hsame found hi
      exact .answer settled calls done
  | unheard found settled calls done fault =>
      obtain ⟨rfl, rfl⟩ := hsame found hi
      exact .unheard settled calls done fault
  | fail found settled calls fault =>
      obtain ⟨rfl, rfl⟩ := hsame found hi
      exact .fail settled calls fault
  | deliver found gone replied =>
      obtain ⟨rfl, rfl⟩ := hsame found hi
      exact .deliver gone replied
  | part found first keeps =>
      obtain ⟨rfl, rfl⟩ := hsame found hi
      exact .part first keeps
  | read found =>
      obtain ⟨rfl, rfl⟩ := hsame found hi
      exact .read

-- All other acts leave a contender as it is.
theorem Next.same (hw : w.Sound) (h : w.Next a u) (hc : w.contenders[i]? = some c)
    (hi : a.contender? ≠ some i) : u.contenders[i]? = some c := by
  obtain ⟨d, hd, hmove⟩ := h.move hw hc
  cases hmove with
  | rest other => exact hd
  | wake | grant | answer | fail | deliver | part | read => exact absurd rfl hi

theorem alive_dispose (w : Contest) (p : Parting) (keeps : Bool) :
    (w.dispose p keeps).alive = w.alive := by
  unfold dispose
  split <;> rfl

theorem holder?_dispose (w : Contest) (p : Parting) (keeps : Bool) :
    (w.dispose p keeps).holder? = w.holder? := by
  unfold dispose
  split <;> rfl

theorem put_dispose (hc : w.contenders[i]? = some c) (d : Contender) (p : Parting)
    (keeps : Bool) : ((w.put i d).dispose p keeps).contenders[i]? = some d := by
  unfold dispose
  split <;> exact put_self hc d

end PolyCache.Leader.Contest
