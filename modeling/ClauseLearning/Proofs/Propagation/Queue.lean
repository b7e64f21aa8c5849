/-
  Propagating the queue.

  Model. The list of a literal is visited to its end or to the first conflict, and the queue is
  emptied one literal after the other. Every literal of the trail has a watch list of its own, so
  a number of rounds beyond that of the lists suffices.

  Rule. `propagate_yields`: from a watchful state propagation ends, never with a fault. It only
  goes on (`Continues`), and either all of the trail was propagated or a clause is in conflict on
  the current level; the state is watchful again, in the second case up to a place of the current
  level.
-/
import ClauseLearning.Proofs.Propagation.Visit

namespace ClauseLearning.Propagation

variable {p p' : Propagation} {t : Lit} {n : Nat} {list todo : List Watcher}

/-- The queue may begin anywhere on the current level. -/
theorem Grounded.advance (h : p.Grounded) (hn : n ≤ p.trail.length)
    (current : ∀ m ∈ p.trail.limits, m ≤ n) : Grounded { p with next := n } :=
  ⟨h.trail, h.room, h.nodup, h.known, h.forced, hn, current⟩

theorem Watchful.advance {bare : Option ClauseRef} {m : Nat} (h : p.Watchful bare m)
    (hn : n ≤ p.trail.length) (current : ∀ m ∈ p.trail.limits, m ≤ n) :
    Watchful { p with next := n } bare m :=
  ⟨h.toGrounded.advance hn current, h.indexes, h.guarded, h.rooted⟩

/-! ## One literal -/

/-- The visits come to the end of the list or to a conflict. -/
theorem visitAll_yields (todo : List Watcher) (kept : Array Watcher)
    (h : p.Visiting t n (kept.toList ++ todo) todo) :
    Yields (visitAll t todo kept p) fun (conflict, list, p') =>
      p.Continues p' ∧ p'.next = p.next ∧ ∃ left, p'.Visiting t n list.toList left ∧
        match conflict with
        | none => left = []
        | some r => p'.Conflicts r := by
  induction todo generalizing kept p with
  | nil =>
    rw [List.append_nil] at h
    exact .ok ⟨.refl p, rfl, [], h, rfl⟩
  | cons w todo ih =>
    have more : ∀ {w' : Watcher} {p' : Propagation},
        p'.Visiting t n (kept.toList ++ w' :: todo) todo →
        p'.Visiting t n ((kept.push w').toList ++ todo) todo := by
      intro w' p' h'
      rwa [Array.toList_push, List.append_assoc]
    refine (visit_yields h).bind ?_
    rintro ⟨v, p₁⟩ visited
    cases v with
    | stays w' =>
      obtain ⟨on, next, visiting⟩ := visited
      refine (ih _ (more visiting)).mono fun ⟨conflict, list, p₂⟩ ⟨on', next', rest⟩ => ?_
      exact ⟨on.trans on', next'.trans next, rest⟩
    | moved =>
      obtain ⟨on, next, visiting⟩ := visited
      refine (ih _ visiting).mono fun ⟨conflict, list, p₂⟩ ⟨on', next', rest⟩ => ?_
      exact ⟨on.trans on', next'.trans next, rest⟩
    | conflict w' =>
      obtain ⟨on, next, visiting, conflict⟩ := visited
      refine .pure ⟨on, next, w :: todo, ?_, conflict⟩
      have list : (kept.push w' ++ todo.toArray).toList = kept.toList ++ w' :: todo := by simp
      rwa [list]

/-- With its list taken out of the table, the visits of a literal begin. -/
theorem Watchful.visiting (h : p.Watchful none n) (place : p.trail.literals[n]? = some t)
    (current : ∀ m ∈ p.trail.limits, m ≤ n) {ws : Table (Array Watcher)}
    (size : ws.size = p.watches.size)
    (lists : ∀ k, watchers { p with watches := ws } k = if k = t then [] else p.watchers k) :
    Visiting { p with watches := ws } t n (p.watchers t) (p.watchers t) where
  toGrounded := h.rearranged (.refl _) rfl size rfl
  place := place
  current := current
  indexes := by
    have same : listing { p with watches := ws } t (p.watchers t) = p.watchers := by
      funext l
      rw [listing, lists]
      split
      · rename_i e
        rw [e]
      · rfl
    rw [same]
    exact h.indexes
  guarded r l hw he hl := by
    rw [List.take_add_one, place, List.mem_append] at hl
    rcases hl with hl | hl
    · exact h.guarded r l hw id hl
    · -- a clause watched through `-t` is one of those to be visited
      have e : l = -t := by
        rw [← Lit.neg_neg l]
        exact congrArg Neg.neg (by simpa using hl)
      refine absurd ⟨e, (h.indexes.mem_iff t r).2 (e ▸ hw)⟩ he
  rooted := h.rooted

/-- With its list put back, the visits of a literal have come to an end. -/
theorem Visiting.watchful (h : p.Visiting t n list todo) {ws : Table (Array Watcher)}
    (size : ws.size = p.watches.size)
    (lists : ∀ k, watchers { p with watches := ws } k = if k = t then list else p.watchers k) :
    Watchful { p with watches := ws } none n ∧
      (todo = [] → Watchful { p with watches := ws } none (n + 1)) := by
  have grounded : Grounded { p with watches := ws } := h.rearranged (.refl _) rfl size rfl
  have same : watchers { p with watches := ws } = p.listing t list := funext lists
  have indexes : p.clauses.Indexes none (watchers { p with watches := ws }) := same ▸ h.indexes
  refine ⟨⟨grounded, indexes, fun r l hw _ hl => ?_, h.rooted⟩, ?_⟩
  · -- in front of the place `n` there is no second `t`
    refine h.guarded r l hw (fun e => ?_) ((List.take_prefix_take_left (Nat.le_succ n)).subset hl)
    rw [e.1, Lit.neg_neg] at hl
    obtain ⟨i, hi, e'⟩ := List.mem_take_iff_getElem.1 hl
    have twice := (List.nodup_iff_getElem?_ne_getElem?.1 h.trail.nodup) i n (by omega)
    have inside : n < p.trail.literals.length := (List.getElem?_eq_some_iff.1 h.place).1
    exact twice inside (by rw [h.place, List.getElem?_eq_getElem (by omega), e'])
  · rintro rfl
    exact ⟨grounded, indexes, fun r l hw _ hl => h.guarded r l hw (by simp) hl, h.rooted⟩

theorem propagateLit_yields (h : p.Watchful none n) (place : p.trail.literals[n]? = some t)
    (current : ∀ m ∈ p.trail.limits, m ≤ n) :
    Yields (p.propagateLit t) fun (conflict, p') => p.Continues p' ∧ p'.next = p.next ∧
      match conflict with
      | none => p'.Watchful none (n + 1)
      | some r => p'.Watchful none n ∧ p'.Conflicts r := by
  have mem := List.mem_of_getElem? place
  have room : t.code < p.watches.size := h.watched (h.trail.knows_of_mem mem) rfl
  refine (takeWatchers_yields room).bind ?_
  rintro ⟨list, _⟩ ⟨taken, ws, rfl, size, lists⟩
  refine Yields.bind (visitAll_yields (n := n) list.toList #[] ?_) ?_
  · rw [taken]
    exact h.visiting place current size lists
  · rintro ⟨conflict, list', p₁⟩ ⟨on, next, left, visiting, outcome⟩
    have room₁ : t.code < p₁.watches.size := by
      rw [on.size]
      exact size ▸ room
    refine (putWatchers_yields room₁ list').bind ?_
    rintro _ ⟨ws', rfl, size', lists'⟩
    obtain ⟨watchful, done⟩ := visiting.watchful size' lists'
    refine .pure ⟨⟨on.clauses, on.trail, size'.trans (on.size.trans size)⟩, next, ?_⟩
    cases conflict with
    | none => exact done outcome
    | some r => exact ⟨watchful, outcome⟩

/-! ## The queue -/

/-- What propagation leaves behind: all of the trail was propagated, or a clause is in conflict
    on the current level. -/
def Propagated (p : Propagation) : Option ClauseRef × Propagation → Prop
  | (conflict, p') => p.Continues p' ∧ p'.next = p'.trail.length ∧
      match conflict with
      | none => p'.Watchful none p'.next
      | some r => p'.Conflicts r ∧
          ∃ n, (∀ m ∈ p'.trail.limits, m ≤ n) ∧ p'.Watchful none n

theorem propagateMany_yields {rounds : Nat} (h : p.Watchful none p.next)
    (enough : p.watches.size < rounds + p.next) :
    Yields (propagateMany rounds p) p.Propagated := by
  induction rounds generalizing p with
  | zero =>
    have := h.length_le
    have := h.next_le
    omega
  | succ rounds ih =>
    unfold propagateMany
    rw [Trail.entry?_eq]
    cases place : p.trail.literals[p.next]? with
    | none =>
      rw [List.getElem?_eq_none_iff, Trail.length_literals] at place
      exact .ok ⟨.refl p, Nat.le_antisymm h.next_le place, h⟩
    | some t =>
      have inside := (List.getElem?_eq_some_iff.1 place).1
      rw [Trail.length_literals] at inside
      have current := h.limit_le
      have start := h.advance (n := p.next + 1) inside fun m hm =>
        Nat.le_succ_of_le (current m hm)
      dsimp only
      refine (propagateLit_yields start place current).bind ?_
      rintro ⟨conflict, p₁⟩ ⟨on, next, outcome⟩
      have on' : p.Continues p₁ := ⟨on.clauses, on.trail, on.size⟩
      cases conflict with
      | none =>
        refine (ih (next ▸ outcome) ?_).mono fun ⟨conflict, p₂⟩ ⟨on₂, rest⟩ =>
          ⟨on'.trans on₂, rest⟩
        rw [on'.size, show p₁.next = p.next + 1 from next]
        omega
      | some r =>
        obtain ⟨watchful, conflict⟩ := outcome
        have end' : ∀ m ∈ p₁.trail.limits, m ≤ p₁.trail.length := watchful.trail.limit_le
        refine .pure ⟨⟨on'.clauses, on'.trail, on'.size⟩, rfl, conflict, p.next, ?_,
          watchful.advance (Nat.le_refl _) end'⟩
        intro m hm
        exact current m (on'.trail.limits ▸ hm)

/-- Propagation ends, without a fault. -/
theorem propagate_yields (h : p.Watchful none p.next) : Yields p.propagate p.Propagated :=
  propagateMany_yields h (by omega)

end ClauseLearning.Propagation
