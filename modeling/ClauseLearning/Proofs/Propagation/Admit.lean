/-
  Adding variables and clauses.

  Model. Registering a variable widens a state and changes nothing else (`Widens`). A clause that
  is kept is bare until it is watched; it comes under the watch invariant once its false watched
  literals are covered (`Watchful.settle`).

  Rule. `addKept_yields`: at the root a clause is taken into account without a fault. The state is
  watchful again, or the clause is given because all its literals are false.
-/
import ClauseLearning.Proofs.Propagation.Visit

namespace ClauseLearning.Propagation

variable {p p' : Propagation} {bare : Option ClauseRef} {r : ClauseRef} {n : Nat} {c : Clause}

/-! ## Variables -/

/-- The second state has further variables and room for them; the rest is as in the first one. -/
structure Widens (p p' : Propagation) : Prop where
  /-- The clauses. -/
  clauses : p'.clauses = p.clauses
  /-- The literals of the trail. -/
  literals : p'.trail.literals = p.trail.literals
  /-- The places where the levels begin. -/
  limits : p'.trail.limits = p.trail.limits
  /-- The causes of the values. -/
  causes : p'.trail.causeAt = p.trail.causeAt
  /-- The variables, of which none goes. -/
  knows : ∀ v, p.trail.Knows v → p'.trail.Knows v
  /-- The watch lists. -/
  watchers : p'.watchers = p.watchers
  /-- The queue. -/
  next : p'.next = p.next

namespace Widens

theorem refl (p : Propagation) : p.Widens p := ⟨rfl, rfl, rfl, rfl, fun _ => id, rfl, rfl⟩

theorem trans {p'' : Propagation} (w : p.Widens p') (w' : p'.Widens p'') : p.Widens p'' :=
  ⟨w'.clauses.trans w.clauses, w'.literals.trans w.literals, w'.limits.trans w.limits,
    w'.causes.trans w.causes, fun v hv => w'.knows v (w.knows v hv),
    w'.watchers.trans w.watchers, w'.next.trans w.next⟩

theorem length (w : p.Widens p') : p'.trail.length = p.trail.length := by
  rw [← Trail.length_literals, w.literals, Trail.length_literals]

theorem level (w : p.Widens p') : p'.trail.level = p.trail.level := by
  rw [← Trail.length_limits, w.limits, Trail.length_limits]

theorem levelOf (w : p.Widens p') (v : Var) : p'.trail.levelOf v = p.trail.levelOf v := by
  rw [Trail.levelOf_eq, w.causes, Trail.levelOf_eq]

theorem grounded (w : p.Widens p') (h : p.Grounded) (decided : p'.trail.Decided)
    (room : ∀ v, p'.trail.Knows v → Lit.code ⟨v, true⟩ < p'.watches.size) : p'.Grounded where
  trail := decided
  room := room
  nodup := w.clauses ▸ h.nodup
  known r c hc l hl := w.knows _ (h.known r c (w.clauses ▸ hc) l hl)
  forced i l r hl hr := by
    rw [w.literals] at hl
    rw [Trail.reasonOf, w.causes] at hr
    refine (h.forced i l r hl hr).mono (w.clauses ▸ .refl _) fun k hk => ?_
    rwa [w.literals]
  next_le := by
    rw [w.next, w.length]
    exact h.next_le
  limit_le := by
    rw [w.limits, w.next]
    exact h.limit_le

theorem watchful (w : p.Widens p') (h : p.Watchful bare n) (grounded : p'.Grounded) :
    p'.Watchful bare n where
  toGrounded := grounded
  indexes := by
    rw [w.clauses, w.watchers]
    exact h.indexes
  guarded r l hw he hl := by
    rw [w.literals] at hl
    obtain ⟨c, hc, u, hu, true, le⟩ := h.guarded r l (w.clauses ▸ hw) he hl
    refine ⟨c, w.clauses ▸ hc, u, hu, w.literals ▸ true, ?_⟩
    rwa [w.levelOf, w.levelOf]
  rooted r c hc hr short := by
    obtain ⟨l, e, true, root⟩ := h.rooted r c (w.clauses ▸ hc) hr short
    exact ⟨l, e, w.literals ▸ true, (w.levelOf _).trans root⟩

theorem falsifies (w : p.Widens p') (h : p.Falsifies r) : p'.Falsifies r := by
  obtain ⟨c, hc, false⟩ := h
  exact ⟨c, w.clauses ▸ hc, fun l hl => w.literals ▸ false l hl⟩

end Widens

theorem widens_growWatches (p : Propagation) (v : Var) : p.Widens (p.growWatches v) where
  clauses := rfl
  literals := rfl
  limits := rfl
  causes := rfl
  knows _ h := h
  watchers := funext fun l => watchers_growWatches p v l
  next := rfl

/-- Room for the watchers of some literals widens a state. -/
theorem exists_watches_of_grow (p : Propagation) (ls : List Lit) :
    ∃ ws, ls.foldl (fun p l => p.growWatches l.var) p = { p with watches := ws } ∧
      p.Widens { p with watches := ws } ∧ p.watches.size ≤ ws.size ∧
      ∀ l ∈ ls, Lit.code ⟨l.var, true⟩ < ws.size := by
  induction ls generalizing p with
  | nil => exact ⟨p.watches, rfl, .refl p, Nat.le_refl _, nofun⟩
  | cons l ls ih =>
    obtain ⟨ws, e, widens, size, rooms⟩ := ih (p.growWatches l.var)
    have room := p.watches.lt_size_grow (Lit.code ⟨l.var, true⟩) #[]
    have more := p.watches.size_le_grow (Lit.code ⟨l.var, true⟩) #[]
    refine ⟨ws, e, (widens_growWatches p l.var).trans widens, Nat.le_trans more size, ?_⟩
    intro k hk
    rcases List.mem_cons.1 hk with rfl | hk
    · exact Nat.lt_of_lt_of_le room size
    · exact rooms k hk

/-- A variable becomes part of the problem. -/
theorem register_yields (h : p.Grounded) (v : Var) :
    Yields (p.register v) fun p' =>
      p'.Grounded ∧ p.Widens p' ∧ ∀ w, p'.trail.Knows w ↔ w = v ∨ p.trail.Knows w := by
  have widened := fun p' (w : p.Widens p') => w.grounded h
  obtain ⟨trail, clauses, watches, next⟩ := p
  refine (h.trail.register v).bind fun trail' ⟨decided, literals, limits, knows, causes⟩ => ?_
  have grow := widens_growWatches ⟨trail', clauses, watches, next⟩ v
  have widens : Widens ⟨trail, clauses, watches, next⟩
      (growWatches ⟨trail', clauses, watches, next⟩ v) :=
    ⟨rfl, literals, limits, causes, fun w hw => (knows w).2 (.inr hw), grow.watchers, rfl⟩
  refine .pure ⟨widened _ widens decided fun w hw => ?_, widens, knows⟩
  rcases (knows w).1 hw with rfl | hw
  · exact watches.lt_size_grow ..
  · exact Nat.lt_of_lt_of_le (h.room w hw) (watches.size_le_grow ..)

/-! ## Clauses -/

namespace Watchful

/-- A clause that is kept is bare. -/
theorem keep (h : p.Watchful none n) (nodup : c.literals.Nodup)
    (known : ∀ l ∈ c.literals, p.trail.Knows l.var) :
    (p.keep c).2.Watchful (some p.clauses.size) n where
  toGrounded := h.toGrounded.keep nodup known
  indexes := h.indexes.add c
  guarded r l hw he hl := by
    obtain ⟨d, hd, rest⟩ := h.guarded r l ((ClauseStore.watches_add c).1 hw) he hl
    exact ⟨d, ClauseStore.get?_add_of_get? hd c, rest⟩
  rooted r d hd hr short := by
    rcases ClauseStore.get?_of_add hd with ⟨rfl, -⟩ | old
    · exact absurd rfl hr
    · exact h.rooted r d old (by simp) short

/-- Room for more watch lists changes nothing. -/
theorem grow (ls : List Lit) (h : p.Watchful bare n) :
    ∃ ws, ls.foldl (fun p l => p.growWatches l.var) p = { p with watches := ws } ∧
      Watchful { p with watches := ws } bare n := by
  obtain ⟨ws, e, widens, size, -⟩ := p.exists_watches_of_grow ls
  have grounded : Grounded { p with watches := ws } := widens.grounded h.toGrounded h.trail
    fun v hv => Nat.lt_of_lt_of_le (h.toGrounded.room v hv) size
  exact ⟨ws, e, widens.watchful h grounded⟩

/-- The order of the bare clause does not matter. -/
theorem arranged (h : p.Watchful (some r) n) (hn : n ≤ p.trail.length) {s : ClauseStore}
    (rearranges : s.Rearranges p.clauses)
    (others : ∀ q, q ≠ r → s.get? q = p.clauses.get? q) :
    Watchful { p with clauses := s } (some r) n := by
  have on : p.Continues { p with clauses := s } := ⟨rearranges, .refl _, rfl⟩
  have watches : ∀ q l, s.Watches (some r) q l ↔ p.clauses.Watches (some r) q l := by
    intro q l
    by_cases hq : q = r
    · subst hq
      exact iff_of_false (fun h => h.1 rfl) fun h => h.1 rfl
    · exact ClauseStore.watches_congr (others q hq)
  exact ⟨h.rearranged rearranges rfl rfl rfl,
    h.indexes.congr rearranges watches (fun _ => rfl) fun _ _ hw => .inl hw,
    h.guarded.continues hn on fun q l hw he _ => .inl ⟨(watches q l).1 hw, he⟩,
    h.rooted.continues on⟩

/-- The bare clause comes under the invariant: it is watched and covered, or it is true at the
    root. -/
theorem settle (h : p.Watchful (some r) n) (hn : n ≤ p.trail.length)
    (clauses : p'.clauses = p.clauses) (ext : p.trail.Extends p'.trail) (grounded : p'.Grounded)
    (indexes : p.clauses.Indexes none p'.watchers) (hc : p.clauses.get? r = some c)
    (covered : ∀ l, p.clauses.Watches none r l → -l ∈ p'.trail.literals → p'.Covers r l)
    (short : c.length < 2 →
      ∃ l, c.literals = [l] ∧ l ∈ p'.trail.literals ∧ p'.trail.levelOf l.var = 0) :
    p'.Watchful none n where
  toGrounded := grounded
  indexes := clauses ▸ indexes
  guarded q l hw he hl := by
    rw [clauses] at hw
    by_cases hq : q = r
    · exact hq ▸ covered l (hq ▸ hw) (List.mem_of_mem_take hl)
    · rw [ext.take hn] at hl
      have old := h.guarded q l ⟨fun e => hq (Option.some.inj e).symm, hw.2⟩ he hl
      exact old.mono (List.mem_of_mem_take hl) (clauses ▸ .refl _) ext.keeps
  rooted q d hd _ hshort := by
    rw [clauses] at hd
    by_cases hq : q = r
    · subst hq
      cases hc.symm.trans hd
      exact short hshort
    · obtain ⟨l, e, true, root⟩ := h.rooted q d hd (fun e => hq (Option.some.inj e).symm) hshort
      exact ⟨l, e, ext.mem true, (ext.levelOf true).trans root⟩

end Watchful

/-- What becomes of a clause that is added at the root: it comes under the invariant, or all its
    literals are false. -/
def Admitted (p : Propagation) (c : Clause) : Option ClauseRef × Propagation → Prop
  | (conflict, p') => p'.Grounded ∧ p'.clauses.Rearranges (p.clauses.add c).2 ∧
      p.trail.Extends p'.trail ∧ p'.next = p.next ∧
      match conflict with
      | none => p'.Watchful none p'.next
      | some f => f = p.clauses.size ∧ p'.Falsifies f

theorem Grounded.level_at_root (h : p.Grounded) (root : p.trail.level = 0) {l : Lit}
    (hl : l ∈ p.trail.literals) : p.trail.levelOf l.var = 0 :=
  Nat.le_zero.1 (root ▸ h.trail.levelOf_le hl)

/-- At the root a true literal of a clause covers any other. -/
theorem Grounded.covers_at_root (h : p.Grounded) (root : p.trail.level = 0)
    (hc : p.clauses.get? r = some c) {a l : Lit} (mem : a ∈ c.literals)
    (true : a ∈ p.trail.literals) : p.Covers r l :=
  ⟨c, hc, a, mem, true, h.level_at_root root true ▸ Nat.zero_le _⟩

/-- The only literal of a clause is made true, unless it is false. -/
theorem admit_unit_yields {q : Propagation} {l : Lit}
    (h : p.Watchful (some q.clauses.size) p.next) (root : p.trail.level = 0)
    (clauses : p.clauses = (q.clauses.add c).2) (trail : p.trail = q.trail)
    (next : p.next = q.next) (e : c.literals = [l]) :
    Yields (do
      let (agrees, p) ← p.enqueue l (some q.clauses.size)
      return (if agrees then none else some q.clauses.size, p)) (q.Admitted c) := by
  have hc : p.clauses.get? q.clauses.size = some c := by
    rw [clauses, ClauseStore.get?_add_self]
  have short : c.length < 2 := by simp [Clause.length, e]
  refine (h.enqueue_cases hc (l := l) (by simp [e]) fun k hk hne => ?_).bind ?_
  · rw [e, List.mem_singleton] at hk
    exact absurd hk hne
  · rintro ⟨agrees, _⟩ ⟨trail', rfl, grounded, ext, value⟩
    refine .pure ⟨grounded, clauses ▸ .refl _, trail ▸ ext, next, ?_⟩
    cases agrees with
    | true =>
      refine h.settle h.next_le rfl ext grounded (h.indexes.short hc short) hc
        (fun k hk => absurd hk (ClauseStore.not_watches_of_short hc short)) fun _ => ?_
      exact ⟨l, e, value, grounded.level_at_root (ext.level.trans root) value⟩
    | false =>
      refine ⟨rfl, c, hc, fun k hk => ?_⟩
      rw [e, List.mem_singleton] at hk
      exact hk ▸ value

/-- At the root a clause comes under the invariant by being watched, if its first literal is true
    as soon as one of the first two is false. -/
theorem attach_settles {a b : Lit} {rest : List Lit} {t : Trail}
    (h : p.Watchful (some r) p.next) (root : p.trail.level = 0) (hc : p.clauses.get? r = some c)
    (e : c.literals = a :: b :: rest) (grounded : Grounded { p with trail := t })
    (ext : p.trail.Extends t) (covered : -a ∈ t.literals ∨ -b ∈ t.literals → a ∈ t.literals) :
    Yields (attach { p with trail := t } r) fun p' =>
      ∃ ws, p' = { p with trail := t, watches := ws } ∧ p'.Grounded ∧ p'.Watchful none p.next := by
  have distinct := h.nodup r c hc
  rw [e, List.nodup_cons, List.mem_cons, not_or] at distinct
  have room : ∀ l ∈ c.literals, (-l).code < p.watches.size := fun l hl =>
    h.watched (h.known r c hc l hl) rfl
  refine (attach_yields (p := { p with trail := t }) h.indexes hc e distinct.1.1
    (room a (by simp [e])) (room b (by simp [e]))).mono ?_
  rintro _ ⟨ws, rfl, size, indexes⟩
  have watched : Grounded { p with trail := t, watches := ws } :=
    grounded.rearranged (.refl _) rfl size rfl
  refine ⟨ws, rfl, watched, h.settle h.next_le rfl ext watched indexes hc (fun l hw hl => ?_)
    fun short => ?_⟩
  · have false : -a ∈ t.literals ∨ -b ∈ t.literals := by
      rcases ((ClauseStore.watches_iff hc e).1 hw).2 with rfl | rfl
      · exact .inl hl
      · exact .inr hl
    exact watched.covers_at_root (ext.level.trans root) hc (by simp [e]) (covered false)
  · rw [Clause.length, e, List.length_cons, List.length_cons] at short
    omega

/-- A clause whose literals are in order is watched, and its first literal is forced if it is
    the only one left. -/
theorem admit_long_yields {q : Propagation} {a b : Lit} {rest : List Lit} {d : Clause}
    (h : p.Watchful (some q.clauses.size) p.next) (root : p.trail.level = 0)
    (hd : p.clauses.get? q.clauses.size = some d) (e : d.literals = a :: b :: rest)
    (order : ∀ front l back, a :: b :: rest = front ++ l :: back →
      p.trail.isFalse l = true → ∀ k ∈ back, p.trail.isFalse k = true)
    (clauses : p.clauses.Rearranges (q.clauses.add c).2) (trail : p.trail = q.trail)
    (next : p.next = q.next) :
    Yields (do
      if p.trail.isFalse a then return (some q.clauses.size, p)
      else if p.trail.isFalse b && p.trail.isOpen a then
        let (_, p) ← p.enqueue a (some q.clauses.size)
        return (none, ← p.attach q.clauses.size)
      else return (none, ← p.attach q.clauses.size)) (q.Admitted c) := by
  split
  · rename_i falseA
    refine .pure ⟨h.toGrounded, clauses, trail ▸ .refl _, next, rfl, d, hd, fun l hl => ?_⟩
    rw [e, List.mem_cons] at hl
    rw [← h.trail.isFalse_iff]
    rcases hl with rfl | hl
    · exact falseA
    · exact order [] a (b :: rest) rfl falseA l hl
  · rename_i openA
    rw [h.trail.isFalse_iff] at openA
    split
    · rename_i forced
      rw [Bool.and_eq_true, h.trail.isOpen_iff] at forced
      have others : ∀ k ∈ d.literals, k ≠ a → -k ∈ p.trail.literals := by
        intro k hk hne
        rw [e, List.mem_cons, List.mem_cons] at hk
        rw [← h.trail.isFalse_iff]
        rcases hk with rfl | rfl | hk
        · exact absurd rfl hne
        · exact forced.1
        · exact order [a] b rest rfl forced.1 k hk
      refine (h.toGrounded.enqueue hd (by simp [e]) forced.2.1 others forced.2.2).bind ?_
      rintro _ ⟨t, rfl, grounded, ext, literals, -⟩
      have true : a ∈ t.literals := literals ▸ by simp
      refine (attach_settles h root hd e grounded ext fun _ => true).bind ?_
      rintro _ ⟨ws, rfl, watched, watchful⟩
      exact .pure ⟨watched, clauses, trail ▸ ext, next, watchful⟩
    · rename_i free
      -- the first literal is not false, and if the second one is, the first one is not open
      have true : -a ∈ p.trail.literals ∨ -b ∈ p.trail.literals → a ∈ p.trail.literals := by
        intro false
        refine Classical.not_not.1 fun hn => free ?_
        rw [h.trail.isFalse_iff.2 (false.resolve_left openA), h.trail.isOpen_iff.2 ⟨hn, openA⟩]
        rfl
      refine (attach_settles h root hd e h.toGrounded (.refl _) true).bind ?_
      rintro _ ⟨ws, rfl, watched, watchful⟩
      exact .pure ⟨watched, clauses, trail ▸ .refl _, next, watchful⟩

/-- A clause that was kept at the root is taken into account. -/
theorem addKept_yields (h : p.Watchful none p.next) (root : p.trail.level = 0)
    (nodup : c.literals.Nodup) (known : ∀ l ∈ c.literals, p.trail.Knows l.var) :
    Yields ((p.keep c).2.addKept p.clauses.size) (p.Admitted c) := by
  have hc : (p.keep c).2.clauses.get? p.clauses.size = some c := ClauseStore.get?_add_self ..
  obtain ⟨ws, grow, watchful⟩ := (h.keep nodup known).grow c.literals
  unfold addKept
  rw [ClauseStore.read_eq hc]
  refine .ok_bind ?_
  dsimp only
  rw [grow]
  match e : c.literals with
  | [] => exact .pure ⟨watchful.toGrounded, .refl _, .refl _, rfl, rfl, c, hc, by simp [e]⟩
  | [l] => exact admit_unit_yields watchful root rfl rfl rfl e
  | x :: y :: more =>
    have perm := e ▸ Clause.nonFalseFirst_perm p.trail.isFalse c.literals
    refine (arrange_yields (p := { (p.keep c).2 with watches := ws }) hc (e ▸ perm)).bind ?_
    rintro _ ⟨s, rfl, rearranges, hs, others⟩
    have arranged := watchful.arranged h.next_le rearranges others
    have size := perm.length_eq
    obtain ⟨a, b, rest, front⟩ : ∃ a b rest,
        Clause.nonFalseFirst (p.keep c).2.trail.isFalse (x :: y :: more) = a :: b :: rest := by
      match Clause.nonFalseFirst p.trail.isFalse (x :: y :: more), size with
      | a :: b :: rest, _ => exact ⟨a, b, rest, rfl⟩
    dsimp only
    rw [front]
    refine admit_long_yields arranged root hs front ?_ rearranges rfl rfl
    intro before l back split false k hk
    exact Clause.nonFalseFirst_sorted (front.trans split) false hk

/-- A clause that is in conflict when it is taken into account is not watched, and the lists index
    the others. -/
theorem indexes_of_addKept (h : p.Watchful none p.next) (nodup : c.literals.Nodup)
    (known : ∀ l ∈ c.literals, p.trail.Knows l.var) {f : ClauseRef}
    (e : (p.keep c).2.addKept p.clauses.size = .ok (some f, p')) :
    p'.clauses.Indexes (some p.clauses.size) p'.watchers := by
  have hc : (p.keep c).2.clauses.get? p.clauses.size = some c := ClauseStore.get?_add_self ..
  obtain ⟨ws, grow, watchful⟩ := (h.keep nodup known).grow c.literals
  unfold addKept at e
  obtain ⟨_, read, e⟩ := Yields.exists_of_bind e
  cases (ClauseStore.read_eq hc).symm.trans read
  dsimp only at e
  rw [grow] at e
  match shape : c.literals with
  | [] =>
    rw [shape] at e
    cases e
    exact watchful.indexes
  | [l] =>
    rw [shape] at e
    obtain ⟨⟨agrees, _⟩, enqueued, e⟩ := Yields.exists_of_bind e
    obtain ⟨_, -, enqueued⟩ := Yields.exists_of_bind enqueued
    cases enqueued
    obtain rfl := congrArg Prod.snd (Except.ok.inj e)
    exact watchful.indexes
  | x :: y :: more =>
    rw [shape] at e
    have perm := shape ▸ Clause.nonFalseFirst_perm p.trail.isFalse c.literals
    obtain ⟨_, arranged, e⟩ := Yields.exists_of_bind e
    obtain ⟨s, rfl, rearranges, -, others⟩ :=
      (arrange_yields (p := { (p.keep c).2 with watches := ws }) hc (shape ▸ perm)).of_ok arranged
    split at e
    · split at e
      · cases e
        exact (watchful.arranged h.next_le rearranges others).indexes
      · -- a clause that is watched is not in conflict
        split at e
        · obtain ⟨_, -, e⟩ := Yields.exists_of_bind e
          obtain ⟨_, -, e⟩ := Yields.exists_of_bind e
          cases e
        · obtain ⟨_, -, e⟩ := Yields.exists_of_bind e
          cases e
    · cases e

end ClauseLearning.Propagation
