/-
  Grounded states of propagation.

  Model. A state is grounded when every clause has its variables registered and its literals
  once, when there is a watch list for every literal over a registered variable, and when every
  literal on the trail that has a reason was forced by it: the reason holds the literal, and its
  other literals are false in front of it. The levels in front of the queue are complete.

  Rule. Propagation only takes a state further (`Continues`): the clauses stay, in some order of
  their literals, and the trail grows on its current level.
-/
import ClauseLearning.Proofs.Propagation.Watches
import ClauseLearning.Proofs.Trail.Decided

namespace ClauseLearning.Propagation

/-- The clause `r` forces the literal `l` after the first `i` literals of the trail: it holds
    `l`, and its other literals are false there. -/
def Forces (p : Propagation) (r : ClauseRef) (l : Lit) (i : Nat) : Prop :=
  ∃ c, p.clauses.get? r = some c ∧ l ∈ c.literals ∧
    ∀ k ∈ c.literals, k ≠ l → -k ∈ p.trail.literals.take i

variable {p p' p'' : Propagation} {r : ClauseRef} {l : Lit}

theorem Forces.mono {i : Nat} (h : p.Forces r l i) (clauses : p'.clauses.Includes p.clauses)
    (front : ∀ k ∈ p.trail.literals.take i, k ∈ p'.trail.literals.take i) :
    p'.Forces r l i := by
  obtain ⟨c, hc, hl, others⟩ := h
  obtain ⟨c', hc', e⟩ := clauses r c hc
  exact ⟨c', hc', e.mem_iff.2 hl, fun k hk hne => front _ (others k (e.mem_iff.1 hk) hne)⟩

/-- What satisfies the reason of a literal and makes the literals in front true makes it true. -/
theorem Forces.holds {m : Valuation} {i : Nat} (h : p.Forces r l i)
    (satisfies : ∀ c, p.clauses.get? r = some c → m.Satisfies c.literals)
    (front : ∀ c k j, p.clauses.get? r = some c → k ∈ c.literals → j < i →
      p.trail.literals[j]? = some (-k) → (-k).Holds m) : l.Holds m := by
  obtain ⟨c, hc, -, others⟩ := h
  refine (satisfies c hc).forced fun k hk ne => ?_
  obtain ⟨j, hj, e⟩ := List.mem_take_iff_getElem.1 (others k hk ne)
  rw [Nat.lt_min] at hj
  refine Lit.holds_neg.1 (front c k j hc hk hj.1 ?_)
  rw [List.getElem?_eq_getElem hj.2, e]

/-- What the reasons kept on the trail rest on. -/
structure Grounded (p : Propagation) : Prop where
  /-- The levels of the trail begin with decisions. -/
  trail : p.trail.Decided
  /-- There are watch lists for the literals over the registered variables. -/
  room : ∀ v, p.trail.Knows v → Lit.code ⟨v, true⟩ < p.watches.size
  /-- A clause has every literal once. -/
  nodup : ∀ r c, p.clauses.get? r = some c → c.literals.Nodup
  /-- The variables of the clauses are registered. -/
  known : ∀ r c, p.clauses.get? r = some c → ∀ l ∈ c.literals, p.trail.Knows l.var
  /-- Reasons force their literals. -/
  forced : ∀ i l r, p.trail.literals[i]? = some l → p.trail.reasonOf l.var = some r →
    p.Forces r l i
  /-- The queue begins on the trail. -/
  next_le : p.next ≤ p.trail.length
  /-- The queue begins on the current level. -/
  limit_le : ∀ n ∈ p.trail.limits, n ≤ p.next

theorem grounded_empty : empty.Grounded where
  trail := Trail.decided_empty
  room v h := absurd h (Trail.not_knows_empty v)
  nodup r c h := by simp [empty, ClauseStore.empty, ClauseStore.get?] at h
  known r c h := by simp [empty, ClauseStore.empty, ClauseStore.get?] at h
  forced i l r h := by simp [empty, Trail.empty, Trail.literals, LevelStack.empty,
    LevelStack.toList] at h
  next_le := Nat.zero_le _
  limit_le n h := by simp [empty, Trail.empty, Trail.limits, LevelStack.empty] at h

namespace Grounded

theorem watched (h : p.Grounded) {v : Var} (hv : p.trail.Knows v) (hl : l.var = v) :
    l.code < p.watches.size :=
  Nat.lt_of_le_of_lt (Lit.code_le l) (hl ▸ h.room v hv)

/-- The trail has at most as many literals as there are watch lists. -/
theorem length_le (h : p.Grounded) : p.trail.length ≤ p.watches.size := by
  have distinct : (p.trail.literals.map Lit.code).Nodup :=
    h.trail.nodup.map fun _ _ e => Lit.code_inj e
  have inside : p.trail.literals.map Lit.code ⊆ List.range p.watches.size := by
    intro n hn
    obtain ⟨l, hl, rfl⟩ := List.mem_map.1 hn
    exact List.mem_range.2 (h.watched (h.trail.knows_of_mem hl) rfl)
  simpa [Trail.length_literals] using (distinct.subperm inside).length_le

/-- At the root every literal has a reason. -/
theorem reason_at_root (h : p.Grounded) (root : p.trail.level = 0) (hl : l ∈ p.trail.literals) :
    ∃ r, p.trail.reasonOf l.var = some r := by
  obtain ⟨i, hi⟩ := List.getElem?_of_mem hl
  have none : p.trail.limits = [] := by
    rw [← List.length_eq_zero_iff, Trail.length_limits, root]
  have := h.trail.reason_iff i l hi
  rw [none] at this
  exact Option.ne_none_iff_exists'.1 fun e => by simp [e] at this

/-- What satisfies the clauses and makes the decisions up to a place of the trail true makes all
    literals up to the place true. -/
theorem holds_of_decisions (h : p.Grounded) {m : Valuation}
    (satisfies : ∀ r c, p.clauses.get? r = some c → m.Satisfies c.literals) {i : Nat}
    (decisions : ∀ j ∈ p.trail.limits, j ≤ i → ∀ d, p.trail.literals[j]? = some d → d.Holds m)
    (hi : p.trail.literals[i]? = some l) : l.Holds m := by
  -- along the trail: the other literals of a reason were false in front
  induction i using Nat.strongRecOn generalizing l with
  | _ i ih =>
    by_cases decided : i ∈ p.trail.limits
    · exact decisions i decided (Nat.le_refl i) l hi
    · obtain ⟨r, reason⟩ : ∃ r, p.trail.reasonOf l.var = some r :=
        Option.ne_none_iff_exists'.1 fun none => decided ((h.trail.reason_iff i l hi).1 none)
      refine (h.forced i l r hi reason).holds (satisfies r) fun c k j _ _ lt front => ?_
      exact ih j lt (fun n limit le => decisions n limit (by omega)) front

/-- The clauses are reordered and the watch lists change; the trail stays. -/
theorem rearranged (h : p.Grounded) (clauses : p'.clauses.Rearranges p.clauses)
    (trail : p'.trail = p.trail) (size : p'.watches.size = p.watches.size)
    (next : p'.next = p.next) : p'.Grounded where
  trail := trail ▸ h.trail
  room v hv := size ▸ h.room v (trail ▸ hv)
  nodup r c' hc' := by
    obtain ⟨c, hc, e⟩ := clauses.origin hc'
    exact e.literals.nodup_iff.2 (h.nodup r c hc)
  known r c' hc' l hl := by
    obtain ⟨c, hc, e⟩ := clauses.origin hc'
    exact trail ▸ h.known r c hc l (e.mem_iff.1 hl)
  forced i l r hl hr := by
    rw [trail] at hl hr
    exact (h.forced i l r hl hr).mono clauses.clauses fun k hk => trail ▸ hk
  next_le := by
    rw [next, trail]
    exact h.next_le
  limit_le := by
    rw [next, trail]
    exact h.limit_le

/-- A literal comes to the end of the trail, decided on or forced. -/
theorem append (h : p.Grounded) {trail : Trail} {level : Nat} {reason : Option ClauseRef}
    (decided : trail.Decided) (hl : l ∉ p.trail.literals) (hn : -l ∉ p.trail.literals)
    (literals : trail.literals = p.trail.literals ++ [l])
    (knows : ∀ v, trail.Knows v ↔ p.trail.Knows v)
    (cause : ∀ v, trail.causeAt v = if v = l.var then ⟨level, reason⟩ else p.trail.causeAt v)
    (limits : ∀ n ∈ trail.limits, n ≤ p.next)
    (forces : ∀ r, reason = some r → p.Forces r l p.trail.length) :
    Grounded { p with trail := trail } where
  trail := decided
  room v hv := h.room v ((knows v).1 hv)
  nodup := h.nodup
  known r c hc l hl := (knows _).2 (h.known r c hc l hl)
  forced i k r hk hr := by
    have front : ∀ i, ∀ m ∈ p.trail.literals.take i, m ∈ trail.literals.take i := by
      intro i m hm
      rw [literals, List.take_append]
      exact List.mem_append_left _ hm
    rcases Trail.Decided.reason_of_append hl hn literals cause hk with
      ⟨old, e⟩ | ⟨rfl, rfl, e⟩
    · exact (h.forced i k r old (e ▸ hr)).mono (.refl _) (front i)
    · exact (forces r (e ▸ hr)).mono (.refl _) (front _)
  next_le := by
    have := congrArg List.length literals
    rw [List.length_append, Trail.length_literals, Trail.length_literals] at this
    have := h.next_le
    change p.next ≤ trail.length
    omega
  limit_le := limits

/-- A clause is kept. -/
theorem keep (h : p.Grounded) {c : Clause} (nodup : c.literals.Nodup)
    (known : ∀ l ∈ c.literals, p.trail.Knows l.var) : (p.keep c).2.Grounded where
  trail := h.trail
  room := h.room
  nodup r d hd := by
    rcases ClauseStore.get?_of_add hd with ⟨-, rfl⟩ | old
    · exact nodup
    · exact h.nodup r d old
  known r d hd := by
    rcases ClauseStore.get?_of_add hd with ⟨-, rfl⟩ | old
    · exact known
    · exact h.known r d old
  forced i l r hl hr := (h.forced i l r hl hr).mono (ClauseStore.Includes.add _ c) fun _ hk => hk
  next_le := h.next_le
  limit_le := h.limit_le

/-- The trail goes back to a level, and the queue with it. -/
theorem backtracks (h : p.Grounded) {trail : Trail} {k : Nat} (valid : trail.Valid)
    (back : p.trail.Backtracks trail k) :
    Grounded { p with trail := trail, next := min p.next trail.length } where
  trail := h.trail.backtracks back valid
  room v hv := h.room v ((back.knows v).1 hv)
  nodup := h.nodup
  known r c hc l hl := (back.knows _).2 (h.known r c hc l hl)
  forced i l r hl hr := by
    obtain ⟨lt, old⟩ := back.getElem? hl
    rw [Trail.reasonOf, back.cause_of_mem h.trail.toCoherent (List.mem_of_getElem? hl)] at hr
    refine (h.forced i l r old hr).mono (.refl _) fun k hk => ?_
    rwa [back.literals, List.take_take, Nat.min_eq_left (Nat.le_of_lt lt)]
  next_le := Nat.min_le_right ..
  limit_le n hn := by
    have inside := valid.limit_le n hn
    rw [back.limits] at hn
    exact Nat.le_min.2 ⟨h.limit_le n (List.mem_of_mem_take hn), inside⟩

end Grounded

/-- All literals of the clause `r` are false. -/
def Falsifies (p : Propagation) (r : ClauseRef) : Prop :=
  ∃ c, p.clauses.get? r = some c ∧ ∀ l ∈ c.literals, -l ∈ p.trail.literals

/-- All literals of the clause `r` are false, and one of them is since the current level. -/
def Conflicts (p : Propagation) (r : ClauseRef) : Prop :=
  ∃ c, p.clauses.get? r = some c ∧ (∀ l ∈ c.literals, -l ∈ p.trail.literals) ∧
    ∃ l ∈ c.literals, p.trail.levelOf l.var = p.trail.level

theorem Conflicts.falsifies (h : p.Conflicts r) : p.Falsifies r := by
  obtain ⟨c, hc, false, -⟩ := h
  exact ⟨c, hc, false⟩

/-- At the root every literal is of the current level. -/
theorem Grounded.conflicts_at_root (h : p.Grounded) (root : p.trail.level = 0)
    (false : p.Falsifies r) {c : Clause} (hc : p.clauses.get? r = some c)
    (some : c.literals ≠ []) : p.Conflicts r := by
  obtain ⟨d, hd, hf⟩ := false
  cases hc.symm.trans hd
  obtain ⟨l, hl⟩ := List.exists_mem_of_ne_nil _ some
  have := h.trail.levelOf_le (hf l hl)
  rw [root, Nat.le_zero] at this
  exact ⟨c, hc, hf, l, hl, this.trans root.symm⟩

/-! ## Going on -/

/-- The second state has the clauses of the first one in some order of their literals, and the
    trail of the first one with further literals of the current level. -/
structure Continues (p p' : Propagation) : Prop where
  /-- The clauses are the same but for the order of their literals. -/
  clauses : p'.clauses.Rearranges p.clauses
  /-- The trail grows on the current level. -/
  trail : p.trail.Extends p'.trail
  /-- No watch list comes or goes. -/
  size : p'.watches.size = p.watches.size

namespace Continues

theorem refl (p : Propagation) : p.Continues p := ⟨.refl _, .refl _, rfl⟩

theorem trans (h : p.Continues p') (h' : p'.Continues p'') : p.Continues p'' :=
  ⟨h'.clauses.trans h.clauses, h.trail.trans h'.trail, h'.size.trans h.size⟩

end Continues

/-- A clause with no other literal left forces its literal. -/
theorem Grounded.enqueue (h : p.Grounded) {c : Clause} (hc : p.clauses.get? r = some c)
    (mem : l ∈ c.literals) (hl : l ∉ p.trail.literals)
    (others : ∀ k ∈ c.literals, k ≠ l → -k ∈ p.trail.literals) (hn : -l ∉ p.trail.literals) :
    Yields (p.enqueue l (some r)) fun x => ∃ trail, x = (true, { p with trail := trail }) ∧
      x.2.Grounded ∧ p.trail.Extends trail ∧ trail.literals = p.trail.literals ++ [l] ∧
      trail.causeAt l.var = ⟨p.trail.level, some r⟩ := by
  have known := h.known r c hc l mem
  have all : p.trail.literals.take p.trail.length = p.trail.literals :=
    List.take_of_length_le (Nat.le_of_eq (Trail.length_literals _))
  have grounded := fun trail => @Grounded.append p l h trail p.trail.level (some r)
  obtain ⟨trail, clauses, watches, next⟩ := p
  refine (h.trail.enqueue known hl hn r).bind ?_
  rintro ⟨agrees, trail'⟩ ⟨rfl, decided, ext, literals, cause⟩
  refine .pure ⟨trail', rfl, ?_, ext, literals, ?_⟩
  · refine grounded trail' decided hl hn literals ext.knows cause (fun n hn => ?_) ?_
    · exact h.limit_le n (ext.limits ▸ hn)
    · rintro _ ⟨⟩
      exact ⟨c, hc, mem, fun k hk hne => all.symm ▸ others k hk hne⟩
  · rw [cause, if_pos rfl]

/-- A literal that its clause forces is made true, or it has a value already. -/
theorem Grounded.enqueue_cases (h : p.Grounded) {c : Clause} (hc : p.clauses.get? r = some c)
    (mem : l ∈ c.literals) (others : ∀ k ∈ c.literals, k ≠ l → -k ∈ p.trail.literals) :
    Yields (p.enqueue l (some r)) fun x => ∃ trail, x.2 = { p with trail := trail } ∧
      x.2.Grounded ∧ p.trail.Extends trail ∧
      if x.1 then l ∈ trail.literals else -l ∈ trail.literals := by
  by_cases hl : l ∈ p.trail.literals
  · refine .of_eq (a := (true, p)) ?_ ⟨p.trail, rfl, h, .refl _, hl⟩
    simp only [Propagation.enqueue, Trail.enqueue_of_mem h.trail.toCoherent hl]
    rfl
  · by_cases hn : -l ∈ p.trail.literals
    · refine .of_eq (a := (false, p)) ?_ ⟨p.trail, rfl, h, .refl _, hn⟩
      simp only [Propagation.enqueue, Trail.enqueue_of_neg_mem h.trail.toCoherent hn]
      rfl
    · refine (h.enqueue hc mem hl others hn).mono ?_
      rintro _ ⟨trail, rfl, grounded, ext, literals, -⟩
      exact ⟨trail, rfl, grounded, ext, literals ▸ by simp⟩

end ClauseLearning.Propagation
