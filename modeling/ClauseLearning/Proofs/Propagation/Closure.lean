/-
  Propagation is closing under the unit rule.

  Model. The literals of the trail imply further ones by the unit rule: where the negations of all
  literals of a clause but one are implied, that one is (`Implied`). Nothing is said of watch
  lists, of the order of the trail or of levels. The state is refuted when the negations of all
  literals of a clause are implied (`Refuted`).

  Rule. `Watchful.closes`: from a watchful state propagation makes exactly the implied literals
  true, or the state is refuted and a false clause is given. What it appends was forced by a
  clause, along the trail.
-/
import ClauseLearning.Proofs.Propagation.Queue

namespace ClauseLearning.Propagation

/-- The literals that follow from those of the trail by the unit rule. -/
inductive Implied (p : Propagation) : Lit → Prop
  /-- A literal of the trail. -/
  | trail {l : Lit} (mem : l ∈ p.trail.literals) : Implied p l
  /-- The only literal of a clause whose negation is not implied. -/
  | unit {r : ClauseRef} {c : Clause} {l : Lit} (stored : p.clauses.get? r = some c)
    (mem : l ∈ c.literals) (others : ∀ k ∈ c.literals, k ≠ l → Implied p (-k)) : Implied p l

/-- The implied literals falsify a clause. -/
def Refuted (p : Propagation) : Prop :=
  ∃ r c, p.clauses.get? r = some c ∧ ∀ l ∈ c.literals, p.Implied (-l)

variable {p p' : Propagation} {conflict : Option ClauseRef} {r : ClauseRef} {c : Clause} {l : Lit}
  {n : Nat}

/-! ## What is true was implied -/

theorem Propagated.continues (h : p.Propagated (conflict, p')) : p.Continues p' := h.1

theorem Propagated.grounded (h : p.Propagated (conflict, p')) : p'.Grounded := by
  obtain ⟨-, -, outcome⟩ := h
  cases conflict with
  | none => exact outcome.toGrounded
  | some r =>
    obtain ⟨-, n, -, watchful⟩ := outcome
    exact watchful.toGrounded

/-- The levels have begun before, so what is appended has a reason. -/
theorem Continues.forced (on : p.Continues p') (h : p.Grounded) (h' : p'.Grounded) {i : Nat}
    (appended : p.trail.length ≤ i) (hl : p'.trail.literals[i]? = some l) :
    ∃ r, p'.trail.reasonOf l.var = some r ∧ p'.Forces r l i := by
  have undecided : i ∉ p'.trail.limits := by
    intro limit
    rw [on.trail.limits] at limit
    exact absurd (h.trail.begun i limit) (Nat.not_lt.2 appended)
  obtain ⟨r, reason⟩ : ∃ r, p'.trail.reasonOf l.var = some r :=
    Option.ne_none_iff_exists'.1 fun none => undecided ((h'.trail.reason_iff i l hl).1 none)
  exact ⟨r, reason, h'.forced i l r hl reason⟩

/-- All that is true now was implied. -/
theorem Continues.implied (on : p.Continues p') (h : p.Grounded) (h' : p'.Grounded)
    (hl : l ∈ p'.trail.literals) : p.Implied l := by
  obtain ⟨i, hi⟩ := List.getElem?_of_mem hl
  -- along the trail: the literals that a reason rests on are in front
  induction i using Nat.strongRecOn generalizing l with
  | _ i ih =>
    rcases Nat.lt_or_ge i p.trail.length with old | appended
    · obtain ⟨more, e⟩ := on.trail.literals
      rw [← e, List.getElem?_append_left (by rwa [Trail.length_literals])] at hi
      exact .trail (List.mem_of_getElem? hi)
    · obtain ⟨r, -, c', hc', mem, others⟩ := on.forced h h' appended hi
      obtain ⟨c, hc, same⟩ := on.clauses.origin hc'
      refine .unit hc (same.mem_iff.1 mem) fun k hk ne => ?_
      obtain ⟨j, hj, e⟩ := List.mem_take_iff_getElem.1 (others k (same.mem_iff.2 hk) ne)
      rw [Nat.lt_min] at hj
      have place : p'.trail.literals[j]? = some (-k) := by
        rw [List.getElem?_eq_getElem hj.2, e]
      exact ih j hj.1 (List.mem_of_getElem? place) place

/-! ## What is implied is true -/

namespace Watchful

/-- When everything was propagated, no clause is false. -/
theorem not_falsifies (h : p.Watchful none p.trail.length) (hc : p.clauses.get? r = some c) :
    ∃ l ∈ c.literals, -l ∉ p.trail.literals := by
  rcases h.satisfied_or_open hc with ⟨l, hl, true⟩ | ⟨a, ha, -, -, -, notFalse, -⟩
  · exact ⟨l, hl, h.trail.neg_not_mem true⟩
  · exact ⟨a, ha, notFalse⟩

/-- When everything was propagated, the unit rule finds nothing new. -/
theorem unit (h : p.Watchful none p.trail.length) (hc : p.clauses.get? r = some c)
    (others : ∀ k ∈ c.literals, k ≠ l → -k ∈ p.trail.literals) : l ∈ p.trail.literals := by
  rcases h.satisfied_or_open hc with ⟨u, hu, true⟩ | ⟨a, ha, b, hb, ne, notFalse, notFalse'⟩
  · by_cases e : u = l
    · exact e ▸ true
    · exact absurd (others u hu e) (h.trail.neg_not_mem true)
  · -- one of the two is another literal than `l`
    by_cases e : a = l
    · exact absurd (others b hb fun e' => ne (e.trans e'.symm)) notFalse'
    · exact absurd (others a ha e) notFalse

/-- When everything was propagated, what was implied before is true. -/
theorem mem_of_implied (h' : p'.Watchful none p'.trail.length) (on : p.Continues p')
    (implied : p.Implied l) : l ∈ p'.trail.literals := by
  induction implied with
  | trail mem => exact on.trail.mem mem
  | unit stored mem others ih =>
    obtain ⟨c', hc', same⟩ := on.clauses.clauses _ _ stored
    exact h'.unit hc' fun k hk ne => ih k (same.mem_iff.1 hk) ne

end Watchful

/-! ## The closure -/

/-- Propagation from the first state, with the given conflict and the second state as its result,
    is closing under the unit rule. -/
structure Closes (p : Propagation) (conflict : Option ClauseRef) (p' : Propagation) : Prop where
  /-- Unless the state is refuted there is no conflict, and exactly what was implied is true. -/
  complete : ¬ p.Refuted → conflict = none ∧ ∀ l, p'.trail.isTrue l = true ↔ p.Implied l
  /-- If it is, a clause is given whose literals are all false. -/
  refutes : p.Refuted → ∃ r c, conflict = some r ∧ p'.clauses.get? r = some c ∧
    ∀ l ∈ c.literals, p'.trail.isFalse l = true
  /-- The clauses are the same but for the order of their literals. -/
  clauses : p'.clauses.Rearranges p.clauses
  /-- What was on the trail stays in front. -/
  appends : p.trail.literals <+: p'.trail.literals
  /-- What is appended has a reason, whose other literals are false in front of it. -/
  forced : ∀ i l, p.trail.length ≤ i → p'.trail.literals[i]? = some l →
    ∃ r, p'.trail.reasonOf l.var = some r ∧ p'.Forces r l i

/-- Propagation from a grounded state closes under the unit rule. -/
theorem Propagated.closes (h : p.Grounded) (done : p.Propagated (conflict, p')) :
    p.Closes conflict p' := by
  have on := done.continues
  have h' := done.grounded
  have forced : ∀ i l, p.trail.length ≤ i → p'.trail.literals[i]? = some l →
      ∃ r, p'.trail.reasonOf l.var = some r ∧ p'.Forces r l i :=
    fun i l appended hl => on.forced h h' appended hl
  obtain ⟨-, next, outcome⟩ := done
  cases conflict with
  | none =>
    have watchful : p'.Watchful none p'.trail.length := next ▸ outcome
    refine ⟨fun _ => ⟨rfl, fun l => ?_⟩, fun refuted => ?_, on.clauses, on.trail.literals, forced⟩
    · rw [h'.trail.isTrue_iff]
      exact ⟨on.implied h h', watchful.mem_of_implied on⟩
    · obtain ⟨r, c, hc, implied⟩ := refuted
      obtain ⟨c', hc', same⟩ := on.clauses.clauses r c hc
      obtain ⟨l, hl, notFalse⟩ := watchful.not_falsifies hc'
      exact absurd (watchful.mem_of_implied on (implied l (same.mem_iff.1 hl))) notFalse
  | some r =>
    obtain ⟨⟨c', hc', false, -⟩, -⟩ := outcome
    refine ⟨fun open' => ?_, fun _ => ⟨r, c', rfl, hc', fun l hl => ?_⟩, on.clauses,
      on.trail.literals, forced⟩
    · obtain ⟨c, hc, same⟩ := on.clauses.origin hc'
      refine absurd ⟨r, c, hc, fun l hl => ?_⟩ open'
      exact on.implied h h' (false l (same.mem_iff.2 hl))
    · exact h'.trail.isFalse_iff.2 (false l hl)

/-- From a watchful state propagation ends, and it closes under the unit rule. -/
theorem Watchful.closes (h : p.Watchful none p.next) :
    Yields p.propagate fun (conflict, p') => p.Closes conflict p' :=
  (propagate_yields h).mono fun _ done => done.closes h.toGrounded

end ClauseLearning.Propagation
