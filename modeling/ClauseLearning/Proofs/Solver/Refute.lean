/-
  Refutations are sound.

  Model. A refutation taken at the root keeps the clauses, the reasons of the trail, and a false
  clause (`Refutation.Explains`). The clauses reached from it are closed under links, so with a
  clause the ones it was learned from are reached, and the reasons of its false literals.

  Rule. `conflictRequirements_yields`: no valuation satisfies all requirements. For one that
  does satisfies every clause reached, hence, along the trail, makes every literal true whose
  reason was reached; so it makes all literals of the clause in conflict false, which it
  satisfies.
-/
import ClauseLearning.Proofs.Solver.Sound

namespace ClauseLearning

namespace Refutation

variable {w : Refutation} {r : ClauseRef} {c : Clause}

/-! ## What is reached -/

/-- One more clause is marked. -/
theorem getElem?_mark {marked : Array Bool} (new : marked[r]? = some false) (q : ClauseRef) :
    (marked.setIfInBounds r true)[q]? = some true ↔ q = r ∨ marked[q]? = some true := by
  have here : r < marked.size := (Array.getElem?_eq_some_iff.1 new).1
  rw [Array.getElem?_setIfInBounds]
  by_cases e : r = q
  · simp [e.symm, here]
  · simp [e, Ne.symm e]

/-- What is marked at the end is closed under links, as far as it was not marked at first. -/
theorem reach_yields (links : ∀ r c, w.clauses.get? r = some c → ∀ q ∈ w.links c,
      q < w.clauses.size) (marked : Array Bool) (stack : List ClauseRef)
    (size : marked.size = w.clauses.size) (inside : ∀ r ∈ stack, r < w.clauses.size) :
    Yields (w.reach marked stack) fun m =>
      (∀ r : ClauseRef, marked[r]? = some true → m[r]? = some true) ∧
      (∀ r ∈ stack, m[r]? = some true) ∧
      ∀ r : ClauseRef, m[r]? = some true → marked[r]? = some true ∨
        ∀ c, w.clauses.get? r = some c → ∀ q ∈ w.links c, m[q]? = some true := by
  fun_induction reach w marked stack with
  | case1 marked => exact .ok ⟨fun _ h => h, by simp, fun _ h => .inl h⟩
  | case2 marked r rest out =>
    have := inside r (.head _)
    rw [Array.getElem?_eq_none_iff, size] at out
    exact absurd this (Nat.not_lt.2 out)
  | case3 marked r rest seen ih =>
    refine (ih size fun q hq => inside q (.tail _ hq)).mono fun m ⟨keeps, all, closed⟩ => ?_
    refine ⟨keeps, fun q hq => ?_, closed⟩
    rcases List.mem_cons.1 hq with rfl | hq
    · exact keeps q seen
    · exact all q hq
  | case4 marked r rest new out =>
    obtain ⟨c, hc⟩ := ClauseStore.get?_isSome_of_lt (inside r (.head _))
    rw [hc] at out
    cases out
  | case5 marked r rest new c hc ih =>
    have after := getElem?_mark new
    refine (ih (by rwa [Array.size_setIfInBounds]) fun q hq => ?_).mono
      fun m ⟨keeps, all, closed⟩ => ⟨fun q hq => ?_, fun q hq => ?_, fun q hq => ?_⟩
    · rcases List.mem_append.1 hq with hq | hq
      · exact links r c hc q hq
      · exact inside q (.tail _ hq)
    · exact keeps q ((after q).2 (.inr hq))
    · rcases List.mem_cons.1 hq with rfl | hq
      · exact keeps q ((after q).2 (.inl rfl))
      · exact all q (List.mem_append_right _ hq)
    · rcases closed q hq with old | links'
      · rcases (after q).1 old with rfl | old
        · refine .inr fun d hd q' hq' => all q' (List.mem_append_left _ ?_)
          cases hc.symm.trans hd
          exact hq'
        · exact .inl old
      · exact .inr links'

/-! ## The reasons -/

theorem enterReason_yields (t : Table (Option ClauseRef)) (l : Lit) (reason : Option ClauseRef) :
    Yields (enterReason t (l, reason)) fun t' => ∀ k : Lit,
      (t'.get? k.code).join = if k = l then reason else (t.get? k.code).join := by
  refine (Table.set_yields (t.lt_size_grow l.code none) reason).mono fun t' ⟨_, get⟩ k => ?_
  rw [get]
  by_cases e : k = l
  · simp [e]
  · rw [if_neg fun h => e (Lit.code_inj h), if_neg e, Table.get?_grow]
    split
    · rfl
    · rename_i out
      rw [Table.get?_eq_none_iff.2 (Nat.le_of_not_lt out)]
      split <;> rfl

/-- The reasons of some literals are entered. -/
theorem enterReasons_yields (reason : Lit → Option ClauseRef) (ls : List Lit) :
    Yields ((ls.map fun l => (l, reason l)).foldlM enterReason .empty) fun t => ∀ k : Lit,
      (t.get? k.code).join = if k ∈ ls then reason k else none := by
  rw [List.foldlM_map]
  refine Yields.foldlM (fun done (t : Table (Option ClauseRef)) => ∀ k : Lit,
    (t.get? k.code).join = if k ∈ done then reason k else none) ls ?_ ?_
  · simp
  · intro done l _ t ht
    refine (enterReason_yields t l (reason l)).mono fun t' ht' k => ?_
    rw [ht', ht]
    by_cases e : k = l <;> simp [e]

/-- The refutation has the clauses of the state and maybe a learned one, the reasons of its
    trail, and `conflict` as the false clause. -/
structure Explains (w : Refutation) (p : Propagation) (conflict : ClauseRef) : Prop where
  /-- The clauses of the state are there. -/
  old : ∀ r c, p.clauses.get? r = some c → w.clauses.get? r = some c
  /-- Every other clause is learned. -/
  new : ∀ r c, w.clauses.get? r = some c → c.learned = false → p.clauses.get? r = some c
  /-- The learned clauses follow from clauses before them. -/
  derived : w.clauses.Derived
  /-- The reasons are those of the trail. -/
  reasons : ∀ l, w.reasonAgainst? l =
    if -l ∈ p.trail.literals then p.trail.reasonOf l.var else none
  /-- The clause in conflict. -/
  conflicting : w.conflicting = conflict

namespace Explains

variable {p : Propagation} {conflict : ClauseRef} {reached : ClauseRef → Prop} {m : Valuation}

/-- Links lead to clauses that are kept. -/
theorem links_lt (h : w.Explains p conflict) (grounded : p.Grounded)
    (hc : w.clauses.get? r = some c) : ∀ q ∈ w.links c, q < w.clauses.size := by
  intro q hq
  rw [links, List.mem_append] at hq
  rcases hq with hq | hq
  · split at hq
    · rename_i learned
      exact Nat.lt_trans ((h.derived r c hc learned).1 q hq) (ClauseStore.lt_size_of_get? hc)
    · cases hq
  · obtain ⟨l, -, hl⟩ := List.mem_filterMap.1 hq
    rw [h.reasons] at hl
    split at hl
    · rename_i false
      obtain ⟨i, hi⟩ := List.getElem?_of_mem false
      obtain ⟨d, hd, -⟩ := grounded.forced i (-l) q hi hl
      exact ClauseStore.lt_size_of_get? (h.old q d hd)
    · cases hl

/-- The reasons of the false literals of a clause reached are reached. -/
theorem reason_reached (h : w.Explains p conflict)
    (closed : ∀ r c, reached r → w.clauses.get? r = some c → ∀ q ∈ w.links c, reached q)
    (hr : reached r) (hc : w.clauses.get? r = some c) {l : Lit} (hl : l ∈ c.literals)
    (false : -l ∈ p.trail.literals) {q : ClauseRef} (reason : p.trail.reasonOf l.var = some q) :
    reached q := by
  refine closed r c hr hc q (List.mem_append_right _ (List.mem_filterMap.2 ⟨l, hl, ?_⟩))
  rw [h.reasons, if_pos false, reason]

/-- What satisfies the clauses reached makes the literals true that they force at the root. -/
theorem holds (h : w.Explains p conflict) (grounded : p.Grounded) (root : p.trail.level = 0)
    (closed : ∀ r c, reached r → w.clauses.get? r = some c → ∀ q ∈ w.links c, reached q)
    (satisfies : ∀ r c, reached r → w.clauses.get? r = some c → m.Satisfies c.literals)
    {i : Nat} {l : Lit} (hi : p.trail.literals[i]? = some l)
    (reason : p.trail.reasonOf l.var = some r) (hr : reached r) : l.Holds m := by
  -- along the trail: the other literals of a reason were false before
  induction i using Nat.strongRecOn generalizing l r with
  | _ i ih =>
    refine (grounded.forced i l r hi reason).holds
      (fun c hc => satisfies r c hr (h.old r c hc)) fun c k j hc hk lt front => ?_
    have false := List.mem_of_getElem? front
    obtain ⟨q, reasonK⟩ := grounded.reason_at_root root false
    exact ih j lt front reasonK (h.reason_reached closed hr (h.old r c hc) hk false reasonK)

/-- Nothing satisfies all given clauses that are reached from the clause in conflict. -/
theorem unsatisfiable (h : w.Explains p conflict) (reached : ClauseRef → Prop)
    (grounded : p.Grounded) (root : p.trail.level = 0) (falsified : p.Falsifies conflict)
    (start : reached conflict)
    (closed : ∀ r c, reached r → w.clauses.get? r = some c → ∀ q ∈ w.links c, reached q)
    (given : ∀ r c, reached r → w.clauses.get? r = some c → c.learned = false →
      m.Satisfies c.literals) : False := by
  have satisfies : ∀ r c, reached r → w.clauses.get? r = some c → m.Satisfies c.literals := by
    intro r c hr hc
    refine h.derived.satisfies_of_closed reached (fun q d hq hd learned a ha => ?_)
      given hr hc
    refine closed q d hq hd a (List.mem_append_left _ ?_)
    rwa [if_pos learned]
  obtain ⟨c, hc, false⟩ := falsified
  obtain ⟨l, hl, holds⟩ := satisfies conflict c start (h.old _ c hc)
  obtain ⟨i, hi⟩ := List.getElem?_of_mem (false l hl)
  obtain ⟨q, reason⟩ := grounded.reason_at_root root (false l hl)
  have hq := h.reason_reached closed start (h.old _ c hc) hl (false l hl) reason
  exact Lit.holds_neg.1 (h.holds grounded root closed satisfies hi reason hq) holds

/-- The requirements are given clauses that no valuation satisfies at once. -/
theorem conflictRequirements_yields (h : w.Explains p conflict) (grounded : p.Grounded)
    (root : p.trail.level = 0) (falsified : p.Falsifies conflict) :
    Yields w.conflictRequirements fun reqs => reqs.Pairwise (· < ·) ∧
      (∀ r ∈ reqs, ∃ c, w.clauses.get? r = some c ∧ p.clauses.get? r = some c ∧
        c.learned = false) ∧
      ∀ m : Valuation, ¬ ∀ r ∈ reqs, ∀ c, w.clauses.get? r = some c →
        m.Satisfies c.literals := by
  obtain ⟨c, hc, -⟩ := id falsified
  have inside : conflict < w.clauses.size := ClauseStore.lt_size_of_get? (h.old _ c hc)
  unfold conflictRequirements requirements
  rw [h.conflicting]
  refine (reach_yields (fun r c hc => h.links_lt grounded hc)
    (Array.replicate w.clauses.size false) [conflict] (by simp) (by simpa)).bind
    fun marked ⟨_, all, closed⟩ => .pure ⟨?_, fun r hr => ?_, fun m hm => ?_⟩
  · exact List.pairwise_lt_range.filter _
  · obtain ⟨hr, which⟩ := List.mem_filter.1 hr
    rw [Bool.and_eq_true, Option.any_eq_true] at which
    obtain ⟨-, d, hd, given⟩ := which
    have given : d.learned = false := by simpa using given
    exact ⟨d, hd, h.new r d hd given, given⟩
  · refine h.unsatisfiable (fun r => marked[r]? = some true) (m := m) grounded root
      falsified (all _ (.head _)) (fun r c hr hc => ?_) fun r c hr hc given => ?_
    · rcases closed r hr with old | links
      · simp [Array.getElem?_replicate] at old
      · exact links c hc
    · refine hm r (List.mem_filter.2 ⟨?_, ?_⟩) c hc
      · exact List.mem_range.2 (ClauseStore.lt_size_of_get? hc)
      · simp [hr, hc, given]

end Explains

end Refutation

/-! ## Taking a refutation -/

namespace Solver

variable {s : Solver} {r : ClauseRef} {c : Clause}

/-- The clause learned from a conflict at the root follows from its antecedents. -/
theorem rootClause?_yields (h : s.Sound) (root : s.level = 0)
    (falsified : s.propagation.Falsifies r) :
    Yields (s.rootClause? r) fun learned => ∀ c, learned = some c → c.learned = true ∧
      (∀ a ∈ c.antecedents, a < s.clauses.size) ∧
      s.clauses.Entails c.antecedents c.literals := by
  obtain ⟨c, hc, -⟩ := id falsified
  unfold rootClause?
  rw [show s.clauses.read r = .ok c from ClauseStore.read_eq hc]
  refine .ok_bind ?_
  split
  · exact .pure fun d hd => by cases hd
  · rename_i some
    have conflict := h.grounded.conflicts_at_root root falsified hc
      (by simpa [Clause.isEmpty] using some)
    refine (Propagation.firstUip_yields h.grounded conflict).bind fun d asserts => .pure ?_
    rintro _ ⟨⟩
    refine ⟨rfl, asserts.kept, ?_⟩
    rw [Clause.literals_learnedFrom asserts.nodup_literals]
    exact asserts.entails

/-- At the root a false clause is refuted, without a fault. -/
theorem refute_yields (h : s.Sound) (root : s.level = 0) (falsified : s.propagation.Falsifies r) :
    Yields (s.refute r) fun w => w.Explains s.propagation r := by
  have atRoot : s.trail.atRoot = true := by
    rw [Trail.atRoot, beq_iff_eq]
    exact root
  unfold refute
  rw [if_neg (by simp [atRoot])]
  refine (rootClause?_yields h root falsified).bind fun learned hl => ?_
  have causes : (s.trail.literals.mapM fun l => do
      return (l, (← s.trail.causeOf l.var).reason) : Except Fault _) =
      .ok (s.trail.literals.map fun l => (l, s.trail.reasonOf l.var)) := by
    refine Yields.mapM_eq fun l hl => ?_
    rw [show s.trail.causeOf l.var = _ from h.grounded.trail.causeOf_mem hl]
    rfl
  rw [causes]
  refine .ok_bind ((Refutation.enterReasons_yields (fun l => s.trail.reasonOf l.var) _).bind
    fun reasons get => ?_)
  have against : ∀ (clauses : ClauseStore) (e : Option ClauseRef) (l : Lit),
      Refutation.reasonAgainst? ⟨clauses, reasons, r, e⟩ l =
        if -l ∈ s.trail.literals then s.trail.reasonOf l.var else none :=
    fun _ _ l => get (-l)
  cases learned with
  | none => exact .pure ⟨fun _ _ h => h, fun _ _ h _ => h, h.derived, against _ _, rfl⟩
  | some c =>
    obtain ⟨isLearned, before, entails⟩ := hl c rfl
    refine .pure ⟨fun q d hd => ClauseStore.get?_add_of_get? hd c, fun q d hd given => ?_,
      h.derived.add fun _ => ⟨before, entails⟩, against _ _, rfl⟩
    rcases ClauseStore.get?_of_add hd with ⟨-, rfl⟩ | old
    · rw [isLearned] at given
      cases given
    · exact old

end Solver

end ClauseLearning
