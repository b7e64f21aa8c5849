/-
  The variables of open clauses and the assignment.

  Model. All that a request needs to meet no fault is an index that leads to clauses of the store
  only (`ClauseIndex.Within`), and every request keeps it.

  Rule. Which clauses count as open does not matter for an answer to be right: every candidate is
  asked again whether it is unassigned, and in the end the lowest unassigned variable is among
  the candidates (`OpenClauses.next_yields`).
-/
import ClauseLearning.Policy.OpenClauses
import ClauseLearning.Proofs.Policy.ClauseIndex
import ClauseLearning.Proofs.Policy.Contract

namespace ClauseLearning

namespace OpenClauses

variable {p q : OpenClauses} {a : Assignment} {store : ClauseStore} {v : Var} {vs : List Var}

/-! ## The best of some variables -/

/-- The best variable is one of them. -/
theorem mem_of_best? (h : p.best? vs = some v) : v ∈ vs := by
  cases vs with
  | nil => cases h
  | cons w ws =>
    obtain rfl := Option.some.inj h
    have step : ∀ us : List Var, ∀ u,
        us.foldl (fun w v => if p.better v w then v else w) u ∈ u :: us := by
      intro us
      induction us with
      | nil => exact fun u => .head _
      | cons x us ih =>
        intro u
        rcases List.mem_cons.1 (ih (if p.better x u then x else u)) with same | later
        · rw [List.foldl_cons, same]
          split <;> simp
        · exact .tail _ (.tail _ later)
    exact step ws w

theorem eq_nil_of_best? (h : p.best? vs = none) : vs = [] := by
  cases vs with
  | nil => rfl
  | cons => cases h

theorem isUnassigned_of_bestOpen? (h : p.bestOpen? a vs = some v) : a.isUnassigned v = true :=
  (List.mem_filter.1 (mem_of_best? h)).2

/-- There is no best one only if none is unassigned. -/
theorem isUnassigned_of_bestOpen?_none (h : p.bestOpen? a vs = none) (hv : v ∈ vs) :
    a.isUnassigned v = false := by
  have empty := eq_nil_of_best? h
  rw [List.filter_eq_nil_iff] at empty
  exact Bool.eq_false_iff.2 (empty v hv)

/-! ## Requests -/

theorem isUnassigned_of_early? (h : p.early? a = some v) : a.isUnassigned v = true := by
  unfold early? at h
  dsimp only at h
  rcases Option.or_eq_some_iff.1 h with first | ⟨-, second⟩
  · split at first
    · exact List.find?_some first
    · cases first
  · exact isUnassigned_of_bestOpen? second

/-- The clauses that are new to the policy are taken in. -/
theorem indexNew_yields (h : p.index.Within store) :
    Yields (p.indexNew store) (·.index.Within store) := by
  obtain ⟨prefer, installed, required, preferences, preferred, index, candidates⟩ := p
  exact h.addNew.bind fun index' within => .pure within

/-- A refresh brings the index up to date, and finds unassigned variables. -/
theorem refresh_yields (h : p.index.Within store) (a : Assignment) :
    Yields (p.refresh a store) fun q =>
      q.index.Within store ∧ ∀ v ∈ q.candidates, a.isUnassigned v = true := by
  obtain ⟨prefer, installed, required, preferences, preferred, index, candidates⟩ := p
  exact (ClauseIndex.noteChanges_yields h a).bind fun index' looked =>
    .pure ⟨looked.within h, fun v => ClauseIndex.isUnassigned_of_mem_candidates⟩

/-- When no candidate is left the variable is taken from all unassigned ones. -/
theorem isRight_late (h : ∀ v ∈ q.candidates, a.isUnassigned v = true) :
    Policy.IsRight a ((q.best? q.candidates).or (q.bestOpen? a (q.others a))) := by
  cases e : (q.best? q.candidates).or (q.bestOpen? a (q.others a)) with
  | some v =>
    rcases Option.or_eq_some_iff.1 e with found | ⟨-, found⟩
    · exact h v (mem_of_best? found)
    · exact isUnassigned_of_bestOpen? found
  | none =>
    obtain ⟨-, none⟩ := Option.or_eq_none_iff.1 e
    refine Assignment.isUnassigned_of_lowestUnassigned?_none ?_
    cases lowest : a.lowestUnassigned? with
    | none => rfl
    | some v =>
      have among : v ∈ q.others a := by simp [others, lowest]
      have assigned := isUnassigned_of_bestOpen?_none none among
      rw [(Assignment.lowest_of_lowestUnassigned? lowest).1] at assigned
      cases assigned

theorem choose_yields (h : p.index.Within store) (a : Assignment) (consumed : Bool) :
    Yields (p.choose a store consumed) fun answer =>
      Policy.IsRight a answer.var? ∧ answer.policy.index.Within store := by
  unfold choose
  split
  · rename_i v early
    exact .pure ⟨isUnassigned_of_early? early, h⟩
  · dsimp only
    split
    · rename_i v found
      exact .pure ⟨(List.mem_filter.1 (mem_of_best? found)).2, h⟩
    · refine (refresh_yields (p := { p with candidates := _ }) h _).bind ?_
      rintro q ⟨within, candidates⟩
      refine .pure ⟨isRight_late fun v hv => ?_, within⟩
      have unassigned := candidates v hv
      split at unassigned <;> exact unassigned

/-- A request names the right variable, whatever the changes say. -/
theorem next_yields (h : p.index.Within store) (a : Assignment) :
    Yields (p.next a store) fun answer =>
      Policy.IsRight a answer.var? ∧ answer.policy.index.Within store := by
  unfold next
  split
  · refine (indexNew_yields h).bind fun q within => ?_
    exact (refresh_yields within a).bind fun q' ⟨within', _⟩ => choose_yields within' a true
  · exact choose_yields h a false

theorem contract : Policy.Contract fun (p : OpenClauses) _ store => p.index.Within store where
  clause := by
    intro p seen store c h
    have more : (store.add c).2.size = store.size + 1 := Table.size_push ..
    exact ⟨by have := h.size; omega, h.below⟩
  require _ h := h
  next _ h := (next_yields h _).mono fun _ ⟨right, within⟩ => ⟨right, fun _ => within, within⟩

end OpenClauses

end ClauseLearning
