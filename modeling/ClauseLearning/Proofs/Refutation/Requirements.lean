/-
  What a clause of a refutation rests on.

  Model. A clause leads to the recorded reason of the negation of each of its literals, and a
  learned clause leads also to its antecedents (`Refutation.Leads`). Links may lead round in a
  circle, from a clause to itself, and to one clause from many; all that is asked is that they
  lead to clauses that are kept (`Refutation.Closed`).

  The search marks a clause when it takes it from the stack, not when it puts it there. So a clause
  may stand on the stack many times, and the stack may grow while nothing new is found. The search
  ends nevertheless, since each round marks a clause or, without marking one, shortens the stack.

  Rule. `requirements_reachable`: the requirements are the given clauses to which the clause leads
  over any number of links, in increasing order. The order in which links are followed depends on
  the order of literals and antecedents, the requirements do not (`Refutation.Reorders`).
-/
import Mathlib
import ClauseLearning.Proofs.Solver.Refute

namespace ClauseLearning

open Relation (ReflTransGen)

namespace Refutation

variable {w w' : Refutation} {r q : ClauseRef} {c : Clause}

/-- One clause leads to the other: that is the reason why one of its literals is false, or it was
    learned from it. -/
def Leads (w : Refutation) (r q : ClauseRef) : Prop :=
  ∃ c, w.clauses.get? r = some c ∧
    ((∃ l ∈ c.literals, w.reasons.get? (-l).code = some (some q)) ∨
      c.learned = true ∧ q ∈ c.antecedents)

/-- The clause rests on the given clause `q`. -/
def RestsOn (w : Refutation) (r q : ClauseRef) : Prop :=
  ReflTransGen w.Leads r q ∧ ∃ c, w.clauses.get? q = some c ∧ c.learned = false

/-- Antecedents and reasons are clauses that are kept. -/
structure Closed (w : Refutation) : Prop where
  /-- The antecedents. -/
  antecedents : ∀ c ∈ w.clauses.toList, ∀ q ∈ c.antecedents, q < w.clauses.size
  /-- The reasons. -/
  reasons : ∀ reason ∈ w.reasons.toList, ∀ q ∈ reason, q < w.clauses.size

/-- The first refutation is the second one with the literals and antecedents of every clause in some
    order. -/
structure Reorders (w' w : Refutation) : Prop where
  /-- No clause comes or goes. -/
  size : w'.clauses.size = w.clauses.size
  /-- The clauses differ in these orders at most. -/
  clauses : ∀ r c c', w.clauses.get? r = some c → w'.clauses.get? r = some c' →
    c'.learned = c.learned ∧ c'.literals.Perm c.literals ∧ c'.antecedents.Perm c.antecedents
  /-- The reasons are the same. -/
  reasons : w'.reasons = w.reasons

/-! ## Links -/

theorem reasonAgainst?_eq_some_iff {l : Lit} :
    w.reasonAgainst? l = some q ↔ w.reasons.get? (-l).code = some (some q) := by
  unfold reasonAgainst?
  rw [Option.join_eq_some_iff]

theorem leads_iff : w.Leads r q ↔ ∃ c, w.clauses.get? r = some c ∧ q ∈ w.links c := by
  unfold Leads links
  refine exists_congr fun c => and_congr_right fun _ => ?_
  simp only [List.mem_append, List.mem_filterMap, reasonAgainst?_eq_some_iff]
  rw [or_comm]
  refine or_congr_left ?_
  cases c.learned <;> simp

theorem Closed.links_lt (h : w.Closed) (hc : w.clauses.get? r = some c) :
    ∀ q ∈ w.links c, q < w.clauses.size := by
  intro q link
  obtain ⟨d, hd, ⟨l, -, reason⟩ | ⟨-, antecedent⟩⟩ := leads_iff.2 ⟨c, hc, link⟩
  · exact h.reasons _ (Array.mem_toList_iff.2 (Array.mem_of_getElem? reason)) q rfl
  · exact h.antecedents d (ClauseStore.mem_toList.2 ⟨r, hd⟩) q antecedent

/-! ## What is marked -/

/-- Whatever the search marks can be reached from the stack it begins with. -/
theorem reachable_of_reach {marked m : Array Bool} {stack : List ClauseRef}
    (e : w.reach marked stack = .ok m) (hq : m[q]? = some true) :
    marked[q]? = some true ∨ ∃ r ∈ stack, ReflTransGen w.Leads r q := by
  -- a round that marks a clause puts its links on the stack, one step farther from the start
  fun_induction reach w marked stack with
  | case1 marked =>
    cases e
    exact .inl hq
  | case2 marked r rest out => cases e
  | case3 marked r rest seen ih =>
    obtain old | ⟨p, mem, path⟩ := ih e
    · exact .inl old
    · exact .inr ⟨p, .tail _ mem, path⟩
  | case4 marked r rest new out => cases e
  | case5 marked r rest new d hd ih =>
    obtain old | ⟨p, mem, path⟩ := ih e
    · obtain rfl | old := (getElem?_mark new q).1 old
      · exact .inr ⟨q, .head _, .refl⟩
      · exact .inl old
    · obtain link | mem := List.mem_append.1 mem
      · exact .inr ⟨r, .head _, path.head (leads_iff.2 ⟨d, hd, link⟩)⟩
      · exact .inr ⟨p, .tail _ mem, path⟩

/-- From one clause the search marks just the clauses that can be reached from it. -/
theorem reach_marks (closed : w.Closed) (start : r < w.clauses.size) :
    Yields (w.reach (Array.replicate w.clauses.size false) [r]) fun m =>
      ∀ q : ClauseRef, m[q]? = some true ↔ ReflTransGen w.Leads r q := by
  have unmarked : ∀ q : ClauseRef, (Array.replicate w.clauses.size false)[q]? ≠ some true := by
    intro q
    simp [Array.getElem?_replicate]
  obtain ⟨m, e, -, all, follows⟩ := reach_yields (fun _ _ => closed.links_lt)
    (Array.replicate w.clauses.size false) [r] (by simp) (by simpa using start)
  refine .of_eq e fun q => ⟨fun hq => ?_, fun path => ?_⟩
  · obtain old | ⟨p, mem, path⟩ := reachable_of_reach e hq
    · exact absurd old (unmarked q)
    · obtain rfl := List.mem_singleton.1 mem
      exact path
  · induction path with
    | refl => exact all r (.head _)
    | tail _ leads ih =>
      obtain ⟨c, hc, link⟩ := leads_iff.1 leads
      obtain old | links := follows _ ih
      · exact absurd old (unmarked _)
      · exact links c hc _ link

/-! ## The requirements -/

theorem requirements_yields (closed : w.Closed) (start : r < w.clauses.size) :
    Yields (w.requirements r) fun reqs =>
      reqs.Pairwise (· < ·) ∧ ∀ q, q ∈ reqs ↔ w.RestsOn r q := by
  unfold requirements
  refine (reach_marks closed start).bind fun m marks => .pure ⟨?_, fun q => ?_⟩
  · exact List.pairwise_lt_range.filter _
  · show q ∈ (List.range w.clauses.size).filter _ ↔ _
    rw [List.mem_filter, List.mem_range, Bool.and_eq_true, beq_iff_eq, marks,
      Option.any_eq_true, RestsOn]
    simp only [Bool.not_eq_true']
    constructor
    · rintro ⟨-, path, given⟩
      exact ⟨path, given⟩
    · rintro ⟨path, c, hc, given⟩
      exact ⟨ClauseStore.lt_size_of_get? hc, path, c, hc, given⟩

theorem Reorders.symm (h : w'.Reorders w) : w.Reorders w' where
  size := h.size.symm
  clauses r c' c hc' hc := by
    obtain ⟨learned, literals, antecedents⟩ := h.clauses r c c' hc hc'
    exact ⟨learned.symm, literals.symm, antecedents.symm⟩
  reasons := h.reasons.symm

/-- A clause that is kept is kept after reordering. -/
theorem Reorders.exists_get? (h : w'.Reorders w) (hc : w.clauses.get? r = some c) :
    ∃ c', w'.clauses.get? r = some c' := by
  apply ClauseStore.get?_isSome_of_lt
  rw [h.size]
  exact ClauseStore.lt_size_of_get? hc

theorem Reorders.leads (h : w'.Reorders w) (leads : w.Leads r q) : w'.Leads r q := by
  obtain ⟨c, hc, which⟩ := leads
  obtain ⟨c', hc'⟩ := h.exists_get? hc
  obtain ⟨learned, literals, antecedents⟩ := h.clauses r c c' hc hc'
  refine ⟨c', hc', ?_⟩
  rw [h.reasons, learned, antecedents.mem_iff]
  simp only [literals.mem_iff]
  exact which

theorem Reorders.restsOn (h : w'.Reorders w) (rests : w.RestsOn r q) : w'.RestsOn r q := by
  obtain ⟨path, c, hc, given⟩ := rests
  obtain ⟨c', hc'⟩ := h.exists_get? hc
  refine ⟨ReflTransGen.mono (fun _ _ => h.leads) _ _ path, c', hc', ?_⟩
  rw [(h.clauses q c c' hc hc').1, given]

theorem Reorders.closed (h : w'.Reorders w) (closed : w.Closed) : w'.Closed where
  antecedents c' mem q hq := by
    obtain ⟨r, hc'⟩ := ClauseStore.mem_toList.1 mem
    obtain ⟨c, hc⟩ := h.symm.exists_get? hc'
    obtain ⟨-, -, antecedents⟩ := h.clauses r c c' hc hc'
    rw [h.size]
    exact closed.antecedents c (ClauseStore.mem_toList.2 ⟨r, hc⟩) q (antecedents.mem_iff.1 hq)
  reasons := by
    rw [h.reasons, h.size]
    exact closed.reasons

/-- Where antecedents, reasons and the clause asked about are clauses that are kept, the search ends
    and gives, in increasing order, the given clauses to which the clause leads over any number of
    links. With literals and antecedents in another order it gives the same. -/
theorem requirements_reachable (closed : w.Closed) (start : r < w.clauses.size) :
    ∃ reqs, w.requirements r = .ok reqs ∧ reqs.Pairwise (· < ·) ∧
      (∀ q, q ∈ reqs ↔ ReflTransGen w.Leads r q ∧
        ∃ c, w.clauses.get? q = some c ∧ c.learned = false) ∧
      ∀ w', Reorders w' w → w'.requirements r = .ok reqs := by
  obtain ⟨reqs, e, increasing, mem⟩ := requirements_yields closed start
  refine ⟨reqs, e, increasing, mem, fun w' reorders => ?_⟩
  obtain ⟨reqs', e', increasing', mem'⟩ :=
    requirements_yields (reorders.closed closed) (reorders.size ▸ start)
  have same : reqs'.Perm reqs := by
    refine (List.perm_ext_iff_of_nodup increasing'.nodup increasing.nodup).2 fun q => ?_
    rw [mem, mem']
    exact ⟨reorders.symm.restsOn, reorders.restsOn⟩
  rw [e', same.eq_of_pairwise (fun a b _ _ lt gt => absurd lt (Nat.lt_asymm gt)) increasing'
    increasing]

/-- A learned clause that is among its own antecedents, two clauses that lead to each other, and a
    given clause that is reached on four ways. The clause over 5 is not reached. -/
theorem requirements_reachable_circle : ∃ w : Refutation, w.Closed ∧ 0 < w.clauses.size ∧
    w.Leads 2 2 ∧ w.Leads 0 3 ∧ w.Leads 3 0 ∧ w.requirements 0 = .ok [0, 1, 3] ∧
    (∀ q, q ∈ [0, 1, 3] ↔ ReflTransGen w.Leads 0 q ∧
      ∃ c, w.clauses.get? q = some c ∧ c.learned = false) ∧
    ∀ w', Reorders w' w → w'.requirements 0 = .ok [0, 1, 3] := by
  let store : ClauseStore := ⟨⟨#[.ofList [⟨1, true⟩, ⟨2, true⟩, ⟨3, true⟩] false none,
    .ofList [⟨1, false⟩] false none, .learnedFrom [⟨2, false⟩, ⟨1, true⟩] [3, 2, 1, 1],
    .ofList [⟨2, false⟩, ⟨1, true⟩] false none, .ofList [⟨5, true⟩] false none]⟩, 1⟩
  let w : Refutation :=
    ⟨store, ⟨#[none, none, some 1, none, some 2, some 0, some 3]⟩, 0, none⟩
  have closed : w.Closed := ⟨by decide, by decide⟩
  have start : 0 < w.clauses.size := by decide
  have found : w.requirements 0 = .ok [0, 1, 3] := by cbv
  obtain ⟨reqs, e, -, mem, same⟩ := requirements_reachable closed start
  obtain rfl : [0, 1, 3] = reqs := by
    cases found.symm.trans e
    rfl
  refine ⟨w, closed, start, ⟨_, rfl, .inr ⟨rfl, by decide⟩⟩, ⟨_, rfl, .inl ?_⟩,
    ⟨_, rfl, .inl ?_⟩, found, mem, same⟩
  · exact ⟨⟨3, true⟩, Clause.mem_ofList.2 (by decide), rfl⟩
  · exact ⟨⟨2, false⟩, Clause.mem_ofList.2 (by decide), rfl⟩

end Refutation

end ClauseLearning
