/-
  The histogram of a record.

  Model. The histogram counts the suggestions in a map (`Recorded.tally`), takes each variable
  once, in the order of their numbers, and sorts the variables with their counts again, the higher
  counts first. Among equal counts this leaves the variables in the order of their numbers.

  Rule. `histogram_counts`: the entries are the suggested variables with the numbers of their
  suggestions, in an order without ties, and the counts add up to the number of suggestions
  (`Recorded.Counts`).
-/
import Mathlib
import ClauseLearning.Policy.Recorded
import ClauseLearning.Proofs.Clause.Order
import ClauseLearning.Proofs.Sorted

namespace ClauseLearning.Recorded

/-- The entries say how often each variable is in the list. -/
structure Counts (vs : List Var) (entries : List (Var × Nat)) : Prop where
  /-- No variable has two entries. -/
  once : (entries.map Prod.fst).Nodup
  /-- The variables are those of the list, with the numbers of their occurrences. -/
  exact : ∀ v n, (v, n) ∈ entries ↔ v ∈ vs ∧ n = vs.count v
  /-- Higher counts come first, and lower variables where the counts are equal. -/
  ordered : entries.Pairwise fun x y => y.2 < x.2 ∨ x.2 = y.2 ∧ x.1 < y.1
  /-- The counts add up to the length of the list. -/
  total : (entries.map Prod.snd).sum = vs.length

variable {π : Type} {vs : List Var} {v : Var}

/-- The map has the numbers of the occurrences. -/
theorem getD_tally (vs : List Var) (v : Var) : ((tally vs).get? v).getD 0 = vs.count v := by
  have counted : ∀ m : NatMap Nat,
      ((vs.foldl (fun m v => m.insert v ((m.get? v).getD 0 + 1)) m).get? v).getD 0 =
        (m.get? v).getD 0 + vs.count v := by
    induction vs with
    | nil => exact fun _ => rfl
    | cons w vs ih =>
      intro m
      rw [List.foldl_cons, ih, NatMap.get?_insert, List.count_cons]
      by_cases e : v = w
      · subst e
        simp only [if_true, Option.getD_some, beq_self_eq_true]
        omega
      · simp [e, Ne.symm e]
  rw [tally, counted]
  simp

/-- The entries before they are sorted by count. -/
theorem histogram_eq (r : Recorded π) : r.histogram =
    (((r.suggestions.toList.eraseDups.mergeSort fun v w => v ≤ w).map fun v =>
      (v, r.suggestions.toList.count v)).mergeSort fun x y => y.2 ≤ x.2) := by
  have once : firsts id r.suggestions.toList = r.suggestions.toList.eraseDups :=
    firsts_eq_eraseDups (fun _ _ => id) _
  unfold histogram
  simp only [once, getD_tally]

theorem histogram_perm (r : Recorded π) : r.histogram.Perm
    (r.suggestions.toList.eraseDups.map fun v => (v, r.suggestions.toList.count v)) := by
  rw [histogram_eq]
  exact (List.mergeSort_perm _ _).trans ((List.mergeSort_perm _ _).map _)

/-- Each suggested variable is in the histogram once, with the number of its suggestions. -/
theorem histogram_counts (r : Recorded π) : Counts r.suggestions.toList r.histogram where
  once := by
    rw [(r.histogram_perm.map Prod.fst).nodup_iff, List.map_map]
    exact (List.map_id _).symm ▸ nodup_eraseDups r.suggestions.toList
  exact v n := by
    rw [r.histogram_perm.mem_iff, List.mem_map]
    constructor
    · rintro ⟨w, hw, e⟩
      cases e
      exact ⟨List.mem_eraseDups.1 hw, rfl⟩
    · rintro ⟨hv, rfl⟩
      exact ⟨v, List.mem_eraseDups.2 hv, rfl⟩
  ordered := by
    have increasing : ((r.suggestions.toList.eraseDups.mergeSort fun v w => v ≤ w).map fun v =>
        (v, r.suggestions.toList.count v)).Pairwise fun x y => x.1 < y.1 :=
      List.pairwise_map.2 (pairwise_lt_mergeSort (nodup_eraseDups _))
    have trans : ∀ x y z : Var × Nat, decide (y.2 ≤ x.2) = true → decide (z.2 ≤ y.2) = true →
        decide (z.2 ≤ x.2) = true := by
      intro x y z hxy hyz
      rw [decide_eq_true_eq] at hxy hyz ⊢
      exact Nat.le_trans hyz hxy
    have total : ∀ x y : Var × Nat, (decide (y.2 ≤ x.2) || decide (x.2 ≤ y.2)) = true := by
      intro x y
      rw [Bool.or_eq_true, decide_eq_true_eq, decide_eq_true_eq]
      exact Nat.le_total y.2 x.2
    rw [histogram_eq]
    refine (pairwise_mergeSort_of_pairwise trans total increasing).imp fun {x y} ⟨le, tie⟩ => ?_
    rw [decide_eq_true_eq] at le tie
    rcases Nat.lt_or_eq_of_le le with lt | e
    · exact .inl lt
    · exact .inr ⟨e.symm, tie (Nat.le_of_eq e.symm)⟩
  total := by
    have same : r.suggestions.toList.eraseDups.Perm r.suggestions.toList.dedup := by
      refine (List.perm_ext_iff_of_nodup (nodup_eraseDups _) (List.nodup_dedup _)).2 fun v => ?_
      rw [List.mem_eraseDups, List.mem_dedup]
    rw [(r.histogram_perm.map Prod.snd).sum_eq, List.map_map,
      ← List.sum_map_count_dedup_eq_length r.suggestions.toList]
    exact (same.map _).sum_eq

end ClauseLearning.Recorded
