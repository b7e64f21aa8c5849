/-
  Sorted lists.

  Model. A list of numbers is sorted by `≤`, and a list that is in some order is sorted again by
  another one, which may not tell all elements apart.

  Rule. Sorting again keeps the first order among the elements that the second one does not tell
  apart (`pairwise_mergeSort_of_pairwise`).
-/
import Mathlib.Data.List.Nodup

namespace ClauseLearning

theorem pairwise_lt_mergeSort {ks : List Nat} (h : ks.Nodup) :
    (ks.mergeSort fun j k => j ≤ k).Pairwise (· < ·) := by
  have sorted : (ks.mergeSort fun j k => j ≤ k).Pairwise fun j k => decide (j ≤ k) = true := by
    refine List.pairwise_mergeSort (fun i j k hij hjk => ?_) (fun j k => ?_) ks
    · rw [decide_eq_true_eq] at hij hjk ⊢
      exact Nat.le_trans hij hjk
    · rw [Bool.or_eq_true, decide_eq_true_eq, decide_eq_true_eq]
      exact Nat.le_total j k
  have different : (ks.mergeSort fun j k => j ≤ k).Nodup := (List.mergeSort_perm _ _).nodup_iff.2 h
  exact (sorted.and different).imp fun ⟨le, ne⟩ => Nat.lt_of_le_of_ne (of_decide_eq_true le) ne

section Again

variable {α : Type} {le : α → α → Bool} {r : α → α → Prop} {xs : List α}

/-- Elements that are not told apart keep their order. -/
theorem filter_mergeSort (trans : ∀ x y z, le x y = true → le y z = true → le x z = true)
    (total : ∀ x y, (le x y || le y x) = true) {p : α → Bool}
    (same : ∀ x y, p x = true → p y = true → le x y = true) (xs : List α) :
    (xs.mergeSort le).filter p = xs.filter p := by
  have ordered : (xs.filter p).Pairwise fun x y => le x y = true := by
    refine List.pairwise_of_forall_mem_list fun x hx y hy => ?_
    exact same x y (List.mem_filter.1 hx).2 (List.mem_filter.1 hy).2
  have part : (xs.filter p).Sublist (xs.mergeSort le) :=
    List.sublist_mergeSort trans total ordered List.filter_sublist
  have part' := part.filter p
  rw [List.filter_filter] at part'
  simp only [Bool.and_self] at part'
  refine (part'.eq_of_length ?_).symm
  exact ((List.mergeSort_perm xs le).filter p).length_eq.symm

/-- A list that was in an order and is sorted again is in the new order, and in the old one where
    the new one does not tell the elements apart. -/
theorem pairwise_mergeSort_of_pairwise
    (trans : ∀ x y z, le x y = true → le y z = true → le x z = true)
    (total : ∀ x y, (le x y || le y x) = true) (h : xs.Pairwise r) :
    (xs.mergeSort le).Pairwise fun x y => le x y = true ∧ (le y x = true → r x y) := by
  have sorted := List.pairwise_mergeSort trans total xs
  rw [List.pairwise_iff_forall_sublist] at sorted h ⊢
  intro x y part
  refine ⟨sorted part, fun back => h ?_⟩
  -- both are among the elements that are not told apart from `x`
  let p : α → Bool := fun z => le x z && le z x
  have same : ∀ z w, p z = true → p w = true → le z w = true := by
    intro z w hz hw
    simp only [p, Bool.and_eq_true] at hz hw
    exact trans z x w hz.2 hw.1
  have hx : p x = true := by simpa [p] using total x x
  have hy : p y = true := by simp [p, sorted part, back]
  have part' := part.filter p
  rw [filter_mergeSort trans total same, List.filter_cons_of_pos hx, List.filter_cons_of_pos hy,
    List.filter_nil] at part'
  exact part'.trans List.filter_sublist

end Again

end ClauseLearning
