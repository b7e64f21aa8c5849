/-
  Trails whose decisions were made in the order of the variables.

  Model. A trail is in order when every level begins with a positive literal, and all variables of
  the problem below that of the literal had values when it was decided on. The trail of the root
  is in order, and trails stay so when they grow on their level, when they go back, and when the
  lowest variable without a value is decided on.

  Rule. `InOrder.lt_of_negative`: up to a negative literal only variables below its own were
  decided on.
-/
import Mathlib.Data.List.Nodup
import ClauseLearning.Proofs.Trail.Decided

namespace ClauseLearning.Trail

/-- Every decision is positive and was made when the variables below had values. -/
def InOrder (t : Trail) : Prop :=
  ∀ i ∈ t.limits, ∀ d, t.literals[i]? = some d → d.positive = true ∧
    ∀ v, t.Knows v → v < d.var → ∃ k ∈ t.literals.take i, k.var = v

theorem inOrder_of_root {t : Trail} (root : t.level = 0) : t.InOrder := by
  intro i limit
  rw [← length_limits, List.length_eq_zero_iff] at root
  rw [root] at limit
  cases limit

namespace InOrder

variable {t t' : Trail} {l : Lit}

theorem grows (h : t.InOrder) (decided : t.Decided) (ext : t.Extends t') : t'.InOrder := by
  intro i limit d hd
  rw [ext.limits] at limit
  have inside := decided.begun i limit
  obtain ⟨more, e⟩ := ext.literals
  rw [← e, List.getElem?_append_left (by rwa [length_literals])] at hd
  obtain ⟨positive, lower⟩ := h i limit d hd
  refine ⟨positive, fun v known lt => ?_⟩
  rw [ext.take (Nat.le_of_lt inside)]
  exact lower v ((ext.knows v).1 known) lt

theorem backtracks {k : Nat} (h : t.InOrder) (back : t.Backtracks t' k) : t'.InOrder := by
  intro i limit d hd
  rw [back.limits] at limit
  obtain ⟨lt, old⟩ := back.getElem? hd
  obtain ⟨positive, lower⟩ := h i (List.mem_of_mem_take limit) d old
  refine ⟨positive, fun v known below => ?_⟩
  rw [back.literals, List.take_take, Nat.min_eq_left (Nat.le_of_lt lt)]
  exact lower v ((back.knows v).1 known) below

/-- The lowest variable without a value is decided on. -/
theorem opens (h : t.InOrder) (decided : t.Decided) (opens : t.Opens t' l)
    (positive : l.positive = true)
    (lower : ∀ v, t.Knows v → v < l.var → ∃ k ∈ t.literals, k.var = v) : t'.InOrder := by
  intro i limit d hd
  rw [opens.limits, List.mem_append, List.mem_singleton] at limit
  rw [opens.literals] at hd
  rcases limit with limit | rfl
  · have inside := decided.begun i limit
    rw [List.getElem?_append_left (by rwa [length_literals])] at hd
    obtain ⟨positive, lower⟩ := h i limit d hd
    refine ⟨positive, fun v known lt => ?_⟩
    rw [opens.literals, List.take_append_of_le_length (by rw [length_literals]; omega)]
    exact lower v ((opens.knows v).1 known) lt
  · rw [← length_literals, List.getElem?_concat_length] at hd
    obtain rfl : l = d := Option.some.inj hd
    refine ⟨positive, fun v known lt => ?_⟩
    rw [opens.literals, ← length_literals, List.take_left]
    exact lower v ((opens.knows v).1 known) lt

/-- Up to a negative literal only variables below its own were decided on, and made true. -/
theorem lt_of_negative {i j : Nat} {d : Lit} (h : t.InOrder) (coherent : t.Coherent)
    (hl : t.literals[i]? = some l) (negative : l.positive = false) (limit : j ∈ t.limits)
    (le : j ≤ i) (hd : t.literals[j]? = some d) : d.var < l.var ∧ d.positive = true := by
  obtain ⟨positive, lower⟩ := h j limit d hd
  have mem := List.mem_of_getElem? hl
  refine ⟨?_, positive⟩
  rcases Nat.lt_trichotomy d.var l.var with lt | same | gt
  · exact lt
  · -- the two literals would be the same one
    obtain rfl := coherent.eq_of_var_eq (List.mem_of_getElem? hd) mem same
    rw [positive] at negative
    cases negative
  · -- the variable would have had a value before
    obtain ⟨k, hk, e⟩ := lower l.var (coherent.knows_of_mem mem) gt
    obtain rfl := coherent.eq_of_var_eq (List.mem_of_mem_take hk) mem e
    obtain ⟨n, hn, e⟩ := List.mem_take_iff_getElem.1 hk
    rw [Nat.lt_min] at hn
    have twice := List.nodup_iff_getElem?_ne_getElem?.1 coherent.nodup n i (by omega)
      (List.getElem?_eq_some_iff.1 hl).1
    exact absurd (by rw [hl, List.getElem?_eq_getElem hn.2, e]) twice

end InOrder

end ClauseLearning.Trail
