/-
  Progress of a search.

  Model. What a search has achieved is read off the levels of the literals on its trail. A trail
  makes progress when literals from some place on are replaced by others, the first of which is
  of a lower level than all that are gone (`Progresses`). That is so when a decision is made,
  with nothing gone, and when a learned clause makes a literal true on the backjump level.

  Rule. Of the trails with at most `n` literals each level weighs more than `n` literals of
  higher levels (`weight`), so the sum of the weights grows with every progress, and it has a
  bound (`potential_lt`).
-/
import Mathlib.Algebra.Ring.Nat
import ClauseLearning.Proofs.Trail.Decided

namespace ClauseLearning.Trail

variable {t t' : Trail} {n : Nat}

/-- The levels of the literals, oldest first. -/
def levels (t : Trail) : List Nat := t.literals.map fun l => t.levelOf l.var

theorem length_levels (t : Trail) : t.levels.length = t.length := by
  rw [levels, List.length_map, length_literals]

/-- The second trail has a literal of lower level in the place of some last ones. -/
def Progresses (t t' : Trail) : Prop :=
  ∃ front back k rest, t.levels = front ++ back ∧ t'.levels = front ++ k :: rest ∧
    ∀ j ∈ back, k < j

theorem levels_congr {ls : List Lit} (h : ∀ l ∈ ls, t'.levelOf l.var = t.levelOf l.var) :
    (ls.map fun l => t'.levelOf l.var) = ls.map fun l => t.levelOf l.var :=
  List.map_congr_left h

theorem Extends.levels (h : t.Extends t') : t.levels <+: t'.levels := by
  obtain ⟨more, e⟩ := h.literals
  rw [Trail.levels, Trail.levels, ← e, List.map_append,
    levels_congr fun l hl => h.levelOf hl]
  exact List.prefix_append ..

/-- Going back to a level and making a literal true there is progress. -/
theorem Backtracks.progresses {t'' : Trail} {k : Nat} {l : Lit} (h : t.Backtracks t' k)
    (valid : t.Valid) (ext : t'.Extends t'') (literals : t''.literals = t'.literals ++ [l])
    (level : t''.levelOf l.var = k) : t.Progresses t'' := by
  refine ⟨(t.literals.take (t.startOf k)).map fun l => t.levelOf l.var,
    (t.literals.drop (t.startOf k)).map fun l => t.levelOf l.var, k, [], ?_, ?_, ?_⟩
  · rw [levels, ← List.map_append, List.take_append_drop]
  · rw [levels, literals, List.map_append, levels_congr fun l hl => ext.levelOf hl,
      levels_congr fun l hl => h.levelOf valid hl, h.literals]
    simp [level]
  · intro j hj
    obtain ⟨m, hm, rfl⟩ := List.mem_map.1 hj
    refine Nat.lt_of_not_le fun le => ?_
    -- literals of levels up to `k` stand in front of the cut
    have front := valid.mem_take_startOf.2 ⟨List.mem_of_mem_drop hm, le⟩
    have apart := valid.nodup
    rw [← List.take_append_drop (t.startOf k) t.literals, List.nodup_append] at apart
    exact apart.2.2 m front m hm rfl

/-- A decision is progress. -/
theorem progresses_of_append {l : Lit} (literals : t'.literals = t.literals ++ [l])
    (levels : ∀ k ∈ t.literals, t'.levelOf k.var = t.levelOf k.var) : t.Progresses t' := by
  refine ⟨t.levels, [], t'.levelOf l.var, [], by simp, ?_, by simp⟩
  rw [Trail.levels, literals, List.map_append, levels_congr levels]
  rfl

/-! ## The potential -/

/-- The weight of a literal of the level `k` on trails with at most `n` literals. -/
def weight (n k : Nat) : Nat := (n + 1) ^ (n - k)

/-- The sum of the weights. -/
def potential (n : Nat) (ks : List Nat) : Nat := (ks.map (weight n)).sum

theorem potential_append (n : Nat) (xs ys : List Nat) :
    potential n (xs ++ ys) = potential n xs + potential n ys := by
  simp [potential]

theorem potential_le {w : Nat} {ks : List Nat} (h : ∀ k ∈ ks, weight n k ≤ w) :
    potential n ks ≤ ks.length * w := by
  induction ks with
  | nil => simp [potential]
  | cons k ks ih =>
    have := ih fun j hj => h j (.tail _ hj)
    have := h k (.head _)
    simp only [potential, List.map_cons, List.sum_cons, List.length_cons, Nat.add_mul] at *
    omega

/-- A literal weighs more than `n` of higher levels. -/
theorem mul_weight_lt {j k : Nat} (h : k < j) (hj : j ≤ n) :
    n * weight n j < weight n k := by
  have split : n - k = (n - k - 1) + 1 := by omega
  have le : weight n j ≤ (n + 1) ^ (n - k - 1) :=
    Nat.pow_le_pow_right (Nat.succ_pos n) (by omega)
  have pos : 0 < (n + 1) ^ (n - k - 1) := Nat.pow_pos (Nat.succ_pos n)
  calc n * weight n j ≤ n * (n + 1) ^ (n - k - 1) := Nat.mul_le_mul_left n le
    _ < (n + 1) * (n + 1) ^ (n - k - 1) := Nat.mul_lt_mul_of_pos_right (Nat.lt_succ_self n) pos
    _ = weight n k := by rw [weight, split, Nat.pow_succ, Nat.mul_comm, Nat.add_sub_cancel]

/-- Progress adds to the potential. -/
theorem Progresses.potential_lt (h : t.Progresses t') (size : t.length ≤ n)
    (levels : ∀ k ∈ t.levels, k ≤ n) :
    potential n t.levels < potential n t'.levels := by
  obtain ⟨front, back, k, rest, e, e', low⟩ := h
  rw [← length_levels, e, List.length_append] at size
  rw [e, e', potential_append, potential_append]
  have split : potential n (k :: rest) = weight n k + potential n rest := by
    simp [potential]
  have pos : 0 < weight n k := Nat.pow_pos (Nat.succ_pos n)
  refine Nat.add_lt_add_left ?_ _
  rw [split]
  refine Nat.lt_of_lt_of_le ?_ (Nat.le_add_right ..)
  cases back with
  | nil => exact pos
  | cons j back =>
    -- the heaviest of those that are gone
    have bound : ∀ i ∈ j :: back, weight n i ≤ (n + 1) ^ (n - k - 1) := fun i hi =>
      Nat.pow_le_pow_right (Nat.succ_pos n) (by have := low i hi; omega)
    have hk : k < n := Nat.lt_of_lt_of_le (low j (.head _)) (levels j (by simp [e]))
    have top : (n + 1) ^ (n - k - 1) = weight n (k + 1) := by
      rw [weight, Nat.sub_sub]
    rw [top] at bound
    refine Nat.lt_of_le_of_lt (potential_le bound) ?_
    refine Nat.lt_of_le_of_lt (Nat.mul_le_mul_right _ ?_) (mul_weight_lt (Nat.lt_succ_self k) hk)
    omega

theorem Extends.potential_le (h : t.Extends t') :
    potential n t.levels ≤ potential n t'.levels := by
  obtain ⟨more, e⟩ := h.levels
  rw [← e, potential_append]
  exact Nat.le_add_right ..

/-- The potential of a trail with at most `n` literals is bounded. -/
theorem potential_lt_pow (size : t.length ≤ n) :
    potential n t.levels < (n + 1) ^ (n + 1) := by
  have bound : ∀ k ∈ t.levels, weight n k ≤ (n + 1) ^ n := fun k _ =>
    Nat.pow_le_pow_right (Nat.succ_pos n) (Nat.sub_le n k)
  refine Nat.lt_of_le_of_lt (Trail.potential_le bound) ?_
  rw [length_levels, Nat.pow_succ, Nat.mul_comm]
  exact Nat.mul_lt_mul_of_pos_left (Nat.lt_succ_of_le size) (Nat.pow_pos (Nat.succ_pos n))

end ClauseLearning.Trail
