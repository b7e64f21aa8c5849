/-
  Going back to a level.

  Model. Taking back the newest literals cuts the trail (`Cut`): the literals in front of the cut
  stay with their causes, and the variables of the others have none any more. Going back to the
  level `k` cuts a valid trail at the place where the levels above `k` begin
  (`cancelUntil_yields`), so exactly the literals of the levels up to `k` stay
  (`Backtracks.mem_iff`).
-/
import ClauseLearning.Proofs.Trail.Valid

namespace ClauseLearning.Trail

/-- The second trail is the first one cut to its first `n` literals. -/
structure Cut (t t' : Trail) (n : Nat) : Prop where
  /-- The literals in front of the cut are left. -/
  literals : t'.literals = t.literals.take n
  /-- No variable comes or goes. -/
  knows : ∀ v, t'.Knows v ↔ t.Knows v
  /-- The variables of the literals that are gone have no cause any more; others keep theirs. -/
  causes : ∀ v, t'.causeAt v =
    if (∃ l ∈ t.literals.drop n, l.var = v) then Cause.none else t.causeAt v

theorem Cut.trans {t t' t'' : Trail} {m n : Nat} (h : t.Cut t' m) (h' : t'.Cut t'' n)
    (le : n ≤ m) : t.Cut t'' n where
  literals := by rw [h'.literals, h.literals, List.take_take, Nat.min_eq_left le]
  knows v := (h'.knows v).trans (h.knows v)
  causes v := by
    have gone : (∃ l ∈ t.literals.drop n, l.var = v) ↔
        (∃ l ∈ t'.literals.drop n, l.var = v) ∨ ∃ l ∈ t.literals.drop m, l.var = v := by
      have parts : t.literals.drop n = (t.literals.take m).drop n ++ t.literals.drop m := by
        conv => lhs; rw [← List.take_append_drop m t.literals]
        rw [List.drop_append]
        congr 1
        rw [List.length_take, List.drop_drop]
        rcases Nat.le_total m t.literals.length with hm | hm
        · congr 1
          omega
        · rw [List.drop_eq_nil_of_le (by omega), List.drop_eq_nil_of_le (by omega)]
      rw [parts, h.literals]
      simp only [List.mem_append, or_and_right, exists_or]
    rw [h'.causes v, h.causes v]
    by_cases h₁ : ∃ l ∈ t'.literals.drop n, l.var = v
    · rw [if_pos h₁, if_pos (gone.2 (.inl h₁))]
    · by_cases h₂ : ∃ l ∈ t.literals.drop m, l.var = v
      · rw [if_neg h₁, if_pos h₂, if_pos (gone.2 (.inr h₂))]
      · rw [if_neg h₁, if_neg h₂, if_neg fun h => (gone.1 h).elim h₁ h₂]

theorem undoMany_yields {t : Trail} (h : t.Coherent) {n : Nat} (hn : n ≤ t.length) :
    Yields (undoMany n t) fun t' =>
      t'.Coherent ∧ t.Cut t' (t.length - n) ∧ t'.limits = t.limits := by
  induction n generalizing t with
  | zero =>
    have all : t.literals.drop (t.length - 0) = [] := by
      rw [List.drop_eq_nil_of_le (by rw [length_literals]; omega)]
    refine .ok ⟨h, ⟨?_, fun _ => Iff.rfl, fun v => ?_⟩, rfl⟩
    · rw [List.take_of_length_le (by rw [length_literals]; omega)]
    · rw [all]
      simp
  | succ n ih =>
    have pos : 0 < t.literals.length := by rw [length_literals]; omega
    obtain ⟨ls, l, e⟩ : ∃ ls l, t.literals = ls ++ [l] :=
      ⟨_, _, (List.dropLast_concat_getLast (List.length_pos_iff.1 pos)).symm⟩
    have size : t.length = ls.length + 1 := by rw [← length_literals, e]; simp
    refine (undo_yields h e).bind fun t₁ ⟨coherent₁, lits₁, lims₁, knows₁, cause₁⟩ => ?_
    have size₁ : t₁.length = ls.length := by rw [← length_literals, lits₁]
    have cut₁ : t.Cut t₁ ls.length := by
      refine ⟨by rw [lits₁, e, List.take_left], knows₁, fun v => ?_⟩
      have gone : t.literals.drop ls.length = [l] := by rw [e, List.drop_left]
      simp only [gone, List.mem_singleton, exists_eq_left, cause₁ v, eq_comm (a := v)]
    refine (ih coherent₁ (by omega)).mono fun t₂ ⟨coherent₂, cut₂, lims₂⟩ => ?_
    have cut := cut₁.trans cut₂ (by omega)
    rw [show t.length - (n + 1) = t₁.length - n by omega]
    exact ⟨coherent₂, cut, lims₂.trans lims₁⟩

namespace Cut

variable {t t' : Trail} {n : Nat} {l : Lit}

theorem refl (t : Trail) : t.Cut t t.length where
  literals := by rw [← length_literals, List.take_length]
  knows _ := Iff.rfl
  causes v := by
    rw [← length_literals, List.drop_length]
    simp

theorem mem (h : t.Cut t' n) (hl : l ∈ t'.literals) : l ∈ t.literals :=
  List.mem_of_mem_take (h.literals ▸ hl)

/-- A literal that is left keeps its cause. -/
theorem cause_of_mem (h : t.Cut t' n) (c : t.Coherent) (hl : l ∈ t'.literals) :
    t'.causeAt l.var = t.causeAt l.var := by
  rw [h.causes, if_neg]
  rintro ⟨k, hk, e⟩
  obtain rfl := c.eq_of_var_eq (List.mem_of_mem_drop hk) (h.mem hl) e
  have apart := c.nodup
  rw [← List.take_append_drop n t.literals, List.nodup_append] at apart
  exact apart.2.2 k (h.literals ▸ hl) k hk rfl

theorem getElem? (h : t.Cut t' n) {i : Nat} (hl : t'.literals[i]? = some l) :
    i < n ∧ t.literals[i]? = some l := by
  rw [h.literals, List.getElem?_take] at hl
  split at hl
  · exact ⟨‹_›, hl⟩
  · cases hl

end Cut

/-- The second trail is the first one gone back to the level `k`. -/
structure Backtracks (t t' : Trail) (k : Nat) : Prop extends Cut t t' (t.startOf k) where
  /-- The levels above `k` are closed. -/
  limits : t'.limits = t.limits.take k

namespace Backtracks

variable {t t' : Trail} {k : Nat} {l : Lit}

theorem level (h : t.Backtracks t' k) (hk : k ≤ t.level) : t'.level = k := by
  rw [← length_limits, h.limits, List.length_take, length_limits, Nat.min_eq_left hk]

theorem length (h : t.Backtracks t' k) (v : t.Valid) : t'.length = t.startOf k := by
  rw [← length_literals, h.literals, List.length_take, length_literals,
    Nat.min_eq_left (v.startOf_le k)]

/-- The literals of the levels up to `k` are left. -/
theorem mem_iff (h : t.Backtracks t' k) (v : t.Valid) :
    l ∈ t'.literals ↔ l ∈ t.literals ∧ t.levelOf l.var ≤ k := by
  rw [h.literals, v.mem_take_startOf]

theorem levelOf (h : t.Backtracks t' k) (v : t.Valid) (hl : l ∈ t'.literals) :
    t'.levelOf l.var = t.levelOf l.var := by
  rw [levelOf_eq, levelOf_eq, h.cause_of_mem v.toCoherent hl]

/-- Going back keeps a trail valid. -/
theorem valid (h : t.Backtracks t' k) (v : t.Valid) (c : t'.Coherent) : t'.Valid where
  toCoherent := c
  sorted := by
    rw [h.limits]
    exact v.sorted.sublist (List.take_sublist ..)
  limit_le n hn := by
    rw [h.limits] at hn
    rw [h.length v, startOf]
    cases e : t.limits[k]? with
    | none => exact v.limit_le n (List.mem_of_mem_take hn)
    | some x =>
      obtain ⟨i, hi, rfl⟩ := List.mem_take_iff_getElem.1 hn
      obtain ⟨hk, rfl⟩ := List.getElem?_eq_some_iff.1 e
      exact List.pairwise_iff_getElem.1 v.sorted i k (by omega) hk (by omega)
  level_eq i l hl := by
    obtain ⟨lt, old⟩ := h.getElem? hl
    rw [h.levelOf v (List.mem_of_getElem? hl), v.level_eq i l old, levelAt, levelAt, h.limits]
    -- the levels that are closed begin behind the place
    have behind : (t.limits.drop k).countP (· ≤ i) = 0 := by
      rw [List.countP_eq_zero]
      intro n hn
      obtain ⟨j, hj, rfl⟩ := List.mem_iff_getElem.1 hn
      rw [List.length_drop] at hj
      rw [startOf, List.getElem?_eq_getElem (by omega), Option.getD_some] at lt
      rw [List.getElem_drop, decide_eq_true_eq]
      rcases Nat.eq_zero_or_pos j with rfl | pos
      · simpa using lt
      · have := List.pairwise_iff_getElem.1 v.sorted k (k + j) (by omega) (by omega) (by omega)
        omega
    conv => lhs; rw [← List.take_append_drop k t.limits]
    rw [List.countP_append, behind, Nat.add_zero]

theorem trans {t'' : Trail} {j : Nat} (h : t.Backtracks t' k) (h' : t'.Backtracks t'' j)
    (v : t.Valid) (hj : j ≤ k) (hk : k ≤ t.level) : t.Backtracks t'' j := by
  have start : t'.startOf j = t.startOf j := by
    rcases Nat.lt_or_eq_of_le hj with lt | rfl
    · have place : t'.limits[j]? = t.limits[j]? := by rw [h.limits, List.getElem?_take_of_lt lt]
      rw [startOf, startOf, place, List.getElem?_eq_getElem (by rw [length_limits]; omega)]
      rfl
    · conv => lhs; rw [← h.level hk, Valid.startOf_level, h.length v]
  refine ⟨h.toCut.trans (start ▸ h'.toCut) (v.startOf_mono hj), ?_⟩
  rw [h'.limits, h.limits, List.take_take, Nat.min_eq_left hj]

end Backtracks

theorem cancel_yields {t : Trail} (h : t.Valid) (pos : 0 < t.level) :
    Yields t.cancel fun t' => t'.Valid ∧ t.Backtracks t' (t.level - 1) := by
  obtain ⟨assignment, causes, entries⟩ := t
  have many : 0 < entries.limits.toList.length := by
    rwa [← length_limits] at pos
  obtain ⟨ls, start, e⟩ : ∃ ls start, entries.limits.toList = ls ++ [start] :=
    ⟨_, _, (List.dropLast_concat_getLast (List.length_pos_iff.1 many)).symm⟩
  have top : entries.limits.back? = some start := by
    rw [← Array.getLast?_toList, e, List.getLast?_concat]
  have below : entries.limits.pop.toList = ls := by
    rw [Array.toList_pop, e, List.dropLast_concat]
  have size : level ⟨assignment, causes, entries⟩ = ls.length + 1 := by
    have := length_limits ⟨assignment, causes, entries⟩
    rw [← this, limits, e]
    simp
  have place : startOf ⟨assignment, causes, entries⟩ ls.length = start := by
    simp [startOf, limits, e]
  have leave : entries.leaveLevel =
      .ok (start, ⟨entries.values, entries.limits.pop⟩) := by
    rw [LevelStack.leaveLevel, top]
  have inside : start ≤ entries.size := h.limit_le start (by simp [limits, e])
  have coherent : Coherent ⟨assignment, causes, ⟨entries.values, entries.limits.pop⟩⟩ :=
    ⟨h.counted, h.value_iff, h.nodup, h.room⟩
  simp only [cancel, leave]
  refine (undoMany_yields coherent (n := entries.size - start) (Nat.sub_le ..)).mono
    fun t' undone => ?_
  obtain ⟨coherent', cut, lims⟩ := undone
  have same : LevelStack.size ⟨entries.values, entries.limits.pop⟩ = entries.size := rfl
  rw [show length _ - (entries.size - start) = start by
    change entries.size - (entries.size - start) = start
    omega] at cut
  have back : Backtracks ⟨assignment, causes, entries⟩ t' ls.length := by
    refine ⟨place ▸ ⟨cut.literals, cut.knows, cut.causes⟩, ?_⟩
    rw [lims, limits, limits, e, List.take_left]
    exact below
  rw [size, Nat.add_sub_cancel]
  exact ⟨back.valid h coherent', back⟩

theorem cancelMany_yields {t : Trail} (h : t.Valid) {n : Nat} (hn : n ≤ t.level) :
    Yields (cancelMany n t) fun t' => t'.Valid ∧ t.Backtracks t' (t.level - n) := by
  induction n generalizing t with
  | zero =>
    refine .ok ⟨h, ?_, ?_⟩
    · rw [Nat.sub_zero, Valid.startOf_level]
      exact .refl t
    · rw [List.take_of_length_le (by rw [length_limits]; omega)]
  | succ n ih =>
    refine (cancel_yields h (by omega)).bind fun t₁ ⟨valid₁, back₁⟩ => ?_
    have level₁ := back₁.level (Nat.sub_le ..)
    refine (ih valid₁ (by omega)).mono fun t₂ ⟨valid₂, back₂⟩ => ⟨valid₂, ?_⟩
    rw [show t.level - (n + 1) = t₁.level - n by omega]
    exact back₁.trans back₂ h (by omega) (Nat.sub_le ..)

/-- Going back to a level that is not above the current one succeeds. -/
theorem cancelUntil_yields {t : Trail} (h : t.Valid) {k : Nat} (hk : k ≤ t.level) :
    Yields (t.cancelUntil k) fun t' => t'.Valid ∧ t.Backtracks t' k := by
  rw [cancelUntil, if_pos hk]
  have := cancelMany_yields h (n := t.level - k) (Nat.sub_le ..)
  rwa [Nat.sub_sub_self hk] at this

end ClauseLearning.Trail
