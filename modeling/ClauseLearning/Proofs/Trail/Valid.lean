/-
  Trails with their levels.

  Model. The level of a place of the trail is the number of levels that begin at or before it. A
  trail is valid when it is coherent and the causes keep for every literal the level of its place.
  So levels never decrease along the trail, and the literals of the levels up to some level are
  those in front of the place where the next one begins (`Valid.mem_take_startOf`).

  Rule. `enqueue_yields` appends a literal and `valid_openLevel` opens a level.
-/
import ClauseLearning.Proofs.Trail.Coherent

namespace ClauseLearning.Trail

/-- The level of a place of the trail: how many levels begin at or before it. -/
def levelAt (t : Trail) (i : Nat) : Nat := t.limits.countP (· ≤ i)

/-- The place where the levels above `k` begin. -/
def startOf (t : Trail) (k : Nat) : Nat := t.limits[k]?.getD t.length

/-- A coherent trail whose causes keep the levels of the places. -/
structure Valid (t : Trail) : Prop extends Coherent t where
  /-- Levels begin in their order. -/
  sorted : t.limits.Pairwise (· ≤ ·)
  /-- Levels begin on the trail. -/
  limit_le : ∀ n ∈ t.limits, n ≤ t.length
  /-- The level of a literal is that of its place. -/
  level_eq : ∀ i l, t.literals[i]? = some l → t.levelOf l.var = t.levelAt i

theorem valid_empty : empty.Valid where
  toCoherent := coherent_empty
  sorted := by simp [limits, empty, LevelStack.empty]
  limit_le := by simp [limits, empty, LevelStack.empty]
  level_eq i l h := by simp [literals, empty, LevelStack.empty, LevelStack.toList] at h

theorem levelAt_mono (t : Trail) {i j : Nat} (h : i ≤ j) : t.levelAt i ≤ t.levelAt j :=
  List.countP_mono_left fun n _ hn => by simp only [decide_eq_true_eq] at *; omega

theorem levelAt_le (t : Trail) (i : Nat) : t.levelAt i ≤ t.level := by
  rw [← length_limits]
  exact List.countP_le_length

theorem levelAt_of_le {t : Trail} {i : Nat} (h : ∀ n ∈ t.limits, n ≤ i) :
    t.levelAt i = t.level := by
  rw [← length_limits, levelAt, List.countP_eq_length]
  simpa using h

/-- A level that begins at a place is not there in front of it. -/
theorem levelAt_lt {t : Trail} {i k : Nat} (hk : k ∈ t.limits) (lt : i < k) :
    t.levelAt i < t.levelAt k := by
  obtain ⟨front, back, e⟩ := List.append_of_mem hk
  have mono : ∀ xs : List Nat, xs.countP (· ≤ i) ≤ xs.countP (· ≤ k) := fun xs =>
    List.countP_mono_left fun n _ hn => by simp only [decide_eq_true_eq] at *; omega
  have := mono front
  have := mono back
  have closed : ¬ k ≤ i := by omega
  rw [levelAt, levelAt, e, List.countP_append, List.countP_append, List.countP_cons,
    List.countP_cons]
  simp only [decide_eq_true_eq, closed, if_false, Nat.le_refl, if_true]
  omega

/-- In a sorted list the elements up to a bound come first. -/
theorem countP_le_iff {xs : List Nat} (sorted : xs.Pairwise (· ≤ ·)) (i k : Nat) :
    xs.countP (· ≤ i) ≤ k ↔ ∀ x, xs[k]? = some x → i < x := by
  constructor
  · intro h x hx
    refine Nat.lt_of_not_le fun hle => ?_
    have front : ∀ y ∈ xs.take (k + 1), y ≤ i := by
      intro y hy
      obtain ⟨j, hj, rfl⟩ := List.mem_take_iff_getElem.1 hy
      obtain ⟨hk, rfl⟩ := List.getElem?_eq_some_iff.1 hx
      rcases Nat.lt_or_ge j k with hjk | hjk
      · have := List.pairwise_iff_getElem.1 sorted j k (by omega) hk hjk
        omega
      · have : j = k := by omega
        subst this
        omega
    have hk := (List.getElem?_eq_some_iff.1 hx).1
    have many : (xs.take (k + 1)).countP (· ≤ i) = k + 1 := by
      rw [List.countP_eq_length.2 (by simpa using front), List.length_take]
      omega
    have := (List.take_sublist (k + 1) xs).countP_le (p := (· ≤ i))
    omega
  · intro h
    have back : (xs.drop k).countP (· ≤ i) = 0 := by
      rw [List.countP_eq_zero]
      intro y hy
      obtain ⟨j, hj, rfl⟩ := List.mem_iff_getElem.1 hy
      rw [List.length_drop] at hj
      have first := h xs[k] (List.getElem?_eq_getElem (by omega))
      rw [List.getElem_drop, decide_eq_true_eq]
      rcases Nat.eq_zero_or_pos j with rfl | pos
      · simpa using first
      · have := List.pairwise_iff_getElem.1 sorted k (k + j) (by omega) (by omega) (by omega)
        omega
    have split : xs.countP (· ≤ i) = (xs.take k).countP (· ≤ i) + (xs.drop k).countP (· ≤ i) := by
      rw [← List.countP_append, List.take_append_drop]
    have := List.countP_le_length (p := (· ≤ i)) (l := xs.take k)
    rw [List.length_take] at this
    omega

namespace Valid

variable {t : Trail} {l : Lit} {i j k : Nat}

theorem lt_startOf_iff (h : t.Valid) (hi : i < t.length) :
    i < t.startOf k ↔ t.levelAt i ≤ k := by
  rw [levelAt, countP_le_iff h.sorted, startOf]
  cases e : t.limits[k]? with
  | none => simpa using hi
  | some x => simp

/-- The level of a literal on the trail is at most the current one. -/
theorem levelOf_le (h : t.Valid) (hl : l ∈ t.literals) : t.levelOf l.var ≤ t.level := by
  obtain ⟨i, hi⟩ := List.getElem?_of_mem hl
  rw [h.level_eq i l hi]
  exact t.levelAt_le i

theorem startOf_le (h : t.Valid) (k : Nat) : t.startOf k ≤ t.length := by
  unfold startOf
  cases e : t.limits[k]? with
  | none => simp
  | some x => exact h.limit_le x (List.mem_of_getElem? e)

theorem startOf_mono (h : t.Valid) (le : j ≤ k) : t.startOf j ≤ t.startOf k := by
  cases e : t.limits[k]? with
  | none =>
    rw [show t.startOf k = t.length by rw [startOf, e]; rfl]
    exact h.startOf_le j
  | some x =>
    obtain ⟨hk, rfl⟩ := List.getElem?_eq_some_iff.1 e
    rw [startOf, startOf, e, List.getElem?_eq_getElem (by omega)]
    rcases Nat.lt_or_eq_of_le le with lt | rfl
    · exact List.pairwise_iff_getElem.1 h.sorted j k (by omega) hk lt
    · exact Nat.le_refl _

theorem startOf_level (t : Trail) : t.startOf t.level = t.length := by
  unfold startOf
  rw [← length_limits, List.getElem?_eq_none (Nat.le_refl _)]
  rfl

/-- The literals of levels up to `k` are those in front of the place where the others begin. -/
theorem mem_take_startOf (h : t.Valid) :
    l ∈ t.literals.take (t.startOf k) ↔ l ∈ t.literals ∧ t.levelOf l.var ≤ k := by
  constructor
  · intro hl
    obtain ⟨i, hi⟩ := List.getElem?_of_mem hl
    rw [List.getElem?_take] at hi
    split at hi
    · rename_i lt
      have place := (List.getElem?_eq_some_iff.1 hi).1
      rw [length_literals] at place
      refine ⟨List.mem_of_getElem? hi, ?_⟩
      rw [h.level_eq i l hi]
      exact (h.lt_startOf_iff place).1 lt
    · cases hi
  · rintro ⟨hl, le⟩
    obtain ⟨i, hi⟩ := List.getElem?_of_mem hl
    have place := (List.getElem?_eq_some_iff.1 hi).1
    rw [length_literals] at place
    rw [h.level_eq i l hi] at le
    refine List.mem_of_getElem? (i := i) ?_
    rw [List.getElem?_take, if_pos ((h.lt_startOf_iff place).2 le), hi]

/-- So going back to a level leaves the literals of the levels up to this one, in their order. -/
theorem take_startOf (h : t.Valid) (k : Nat) :
    t.literals.take (t.startOf k) = t.literals.filter fun l => t.levelOf l.var ≤ k := by
  have front : ∀ l ∈ t.literals.take (t.startOf k), t.levelOf l.var ≤ k := fun l hl =>
    (h.mem_take_startOf.1 hl).2
  have behind : ∀ l ∈ t.literals.drop (t.startOf k), ¬ t.levelOf l.var ≤ k := fun l hl le =>
    List.disjoint_take_drop h.nodup (Nat.le_refl _)
      (h.mem_take_startOf.2 ⟨List.mem_of_mem_drop hl, le⟩) hl
  conv => rhs; rw [← List.take_append_drop (t.startOf k) t.literals]
  rw [List.filter_append, List.filter_eq_self.2 (by simpa using front),
    List.filter_eq_nil_iff.2 (by simpa using behind), List.append_nil]

end Valid

/-! ## Growing -/

/-- The literals of the first trail are on the second one, with their levels. -/
def Keeps (t t' : Trail) : Prop :=
  ∀ l ∈ t.literals, l ∈ t'.literals ∧ t'.levelOf l.var = t.levelOf l.var

/-- The second trail is the first one with further literals of the current level. -/
structure Extends (t t' : Trail) : Prop where
  /-- The literals stay in front. -/
  literals : t.literals <+: t'.literals
  /-- No level begins or ends. -/
  limits : t'.limits = t.limits
  /-- No variable comes or goes. -/
  knows : ∀ v, t'.Knows v ↔ t.Knows v
  /-- The literals keep their causes. -/
  causes : ∀ l ∈ t.literals, t'.causeAt l.var = t.causeAt l.var

namespace Extends

variable {t t' t'' : Trail}

theorem refl (t : Trail) : t.Extends t := ⟨List.prefix_rfl, rfl, fun _ => Iff.rfl, fun _ _ => rfl⟩

theorem trans (h : t.Extends t') (h' : t'.Extends t'') : t.Extends t'' where
  literals := h.literals.trans h'.literals
  limits := h'.limits.trans h.limits
  knows v := (h'.knows v).trans (h.knows v)
  causes l hl := (h'.causes l (h.literals.subset hl)).trans (h.causes l hl)

theorem level (h : t.Extends t') : t'.level = t.level := by
  rw [← length_limits, ← length_limits, h.limits]

theorem mem (h : t.Extends t') {l : Lit} (hl : l ∈ t.literals) : l ∈ t'.literals :=
  h.literals.subset hl

theorem getElem? (h : t.Extends t') {i : Nat} {l : Lit} (hl : t.literals[i]? = some l) :
    t'.literals[i]? = some l := by
  obtain ⟨more, e⟩ := h.literals
  rw [← e, List.getElem?_append_left (List.getElem?_eq_some_iff.1 hl).1, hl]

theorem take (h : t.Extends t') {n : Nat} (hn : n ≤ t.length) :
    t'.literals.take n = t.literals.take n := by
  obtain ⟨more, e⟩ := h.literals
  rw [← e, List.take_append_of_le_length (by rwa [length_literals])]

theorem length_le (h : t.Extends t') : t.length ≤ t'.length := by
  rw [← length_literals, ← length_literals]
  exact h.literals.length_le

theorem levelOf (h : t.Extends t') {l : Lit} (hl : l ∈ t.literals) :
    t'.levelOf l.var = t.levelOf l.var := by
  rw [levelOf_eq, levelOf_eq, h.causes l hl]

theorem keeps (h : t.Extends t') : t.Keeps t' := fun _ hl => ⟨h.mem hl, h.levelOf hl⟩

theorem levelAt (h : t.Extends t') (i : Nat) : t'.levelAt i = t.levelAt i := by
  rw [Trail.levelAt, Trail.levelAt, h.limits]

end Extends

/-- Making a literal without a value true appends it, with the current level and the reason. -/
theorem enqueue_yields {t : Trail} {l : Lit} (h : t.Valid) (known : t.Knows l.var)
    (hl : l ∉ t.literals) (hn : -l ∉ t.literals) (reason : Option ClauseRef) :
    Yields (t.enqueue l reason) fun r =>
      r.1 = true ∧ r.2.Valid ∧ t.Extends r.2 ∧ r.2.literals = t.literals ++ [l] ∧
        ∀ v, r.2.causeAt v = if v = l.var then ⟨t.level, reason⟩ else t.causeAt v := by
  unfold enqueue
  rw [h.litValue?_eq_none hl hn]
  refine (assign_yields h.toCoherent known hl hn reason).bind
    fun t' ⟨coherent, literals, limits, knows, cause⟩ => .pure ?_
  have other : ∀ k ∈ t.literals, k.var ≠ l.var := by
    intro k hk e
    rcases Lit.eq_of_var_eq e with rfl | rfl
    · exact hl hk
    · exact hn hk
  have ext : t.Extends t' :=
    ⟨literals ▸ List.prefix_append .., limits, knows, fun k hk => by
      rw [cause, if_neg (other k hk)]⟩
  refine ⟨rfl, ⟨coherent, limits ▸ h.sorted, ?_, ?_⟩, ext, literals, cause⟩
  · intro n hn
    rw [limits] at hn
    exact Nat.le_trans (h.limit_le n hn) ext.length_le
  · intro i k hk
    rw [ext.levelAt i]
    rw [literals, List.getElem?_append] at hk
    split at hk
    · have hmem := List.mem_of_getElem? hk
      rw [ext.levelOf hmem, h.level_eq i k hk]
    · rename_i ge
      rw [length_literals] at ge
      obtain rfl : k = l := by simpa using List.mem_of_getElem? hk
      rw [levelOf_eq, cause, if_pos rfl]
      refine (levelAt_of_le fun n hn => ?_).symm
      have := h.limit_le n hn
      omega

/-- A literal with a value is not made true again. -/
theorem enqueue_of_mem {t : Trail} {l : Lit} (h : t.Coherent) (hl : l ∈ t.literals)
    (reason : Option ClauseRef) : t.enqueue l reason = .ok (true, t) := by
  rw [enqueue, h.litValue?_eq hl]

theorem enqueue_of_neg_mem {t : Trail} {l : Lit} (h : t.Coherent) (hl : -l ∈ t.literals)
    (reason : Option ClauseRef) : t.enqueue l reason = .ok (false, t) := by
  rw [enqueue, h.litValue?_eq_false hl]

theorem register_valid {t : Trail} (h : t.Valid) (v : Var) :
    Yields (t.register v) fun t' =>
      t'.Valid ∧ t'.literals = t.literals ∧ t'.limits = t.limits ∧
        (∀ w, t'.Knows w ↔ w = v ∨ t.Knows w) ∧ t'.causeAt = t.causeAt := by
  refine (register_yields h.toCoherent v).mono
    fun t' ⟨coherent, literals, limits, knows, cause⟩ => ?_
  refine ⟨⟨coherent, limits ▸ h.sorted, ?_, ?_⟩, literals, limits, knows, cause⟩
  · intro n hn
    rw [← length_literals, literals, length_literals]
    exact h.limit_le n (limits ▸ hn)
  · intro i l hl
    rw [levelOf_eq, cause, levelAt, limits]
    exact h.level_eq i l (literals ▸ hl)

/-! ## Opening and leaving levels -/

theorem limits_openLevel (t : Trail) : t.openLevel.limits = t.limits ++ [t.length] := by
  simp [openLevel, limits, LevelStack.openLevel, length, LevelStack.size]

theorem level_openLevel (t : Trail) : t.openLevel.level = t.level + 1 := by
  rw [← length_limits, limits_openLevel, ← length_limits]
  simp

theorem valid_openLevel {t : Trail} (h : t.Valid) : t.openLevel.Valid where
  toCoherent := ⟨h.counted, h.value_iff, h.nodup, h.room⟩
  sorted := by
    rw [limits_openLevel, List.pairwise_append]
    refine ⟨h.sorted, by simp, fun n hn m hm => ?_⟩
    rw [List.mem_singleton.1 hm]
    exact h.limit_le n hn
  limit_le n hn := by
    rw [limits_openLevel, List.mem_append, List.mem_singleton] at hn
    rcases hn with hn | rfl
    · exact h.limit_le n hn
    · exact Nat.le_refl _
  level_eq i l hl := by
    have place := (List.getElem?_eq_some_iff.1 hl).1
    have below : ¬ t.length ≤ i := by
      rw [length_literals] at place
      exact Nat.not_le.2 place
    rw [levelAt, limits_openLevel, List.countP_append, List.countP_singleton]
    rw [decide_eq_false below]
    exact h.level_eq i l hl

end ClauseLearning.Trail
