/-
  The numbers kept beside an assignment.

  Model. An assignment is counted when the numbers of values and of variables it keeps are what
  counting over its states gives. Giving or taking a value keeps it counted and changes the state
  of one variable only (`set_yields`). In a counted assignment, comparing the two numbers says
  whether a variable of the problem is left without a value (`complete_iff`).
-/
import Mathlib.Data.List.Perm.Subperm
import ClauseLearning.Assignment
import ClauseLearning.Proofs.Success

namespace ClauseLearning

namespace Table

variable {α : Type}

/-- How many keys have a value with the property. -/
def count (t : Table α) (has : α → Bool) : Nat := t.entries.countP has

theorem count_grow {t : Table α} {k : Nat} {a : α} {has : α → Bool} (h : has a = false) :
    (t.grow k a).count has = t.count has := by
  unfold grow
  split
  · rfl
  · simp [count, Array.countP_replicate, h]

theorem le_count {t : Table α} {k : Nat} {a : α} (h : t.get? k = some a) (has : α → Bool) :
    (has a).toNat ≤ t.count has := by
  cases ha : has a with
  | false => simp
  | true => exact Array.countP_pos_iff.2 ⟨a, Array.mem_of_getElem? h, ha⟩

theorem count_of_set {t t' : Table α} {k : Nat} {a b : α} (h : t.set k b = .ok t')
    (old : t.get? k = some a) (has : α → Bool) :
    t'.count has + (has a).toNat = t.count has + (has b).toNat := by
  have hk : k < t.entries.size := lt_size_of_get? old
  have hka : t.entries[k] = a := by
    rw [get?, Array.getElem?_eq_some_iff] at old
    exact old.2
  rw [set, if_pos (show k < t.size from hk)] at h
  cases h
  have bound : (has a).toNat ≤ t.entries.countP has := le_count old has
  simp only [count, Array.setIfInBounds, dif_pos hk, Array.countP_set, hka]
  cases ha : has a <;> cases hb : has b <;> simp only [ha, Bool.toNat_true] at bound <;> simp
  · omega
  · omega

theorem count_eq_zero {t : Table α} {has : α → Bool} :
    t.count has = 0 ↔ ∀ k a, t.get? k = some a → has a = false := by
  simp only [count, Array.countP_eq_zero, Bool.not_eq_true]
  constructor
  · intro h k a hk
    exact h a (Array.mem_of_getElem? hk)
  · intro h a ha
    obtain ⟨k, hk⟩ := Array.getElem?_of_mem ha
    exact h k a hk

/-- Counting is selecting. -/
theorem length_keysWith (t : Table α) (has : α → Bool) :
    (t.keysWith has).length = t.count has := by
  have same : (List.range t.size).map t.get? = t.entries.toList.map some :=
    List.ext_getElem (by simp [size]) fun i _ h => by
      rw [List.length_map, Array.length_toList] at h
      simp [get?, Array.getElem?_eq_getElem h]
  have := congrArg (List.countP (Option.any has)) same
  rw [keysWith_eq_filter, ← List.countP_eq_length_filter, keys, count, ← Array.countP_toList]
  rwa [List.countP_map, List.countP_map] at this

theorem set_yields {t : Table α} {k : Nat} (h : k < t.size) (a : α) :
    Yields (t.set k a) fun t' =>
      t'.size = t.size ∧ ∀ i, t'.get? i = if i = k then some a else t.get? i :=
  have e : t.set k a = .ok _ := if_pos h
  ⟨_, e, size_of_set e, get?_of_set e⟩

theorem update_yields {t : Table α} {k : Nat} (h : k < t.size) (f : α → α) :
    Yields (t.update k f) fun t' =>
      t'.size = t.size ∧ ∀ i, t'.get? i = if i = k then (t.get? k).map f else t.get? i :=
  have e : t.update k f = .ok _ := if_pos h
  ⟨_, e, size_of_update e, get?_of_update e⟩

theorem get?_isSome_of_lt {t : Table α} {k : Nat} (h : k < t.size) : ∃ a, t.get? k = some a := by
  cases e : t.get? k with
  | some a => exact ⟨a, rfl⟩
  | none => exact absurd (get?_eq_none_iff.1 e) (by omega)

theorem read_yields {t : Table α} {k : Nat} (h : k < t.size) :
    Yields (t.read k) (t.get? k = some ·) := by
  obtain ⟨a, ha⟩ := get?_isSome_of_lt h
  exact .of_eq (read_eq_ok_iff.2 ha) ha

end Table

namespace Assignment

/-- The numbers kept beside the states are right. -/
structure Counted (a : Assignment) : Prop where
  /-- The number of variables with a value. -/
  assigned : a.numAssigned = a.states.count VarState.isAssigned
  /-- The number of variables of the problem. -/
  known : a.numVariables = a.states.count VarState.isKnown

theorem counted_empty : empty.Counted := ⟨rfl, rfl⟩

theorem state_of_get? {a : Assignment} {v : Var} {x : VarState} (h : a.states.get? v = some x) :
    a.state v = x := by
  simp [state, stateIn, h]

theorem lt_capacity_of_known {a : Assignment} {v : Var} (h : a.contains v = true) :
    v < a.states.size := by
  cases e : a.states.get? v with
  | some x => exact Table.lt_size_of_get? e
  | none => simp [contains, state, stateIn, e, VarState.isKnown] at h

theorem get?_of_known {a : Assignment} {v : Var} (h : a.contains v = true) :
    a.states.get? v = some (a.state v) := by
  obtain ⟨x, hx⟩ := Table.get?_isSome_of_lt (lt_capacity_of_known h)
  rw [hx, state_of_get? hx]

theorem contains_of_state {a : Assignment} {v : Var} {b : Bool} (h : a.state v = .assigned b) :
    a.contains v = true := by
  simp [contains, h, VarState.isKnown]

theorem contains_of_isUnassigned {a : Assignment} {v : Var} (h : a.isUnassigned v = true) :
    a.contains v = true := by
  unfold isUnassigned at h
  unfold contains
  cases e : a.state v <;> simp [e, VarState.isUnassigned, VarState.isKnown] at h ⊢

/-! ## One operation -/

/-- The new count is what counting gives afterwards; the state that was there is counted, so
    taking it out never fails. -/
theorem recount_yields {t t' : Table VarState} {v : Var} {old new : VarState}
    (has : VarState → Bool) (hold : t.get? v = some old) (hset : t.set v new = .ok t') :
    Yields (recount has (t.count has) old new) (· = t'.count has) := by
  have counted := Table.le_count hold has
  have moved := Table.count_of_set hset hold has
  unfold recount
  rw [difference_eq counted]
  refine .ok_bind (.pure ?_)
  omega

theorem put_yields {a : Assignment} {v : Var} (c : a.Counted) (hv : v < a.states.size)
    (new : VarState) :
    Yields (a.put v new) fun a' =>
      a'.Counted ∧ (∀ w, a'.state w = if w = v then new else a.state w) := by
  obtain ⟨states, log, numAssigned, numVariables⟩ := a
  obtain rfl : numAssigned = states.count VarState.isAssigned := c.assigned
  obtain rfl : numVariables = states.count VarState.isKnown := c.known
  obtain ⟨old, hold⟩ := Table.get?_isSome_of_lt hv
  obtain ⟨states', hset, -, get⟩ := Table.set_yields hv new
  have previous : stateIn states v = old := by simp [stateIn, hold]
  simp only [put, previous]
  refine (recount_yields VarState.isAssigned hold hset).bind fun assigned ha => ?_
  refine (recount_yields VarState.isKnown hold hset).bind fun known hk => ?_
  rw [hset]
  refine .ok_bind (.pure ⟨⟨ha, hk⟩, fun w => ?_⟩)
  simp only [state, stateIn, get]
  split <;> rfl

theorem counted_reserve {a : Assignment} (c : a.Counted) (v : Var) : (a.reserve v).Counted := by
  obtain ⟨states, log, numAssigned, numVariables⟩ := a
  refine ⟨?_, ?_⟩
  · exact c.assigned.trans (Table.count_grow rfl).symm
  · exact c.known.trans (Table.count_grow rfl).symm

theorem state_reserve (a : Assignment) (v w : Var) : (a.reserve v).state w = a.state w := by
  obtain ⟨states, log, numAssigned, numVariables⟩ := a
  exact states.getD_grow v .missing w

theorem lt_size_reserve (a : Assignment) (v : Var) : v < (a.reserve v).states.size := by
  obtain ⟨states, log, numAssigned, numVariables⟩ := a
  exact states.lt_size_grow v .missing

/-- A variable takes a value it may take, and nothing else changes. -/
theorem set_yields {a : Assignment} {v : Var} (c : a.Counted) (value : Option Bool)
    (free : ∀ b, a.state v = .assigned b → value = none) :
    Yields (a.set v value) fun a' =>
      a'.Counted ∧ (∀ w, a'.state w = if w = v then .ofValue value else a.state w) := by
  have plain : a.set v value = (a.reserve v).put v (.ofValue value) := by
    unfold set
    split
    · rename_i h e
      rw [free _ h] at e
      cases e
    · rename_i h e
      rw [free _ h] at e
      cases e
    · rfl
  rw [plain]
  refine (put_yields (counted_reserve c v) (lt_size_reserve a v) _).mono fun a' h => ⟨h.1, ?_⟩
  intro w
  rw [h.2 w, state_reserve]

/-- A variable that was set is part of the problem, besides those that were. -/
theorem contains_of_set {a a' : Assignment} {v : Var} {value : Option Bool}
    (state : ∀ w, a'.state w = if w = v then .ofValue value else a.state w) (w : Var) :
    a'.contains w = true ↔ w = v ∨ a.contains w = true := by
  rw [contains, state w]
  split
  · rename_i e
    cases value <;> simp [e, VarState.ofValue, VarState.isKnown]
  · rename_i e
    simp [e, contains]

/-! ## Comparing the numbers -/

theorem count_known (a : Assignment) :
    a.states.count VarState.isKnown =
      a.states.count VarState.isAssigned + a.states.count VarState.isUnassigned := by
  obtain ⟨⟨states⟩, _⟩ := a
  induction states with
  | _ xs =>
    simp only [Table.count, List.countP_toArray]
    induction xs with
    | nil => rfl
    | cons x xs ih =>
      simp only [List.countP_cons, ih]
      cases x <;> simp [VarState.isKnown, VarState.isAssigned, VarState.isUnassigned] <;> omega

/-- No more variables have a value than there are variables. -/
theorem Counted.numAssigned_le {a : Assignment} (c : a.Counted) :
    a.numAssigned ≤ a.numVariables := by
  rw [c.assigned, c.known, count_known]
  exact Nat.le_add_right ..

/-- The numbers agree exactly when no variable of the problem is without a value. -/
theorem complete_iff {a : Assignment} (c : a.Counted) :
    a.numAssigned = a.numVariables ↔ ∀ v, a.isUnassigned v = false := by
  have split := count_known a
  have zero : a.numAssigned = a.numVariables ↔ a.states.count VarState.isUnassigned = 0 := by
    rw [c.assigned, c.known]
    omega
  rw [zero, Table.count_eq_zero]
  constructor
  · intro h v
    cases e : a.states.get? v with
    | some x => rw [isUnassigned, state_of_get? e, h v x e]
    | none => simp [isUnassigned, state, stateIn, e, VarState.isUnassigned]
  · intro h v x e
    have := h v
    rwa [isUnassigned, state_of_get? e] at this

/-- What is found is unassigned, and nothing below it is. -/
theorem lowest_of_lowestUnassigned? {a : Assignment} {v : Var} (h : a.lowestUnassigned? = some v) :
    a.isUnassigned v = true ∧ ∀ w, w < v → a.isUnassigned w = false := by
  obtain ⟨inside, unassigned, lowest⟩ := Array.findIdx?_eq_some_iff_getElem.1 h
  have entry : ∀ w (hw : w < a.states.entries.size), a.state w = a.states.entries[w] :=
    fun w hw => state_of_get? (Array.getElem?_eq_getElem hw)
  refine ⟨?_, fun w lt => ?_⟩
  · rwa [isUnassigned, entry v inside]
  · rw [isUnassigned, entry w (Nat.lt_trans lt inside)]
    exact Bool.eq_false_iff.2 (lowest w lt)

/-- When there is an unassigned variable, the lowest one is found. -/
theorem lowestUnassigned?_eq {a : Assignment} {v : Var} (h : a.isUnassigned v = true) :
    ∃ w, a.lowestUnassigned? = some w ∧ a.isUnassigned w = true := by
  have found : a.lowestUnassigned?.isSome = true := by
    rw [lowestUnassigned?, Table.firstKey?, Array.findIdx?_isSome, Array.any_eq_true']
    exact ⟨a.state v, Array.mem_of_getElem? (get?_of_known (contains_of_isUnassigned h)), h⟩
  obtain ⟨w, hw⟩ := Option.isSome_iff_exists.1 found
  exact ⟨w, hw, (lowest_of_lowestUnassigned? hw).1⟩

/-- When none is found there is none. -/
theorem isUnassigned_of_lowestUnassigned?_none {a : Assignment} (h : a.lowestUnassigned? = none)
    (v : Var) : a.isUnassigned v = false := by
  rw [Bool.eq_false_iff]
  intro unassigned
  obtain ⟨w, found, -⟩ := lowestUnassigned?_eq unassigned
  cases h.symm.trans found

/-- The number of variables is that of a list in which all of them are. -/
theorem Counted.exists_variables {a : Assignment} (c : a.Counted) :
    ∃ vs : List Var, vs.length = a.numVariables ∧ ∀ v, a.contains v = true → v ∈ vs := by
  refine ⟨a.states.keysWith VarState.isKnown, ?_, fun v known => ?_⟩
  · rw [c.known, ← Table.length_keysWith]
  · rw [Table.keysWith_eq_filter, List.mem_filter, Table.keys, List.mem_range]
    refine ⟨lt_capacity_of_known known, ?_⟩
    rw [get?_of_known known]
    exact known

/-- There are no more different variables of the problem than the number says. -/
theorem length_le_numVariables {a : Assignment} (c : a.Counted) {vs : List Var} (h : vs.Nodup)
    (known : ∀ v ∈ vs, a.contains v = true) : vs.length ≤ a.numVariables := by
  obtain ⟨all, length, mem⟩ := c.exists_variables
  have sub : vs ⊆ all := fun v hv => mem v (known v hv)
  exact length ▸ (h.subperm sub).length_le

theorem isTrue_iff {a : Assignment} {l : Lit} :
    a.isTrue l = true ↔ a.state l.var = .assigned l.positive := by
  unfold isTrue litValue? value?
  cases a.state l.var <;> simp [VarState.value?]

theorem isFalse_iff {a : Assignment} {l : Lit} :
    a.isFalse l = true ↔ a.state l.var = .assigned (!l.positive) := by
  unfold isFalse litValue? value?
  cases a.state l.var with
  | assigned b => cases b <;> cases l.positive <;> simp [VarState.value?]
  | missing => simp [VarState.value?]
  | unassigned => simp [VarState.value?]

theorem satisfies_eq_false_iff {a : Assignment} {ls : List Lit} :
    a.satisfies ls = false ↔ ∀ l ∈ ls, a.state l.var ≠ .assigned l.positive := by
  simp only [satisfies, List.any_eq_false, isTrue_iff, ne_eq]

end Assignment

end ClauseLearning
