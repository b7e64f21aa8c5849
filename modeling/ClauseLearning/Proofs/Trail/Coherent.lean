/-
  Trails whose parts agree.

  Model. Seen from outside, a trail is the list of its literals, the places where its levels
  begin, the variables of the problem, and a cause for every variable. It is coherent when the
  assignment makes exactly the literals of the list true, each standing there once. Coherence
  does not speak of levels, so it lasts while a level is being taken back; `Trail.Valid` adds
  that the levels kept with the causes are those of the places.

  Rule. `register_yields`, `assign_yields` and `undo_yields` say what the three operations that
  change an assignment do to a coherent trail.
-/
import ClauseLearning.Trail
import ClauseLearning.Proofs.Assignment.Counted
import ClauseLearning.Proofs.Valuation

namespace ClauseLearning.Trail

/-- The cause kept for a variable; that of a variable without a value for one without room. -/
def causeAt (t : Trail) (v : Var) : Cause := (t.causes.get? v).getD Cause.none

/-- The clause that forced the value of a variable, if one did. -/
def reasonOf (t : Trail) (v : Var) : Option ClauseRef := (t.causeAt v).reason

/-- The places of the trail where the open levels begin. -/
def limits (t : Trail) : List Nat := t.entries.limits.toList

/-- The variable is part of the problem. -/
def Knows (t : Trail) (v : Var) : Prop := t.assignment.contains v = true

theorem length_literals (t : Trail) : t.literals.length = t.length := by
  simp [literals, length, LevelStack.toList, LevelStack.size]

theorem length_limits (t : Trail) : t.limits.length = t.level := by
  simp [limits, level, LevelStack.level]

theorem entry?_eq (t : Trail) (i : Nat) : t.entry? i = t.literals[i]? := by
  unfold entry?
  simp [literals, LevelStack.get?, LevelStack.toList]

theorem levelOf_eq (t : Trail) (v : Var) : t.levelOf v = (t.causeAt v).level := rfl

theorem causeOf_eq {t : Trail} {v : Var} (h : v < t.causes.size) :
    t.causeOf v = .ok (t.causeAt v) := by
  obtain ⟨c, hc⟩ := Table.get?_isSome_of_lt h
  rw [causeOf, Table.read_eq_ok_iff.2 hc, causeAt, hc]
  rfl

/-- The assignment makes exactly the literals of the trail true. -/
structure Coherent (t : Trail) : Prop where
  /-- The numbers kept with the assignment are right. -/
  counted : t.assignment.Counted
  /-- A literal is true when it is on the trail. -/
  value_iff : ∀ l : Lit, t.assignment.state l.var = .assigned l.positive ↔ l ∈ t.literals
  /-- No literal is there twice. -/
  nodup : t.literals.Nodup
  /-- There is room for the cause of every variable of the problem. -/
  room : ∀ v, t.Knows v → v < t.causes.size

namespace Coherent

variable {t : Trail} {l k : Lit}

theorem isTrue_iff (h : t.Coherent) : t.isTrue l = true ↔ l ∈ t.literals := by
  rw [isTrue, Assignment.isTrue_iff, h.value_iff]

theorem isFalse_iff (h : t.Coherent) : t.isFalse l = true ↔ -l ∈ t.literals := by
  rw [isFalse, Assignment.isFalse_iff, ← h.value_iff]
  rfl

theorem neg_not_mem (h : t.Coherent) (hl : l ∈ t.literals) : -l ∉ t.literals := by
  intro hn
  have pos := (h.value_iff l).2 hl
  have neg := (h.value_iff (-l)).2 hn
  rw [Lit.neg_var, pos] at neg
  simp at neg

/-- A variable has at most one literal on the trail. -/
theorem eq_of_var_eq (h : t.Coherent) (hl : l ∈ t.literals) (hk : k ∈ t.literals)
    (e : l.var = k.var) : l = k := by
  have hpos := (h.value_iff l).2 hl
  rw [e, (h.value_iff k).2 hk, VarState.assigned.injEq] at hpos
  cases l
  cases k
  simp_all

/-- The literals are over different variables. -/
theorem nodup_vars (h : t.Coherent) : (t.literals.map Lit.var).Nodup :=
  List.pairwise_map.2 (h.nodup.imp_of_mem fun hl hk ne same => ne (h.eq_of_var_eq hl hk same))

theorem isOpen_iff (h : t.Coherent) :
    t.isOpen l = true ↔ l ∉ t.literals ∧ -l ∉ t.literals := by
  rw [← h.isTrue_iff, ← h.isFalse_iff]
  unfold isOpen isTrue isFalse litValue? Assignment.isTrue Assignment.isFalse
  cases t.assignment.litValue? l with
  | none => simp
  | some b => cases b <;> simp

theorem litValue?_eq (h : t.Coherent) (hl : l ∈ t.literals) : t.litValue? l = some true := by
  have := (h.value_iff l).2 hl
  simp [litValue?, Assignment.litValue?, Assignment.value?, this, VarState.value?]

theorem litValue?_eq_false (h : t.Coherent) (hl : -l ∈ t.literals) :
    t.litValue? l = some false := by
  have := (h.value_iff (-l)).2 hl
  simp only [Lit.neg_var, Lit.neg_positive] at this
  simp [litValue?, Assignment.litValue?, Assignment.value?, this, VarState.value?]

theorem litValue?_eq_none (h : t.Coherent) (hl : l ∉ t.literals) (hn : -l ∉ t.literals) :
    t.litValue? l = none := by
  have := h.isOpen_iff.2 ⟨hl, hn⟩
  simpa [isOpen] using this

theorem knows_of_mem (h : t.Coherent) (hl : l ∈ t.literals) : t.Knows l.var :=
  Assignment.contains_of_state ((h.value_iff l).2 hl)

/-- A literal whose variable has a value is true or false. -/
theorem mem_or_neg_mem (h : t.Coherent) (known : t.Knows l.var)
    (assigned : t.assignment.isUnassigned l.var = false) : l ∈ t.literals ∨ -l ∈ t.literals := by
  rw [← h.value_iff, ← h.value_iff, Lit.neg_var, Lit.neg_positive]
  unfold Knows Assignment.contains at known
  unfold Assignment.isUnassigned at assigned
  cases e : t.assignment.state l.var with
  | missing => simp [e, VarState.isKnown] at known
  | unassigned => simp [e, VarState.isUnassigned] at assigned
  | assigned b => cases b <;> cases l.positive <;> simp

/-- An unassigned variable is part of the problem, and neither of its literals is true. -/
theorem of_isUnassigned (h : t.Coherent) (hl : t.assignment.isUnassigned l.var = true) :
    t.Knows l.var ∧ l ∉ t.literals ∧ -l ∉ t.literals := by
  unfold Assignment.isUnassigned at hl
  rw [← h.value_iff, ← h.value_iff, Lit.neg_var, Knows, Assignment.contains]
  cases e : t.assignment.state l.var <;> simp [e, VarState.isUnassigned, VarState.isKnown] at hl ⊢

theorem causeOf_mem (h : t.Coherent) (hl : l ∈ t.literals) :
    t.causeOf l.var = .ok (t.causeAt l.var) :=
  causeOf_eq (h.room _ (h.knows_of_mem hl))

theorem hasLevel_of_mem (h : t.Coherent) (hl : l ∈ t.literals) : t.hasLevel l.var = true :=
  decide_eq_true (h.room _ (h.knows_of_mem hl))

end Coherent

theorem not_knows_empty (v : Var) : ¬ empty.Knows v := by
  simp [Knows, empty, Assignment.empty, Assignment.contains, Assignment.state,
    Assignment.stateIn, VarState.isKnown]

theorem coherent_empty : empty.Coherent where
  counted := Assignment.counted_empty
  value_iff l := by simp [empty, literals, LevelStack.empty, LevelStack.toList,
    Assignment.state, Assignment.stateIn, Assignment.empty]
  nodup := by simp [empty, literals, LevelStack.empty, LevelStack.toList]
  room v h := absurd h (not_knows_empty v)

/-! ## The operations -/

/-- Room for a cause is not a cause. -/
theorem causeAt_grow (a : Assignment) (causes : Table Cause) (entries : LevelStack Lit)
    (v w : Var) :
    causeAt ⟨a, causes.grow v Cause.none, entries⟩ w = causeAt ⟨a, causes, entries⟩ w :=
  causes.getD_grow v Cause.none w

section Values

variable {a a' : Assignment} {ls : List Lit} {l : Lit}

/-- A literal without a value is true after it was set. -/
theorem value_iff_append
    (values : ∀ k : Lit, a.state k.var = .assigned k.positive ↔ k ∈ ls)
    (free : ∀ b, a.state l.var ≠ .assigned b)
    (state : ∀ w, a'.state w = if w = l.var then .ofValue (some l.positive) else a.state w)
    (k : Lit) : a'.state k.var = .assigned k.positive ↔ k ∈ ls ++ [l] := by
  rw [List.mem_append, List.mem_singleton, state k.var, ← values k]
  by_cases e : k.var = l.var
  · rw [if_pos e, e]
    constructor
    · intro hk
      refine .inr ?_
      cases k
      cases l
      simp_all [VarState.ofValue]
    · rintro (hk | rfl)
      · exact (free _ hk).elim
      · rfl
  · rw [if_neg e]
    constructor
    · exact .inl
    · rintro (hk | rfl)
      · exact hk
      · exact absurd rfl e

/-- A literal whose value was taken back is true no more. -/
theorem value_iff_of_append
    (values : ∀ k : Lit, a.state k.var = .assigned k.positive ↔ k ∈ ls ++ [l]) (distinct : l ∉ ls)
    (state : ∀ w, a'.state w = if w = l.var then .ofValue none else a.state w) (k : Lit) :
    a'.state k.var = .assigned k.positive ↔ k ∈ ls := by
  have old := values k
  rw [List.mem_append, List.mem_singleton] at old
  rw [state k.var]
  split
  · rename_i hk
    have absent : k ∉ ls := by
      intro hmem
      have kept := old.2 (.inl hmem)
      have newest := (values l).2 (by simp)
      rw [hk, newest, VarState.assigned.injEq] at kept
      refine distinct ?_
      cases k
      cases l
      simp_all
    simp [VarState.ofValue, absent]
  · rename_i hk
    rw [old]
    constructor
    · rintro (hmem | rfl)
      · exact hmem
      · exact absurd rfl hk
    · exact .inl

end Values

/-- Making a variable part of the problem changes no value and no cause. -/
theorem register_yields {t : Trail} (h : t.Coherent) (v : Var) :
    Yields (t.register v) fun t' =>
      t'.Coherent ∧ t'.literals = t.literals ∧ t'.limits = t.limits ∧
        (∀ w, t'.Knows w ↔ w = v ∨ t.Knows w) ∧ t'.causeAt = t.causeAt := by
  obtain ⟨assignment, causes, entries⟩ := t
  have finish : ∀ a : Assignment, a.Counted →
      (∀ w b, a.state w = .assigned b ↔ assignment.state w = .assigned b) →
      (∀ w, a.contains w = true ↔ w = v ∨ assignment.contains w = true) →
      Yields (Pure.pure ⟨a, causes.grow v Cause.none, entries⟩) fun t' : Trail =>
        t'.Coherent ∧ t'.literals = literals ⟨assignment, causes, entries⟩ ∧
          t'.limits = limits ⟨assignment, causes, entries⟩ ∧
          (∀ w, t'.Knows w ↔ w = v ∨ Knows ⟨assignment, causes, entries⟩ w) ∧
          t'.causeAt = causeAt ⟨assignment, causes, entries⟩ := by
    intro a counted state known
    refine .pure ⟨⟨counted, fun l => (state _ _).trans (h.value_iff l), h.nodup, fun w hw => ?_⟩,
      rfl, rfl, known, funext fun w => causeAt_grow assignment causes entries v w⟩
    change w < (causes.grow v Cause.none).size
    rcases (known w).1 hw with rfl | hw
    · exact causes.lt_size_grow w _
    · exact Nat.lt_of_lt_of_le (h.room w hw) (causes.size_le_grow v _)
  unfold register
  dsimp only
  split
  · rename_i hv
    refine finish _ h.counted (fun _ _ => Iff.rfl) fun w => ⟨.inr, ?_⟩
    rintro (rfl | hw)
    · exact hv
    · exact hw
  · rename_i hv
    have missing : assignment.state v = .missing := by
      cases e : assignment.state v <;> simp [Assignment.contains, e, VarState.isKnown] at hv ⊢
    refine (Assignment.set_yields h.counted none fun _ _ => rfl).bind fun a new => ?_
    obtain ⟨counted, state⟩ := new
    refine finish a counted (fun w b => ?_) (Assignment.contains_of_set state)
    rw [state w]
    split
    · rename_i e
      simp [e, missing, VarState.ofValue]
    · rfl

/-- A literal without a value comes to the end of the trail, and its variable is part of the
    problem from then on. -/
theorem assign_appends {t : Trail} {l : Lit} (h : t.Coherent) (hl : l ∉ t.literals)
    (hn : -l ∉ t.literals) (reason : Option ClauseRef) :
    Yields (t.assign l reason) fun t' =>
      t'.Coherent ∧ t'.literals = t.literals ++ [l] ∧ t'.limits = t.limits ∧
        (∀ w, t'.Knows w ↔ w = l.var ∨ t.Knows w) ∧
        ∀ w, t'.causeAt w = if w = l.var then ⟨t.level, reason⟩ else t.causeAt w := by
  refine (register_yields h l.var).bind fun t₁ ⟨h₁, lits₁, lims₁, knows₁, cause₁⟩ => ?_
  obtain ⟨assignment, causes, entries⟩ := t₁
  have free : ∀ b, assignment.state l.var ≠ .assigned b := by
    intro b hb
    have member := (h₁.value_iff ⟨l.var, b⟩).1 hb
    rw [lits₁] at member
    rcases Lit.eq_of_var_eq (l := ⟨l.var, b⟩) (k := l) rfl with e | e
    · exact hl (e ▸ member)
    · exact hn (e ▸ member)
  have level : LevelStack.level entries = t.level := by
    have := congrArg List.length lims₁
    rwa [length_limits, length_limits] at this
  refine (Assignment.set_yields h₁.counted (some l.positive) fun b hb => (free b hb).elim).bind
    fun a ⟨counted, state⟩ => ?_
  refine (Table.set_yields (h₁.room l.var ((knows₁ l.var).2 (.inl rfl))) _).bind
    fun causes' ⟨size, get⟩ => ?_
  have literals : literals ⟨a, causes', entries.push l⟩ = t.literals ++ [l] := by
    rw [← lits₁]
    simp [literals, LevelStack.toList, LevelStack.push]
  have knows : ∀ w, Knows ⟨a, causes', entries.push l⟩ w ↔ w = l.var ∨ t.Knows w := fun w =>
    (Assignment.contains_of_set state w).trans ((or_congr_right (knows₁ w)).trans
      or_self_left)
  refine .pure ⟨⟨counted, fun k => ?_, ?_, fun w hw => ?_⟩, literals, lims₁, knows, fun w => ?_⟩
  · rw [literals, ← lits₁]
    exact value_iff_append h₁.value_iff free state k
  · rw [literals, List.nodup_append]
    refine ⟨h.nodup, by simp, fun k hk m hm => ?_⟩
    rintro rfl
    exact hl (List.mem_singleton.1 hm ▸ hk)
  · change w < causes'.size
    rw [size]
    exact h₁.room w ((knows₁ w).2 ((knows w).1 hw))
  · rw [causeAt, get]
    split
    · simp [level]
    · rw [← cause₁]
      rfl

/-- A literal without a value over a variable of the problem comes to the end of the trail. -/
theorem assign_yields {t : Trail} {l : Lit} (h : t.Coherent) (known : t.Knows l.var)
    (hl : l ∉ t.literals) (hn : -l ∉ t.literals) (reason : Option ClauseRef) :
    Yields (t.assign l reason) fun t' =>
      t'.Coherent ∧ t'.literals = t.literals ++ [l] ∧ t'.limits = t.limits ∧
        (∀ w, t'.Knows w ↔ t.Knows w) ∧
        ∀ w, t'.causeAt w = if w = l.var then ⟨t.level, reason⟩ else t.causeAt w := by
  refine (assign_appends h hl hn reason).mono
    fun t' ⟨coherent, literals, limits, knows, causes⟩ => ?_
  have same : ∀ w, w = l.var ∨ t.Knows w ↔ t.Knows w :=
    fun w => or_iff_right_of_imp fun e => e ▸ known
  exact ⟨coherent, literals, limits, fun w => (knows w).trans (same w), causes⟩

/-- The newest literal leaves the trail. -/
theorem undo_yields {t : Trail} {ls : List Lit} {l : Lit} (h : t.Coherent)
    (e : t.literals = ls ++ [l]) :
    Yields t.undo fun t' =>
      t'.Coherent ∧ t'.literals = ls ∧ t'.limits = t.limits ∧ (∀ w, t'.Knows w ↔ t.Knows w) ∧
        ∀ w, t'.causeAt w = if w = l.var then Cause.none else t.causeAt w := by
  obtain ⟨assignment, causes, entries⟩ := t
  have hl : l ∈ literals ⟨assignment, causes, entries⟩ := by simp [e]
  have values : entries.values.toList = ls ++ [l] := e
  have top : entries.values.back? = some l := by
    rw [← Array.getLast?_toList, values, List.getLast?_concat]
  have below : entries.values.pop.toList = ls := by
    rw [Array.toList_pop, values, List.dropLast_concat]
  have pop : entries.pop = (some l, ⟨entries.values.pop, entries.limits⟩) := by
    rw [LevelStack.pop, top]
  have nodup := h.nodup
  rw [e, List.nodup_append] at nodup
  have distinct : l ∉ ls := fun hmem => nodup.2.2 l hmem l (by simp) rfl
  simp only [undo, pop]
  refine (Assignment.set_yields h.counted none fun _ _ => rfl).bind fun a ⟨counted, state⟩ => ?_
  refine (Table.set_yields (h.room l.var (h.knows_of_mem hl)) _).bind
    fun causes' ⟨size, get⟩ => ?_
  have knows : ∀ w, Knows ⟨a, causes', ⟨entries.values.pop, entries.limits⟩⟩ w ↔
      Knows ⟨assignment, causes, entries⟩ w := fun w =>
    (Assignment.contains_of_set state w).trans
      (or_iff_right_of_imp fun hw => hw ▸ h.knows_of_mem hl)
  have literals : literals ⟨a, causes', ⟨entries.values.pop, entries.limits⟩⟩ = ls := below
  refine .pure ⟨⟨counted, fun k => ?_, literals ▸ nodup.1, fun w hw => ?_⟩, literals, rfl, knows,
    fun w => ?_⟩
  · rw [literals]
    exact value_iff_of_append (e ▸ h.value_iff) distinct state k
  · change w < causes'.size
    rw [size]
    exact h.room w ((knows w).1 hw)
  · rw [causeAt, get]
    split <;> rfl

end ClauseLearning.Trail
