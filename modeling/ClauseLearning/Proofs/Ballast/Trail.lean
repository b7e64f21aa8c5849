/-
  Trails whose reasons go by other names.

  Model. Two trails are the same but for the names of the reasons when they have the same
  assignment and entries, the same levels, and the reason of every literal on the second one is
  that on the first one under its new name (`Trail.Renamed`). What is kept of variables without a
  value is not compared.

  Rule. On such trails the same operations meet the same faults, or leave such trails again.
-/
import ClauseLearning.Proofs.Alike
import ClauseLearning.Proofs.Trail.Coherent

namespace ClauseLearning.Trail

variable {f : ClauseRef → ClauseRef}

/-- The trails are the same, but the reasons of the second one are renamed. -/
structure Renamed (f : ClauseRef → ClauseRef) (t t' : Trail) : Prop where
  /-- The assignment. -/
  assignment : t'.assignment = t.assignment
  /-- The literals and the places where the levels begin. -/
  entries : t'.entries = t.entries
  /-- The number of variables there is room for. -/
  size : t'.causes.size = t.causes.size
  /-- The level kept for a variable. -/
  levels : ∀ v, t'.levelOf v = t.levelOf v
  /-- The reason of a literal on the trail. -/
  reasons : ∀ l ∈ t.literals, t'.reasonOf l.var = (t.reasonOf l.var).map f

theorem renamed_empty : empty.Renamed f empty where
  assignment := rfl
  entries := rfl
  size := rfl
  levels _ := rfl
  reasons l hl := by simp [empty, literals, LevelStack.empty, LevelStack.toList] at hl

namespace Renamed

variable {t t' : Trail}

/-! ## What is read -/

theorem level_eq (h : t.Renamed f t') : t'.level = t.level := by rw [level, h.entries, level]

theorem length_eq (h : t.Renamed f t') : t'.length = t.length := by rw [length, h.entries, length]

theorem literals_eq (h : t.Renamed f t') : t'.literals = t.literals := by
  rw [literals, h.entries, literals]

theorem isTrue_eq (h : t.Renamed f t') : t'.isTrue = t.isTrue := by
  funext l
  rw [isTrue, h.assignment, isTrue]

theorem isFalse_eq (h : t.Renamed f t') : t'.isFalse = t.isFalse := by
  funext l
  rw [isFalse, h.assignment, isFalse]

theorem isOpen_eq (h : t.Renamed f t') : t'.isOpen = t.isOpen := by
  funext l
  rw [isOpen, litValue?, h.assignment, isOpen, litValue?]

theorem hasLevel_eq (h : t.Renamed f t') : t'.hasLevel = t.hasLevel := by
  funext v
  rw [hasLevel, h.size, hasLevel]

theorem levelOf_eq (h : t.Renamed f t') : t'.levelOf = t.levelOf := funext h.levels

/-- The cause of a variable has the same level, and of a variable on the trail also the reason
    under its new name. -/
theorem causeOf (h : t.Renamed f t') (v : Var) :
    Alike (fun c c' => c'.level = c.level ∧
      ∀ l ∈ t.literals, l.var = v → c'.reason = c.reason.map f) (t.causeOf v) (t'.causeOf v) := by
  by_cases room : v < t.causes.size
  · rw [causeOf_eq room, causeOf_eq (h.size.symm ▸ room)]
    refine ⟨h.levels v, ?_⟩
    rintro l hl rfl
    exact h.reasons l hl
  · have none := Table.get?_eq_none_iff.2 (Nat.le_of_not_lt room)
    have none' := Table.get?_eq_none_iff.2 (Nat.le_of_not_lt (h.size.symm ▸ room))
    rw [Trail.causeOf, Trail.causeOf, Table.read, Table.read, none, none']
    rfl

/-! ## What is done -/

/-- The trails have the same assignment and the same entries. -/
theorem cases_eq (h : t.Renamed f t') :
    ∃ a causes causes' entries, t = ⟨a, causes, entries⟩ ∧ t' = ⟨a, causes', entries⟩ := by
  obtain ⟨a, causes, entries⟩ := t
  obtain ⟨a', causes', entries'⟩ := t'
  obtain rfl : a' = a := h.assignment
  obtain rfl : entries' = entries := h.entries
  exact ⟨a', causes, causes', entries', rfl, rfl⟩

theorem openLevel (h : t.Renamed f t') : t.openLevel.Renamed f t'.openLevel := by
  obtain ⟨a, causes, causes', entries, rfl, rfl⟩ := h.cases_eq
  exact ⟨rfl, rfl, h.size, h.levels, h.reasons⟩

theorem consume (h : t.Renamed f t') : t.consume.Renamed f t'.consume := by
  obtain ⟨a, causes, causes', entries, rfl, rfl⟩ := h.cases_eq
  exact ⟨rfl, rfl, h.size, h.levels, h.reasons⟩

/-- The cause of a variable is replaced. The trails may then have other literals, as long as these
    are over the variable or were there before. -/
theorem setCause {a a' : Assignment} {causes causes' : Table Cause}
    {entries entries' : LevelStack Lit}
    (h : Renamed f ⟨a, causes, entries⟩ ⟨a', causes', entries'⟩) (v : Var) (level : Nat)
    (reason : Option ClauseRef) :
    Alike (fun new new' => ∀ b left, (∀ l ∈ left.toList, l.var = v ∨ l ∈ entries.toList) →
      Renamed f ⟨b, new, left⟩ ⟨b, new', left⟩)
      (causes.set v ⟨level, reason⟩) (causes'.set v ⟨level, reason.map f⟩) := by
  have size : causes'.size = causes.size := h.size
  by_cases room : v < causes.size
  · obtain ⟨new, e, sizeNew, get⟩ := Table.set_yields room ⟨level, reason⟩
    obtain ⟨new', e', sizeNew', get'⟩ := Table.set_yields (size ▸ room) ⟨level, reason.map f⟩
    rw [e, e']
    have cause : ∀ b left w, causeAt ⟨b, new, left⟩ w =
        if w = v then ⟨level, reason⟩ else causeAt ⟨a, causes, entries⟩ w := by
      intro b left w
      rw [causeAt, get]
      split <;> rfl
    have cause' : ∀ b left w, causeAt ⟨b, new', left⟩ w =
        if w = v then ⟨level, reason.map f⟩ else causeAt ⟨a', causes', entries'⟩ w := by
      intro b left w
      rw [causeAt, get']
      split <;> rfl
    intro b left inside
    refine ⟨rfl, rfl, sizeNew'.trans (size.trans sizeNew.symm), fun w => ?_, fun l hl => ?_⟩
    · rw [Trail.levelOf_eq, Trail.levelOf_eq, cause, cause']
      split
      · rfl
      · exact h.levels w
    · rw [reasonOf, reasonOf, cause, cause']
      split
      · rfl
      · exact h.reasons l ((inside l hl).resolve_left ‹_›)
  · rw [Table.set, Table.set, if_neg room, if_neg (size ▸ room)]
    rfl

theorem register (h : t.Renamed f t') (v : Var) :
    Alike (Renamed f) (t.register v) (t'.register v) := by
  obtain ⟨a, causes, causes', entries, rfl, rfl⟩ := h.cases_eq
  have size : causes'.size = causes.size := h.size
  have grown : ∀ b, Renamed f ⟨b, causes.grow v Cause.none, entries⟩
      ⟨b, causes'.grow v Cause.none, entries⟩ := by
    intro b
    refine ⟨rfl, rfl, ?_, fun w => ?_, fun l hl => ?_⟩
    · rw [Table.size_grow, Table.size_grow, size]
    · have old := h.levels w
      rwa [Trail.levelOf_eq, Trail.levelOf_eq, causeAt_grow, causeAt_grow]
    · have old := h.reasons l hl
      rwa [reasonOf, reasonOf, causeAt_grow, causeAt_grow]
  unfold Trail.register
  dsimp only
  split
  · exact grown a
  · exact Alike.bind_same grown

theorem assign (h : t.Renamed f t') (l : Lit) (reason : Option ClauseRef) :
    Alike (Renamed f) (t.assign l reason) (t'.assign l (reason.map f)) := by
  refine (h.register l.var).bind fun t t' h => ?_
  obtain ⟨a, causes, causes', entries, rfl, rfl⟩ := h.cases_eq
  refine Alike.bind_same fun b => (h.setCause l.var entries.level reason).bind fun new new' h => ?_
  refine h b (entries.push l) fun k hk => ?_
  simp only [LevelStack.push, LevelStack.toList, Array.toList_push, List.mem_append,
    List.mem_singleton] at hk
  exact hk.elim .inr fun e => .inl (congrArg Lit.var e)

theorem enqueue (h : t.Renamed f t') (l : Lit) (reason : Option ClauseRef) :
    Alike (Beside (Renamed f)) (t.enqueue l reason) (t'.enqueue l (reason.map f)) := by
  have value : t'.litValue? l = t.litValue? l := by
    rw [litValue?, litValue?, h.assignment]
  rw [Trail.enqueue, Trail.enqueue, value]
  cases t.litValue? l with
  | some b => exact ⟨rfl, h⟩
  | none => exact (h.assign l reason).bind fun t t' h => ⟨rfl, h⟩

theorem undo (h : t.Renamed f t') : Alike (Renamed f) t.undo t'.undo := by
  obtain ⟨a, causes, causes', entries, rfl, rfl⟩ := h.cases_eq
  rw [Trail.undo, Trail.undo]
  dsimp only [LevelStack.pop]
  cases entries.values.back? with
  | none => rfl
  | some l =>
    refine Alike.bind_same fun b => (h.setCause l.var 0 none).bind fun new new' h => ?_
    refine h b _ fun k hk => .inr ?_
    simp only [LevelStack.toList, Array.toList_pop] at hk ⊢
    exact List.dropLast_subset _ hk

theorem undoMany (h : t.Renamed f t') (n : Nat) :
    Alike (Renamed f) (undoMany n t) (undoMany n t') := by
  induction n generalizing t t' with
  | zero => exact h
  | succ n ih => exact h.undo.bind fun t t' h => ih h

theorem cancel (h : t.Renamed f t') : Alike (Renamed f) t.cancel t'.cancel := by
  obtain ⟨a, causes, causes', entries, rfl, rfl⟩ := h.cases_eq
  rw [Trail.cancel, Trail.cancel]
  dsimp only [LevelStack.leaveLevel]
  cases entries.limits.back? with
  | none => rfl
  | some start =>
    have below : Renamed f ⟨a, causes, { entries with limits := entries.limits.pop }⟩
        ⟨a, causes', { entries with limits := entries.limits.pop }⟩ :=
      ⟨rfl, rfl, h.size, h.levels, h.reasons⟩
    exact below.undoMany _

theorem cancelMany (h : t.Renamed f t') (n : Nat) :
    Alike (Renamed f) (cancelMany n t) (cancelMany n t') := by
  induction n generalizing t t' with
  | zero => exact h
  | succ n ih => exact h.cancel.bind fun t t' h => ih h

theorem cancelUntil (h : t.Renamed f t') (k : Nat) :
    Alike (Renamed f) (t.cancelUntil k) (t'.cancelUntil k) := by
  rw [Trail.cancelUntil, Trail.cancelUntil, h.level_eq]
  split
  · exact h.cancelMany _
  · rfl

/-- Only the names of the reasons of the literals matter. -/
theorem congr {g : ClauseRef → ClauseRef} (h : t.Renamed f t')
    (same : ∀ l ∈ t.literals, ∀ r, t.reasonOf l.var = some r → g r = f r) : t.Renamed g t' where
  assignment := h.assignment
  entries := h.entries
  size := h.size
  levels := h.levels
  reasons l hl := by
    rw [h.reasons l hl]
    cases e : t.reasonOf l.var with
    | none => rfl
    | some r => exact congrArg some (same l hl r e).symm

end Renamed

end ClauseLearning.Trail
