/-
  What a trail goes back to.

  Model. Variables are registered, literals are made true, levels are opened and left, in any
  sequence (`Trail.Move`); the literals may be over variables that nobody has registered, and no
  clause needs to be there. A course is a trail with its past: for every level the trail as it was
  just before the next one was opened last (`Course.before`). Only opening a level writes into the
  past.

  Rule. `run_recalls`: a sequence comes to an end unless it leaves the root or goes back to a level
  above the current one. All through it the assignment, the levels and the trail say the same
  (`Trail.InStep`), and going back to a level gives what was held before the next one was opened
  (`Course.Restores`). The invariant behind it is that the trail still begins with the trails of
  its past (`Trail.Recalls`).
-/
import Mathlib
import ClauseLearning.Proofs.Trail.Cut

namespace ClauseLearning.Trail

/-! ## Making any literal true -/

section Enqueue

variable {t t' : Trail} {v : Var} {l : Lit}

/-- A variable of the problem is not registered again. -/
theorem register_of_knows (h : t.Coherent) (known : t.Knows v) : t.register v = .ok t := by
  have room := h.room v known
  obtain ⟨assignment, causes, entries⟩ := t
  have there : assignment.contains v = true := known
  have wide : causes.grow v Cause.none = causes := if_pos room
  simp only [register, there, if_true, wide]
  rfl

/-- Every variable that has no literal on the trail has the cause of one without a value. -/
def Blank (t : Trail) : Prop :=
  ∀ v, (∀ l ∈ t.literals, l.var ≠ v) → t.causeAt v = Cause.none

/-- The second trail is the first one with further literals, and perhaps further variables. -/
structure Widens (t t' : Trail) : Prop where
  /-- It is valid. -/
  valid : t'.Valid
  /-- The literals stay in front. -/
  literals : t.literals <+: t'.literals
  /-- No level begins or ends. -/
  limits : t'.limits = t.limits
  /-- The literals keep their causes. -/
  causes : ∀ l ∈ t.literals, t'.causeAt l.var = t.causeAt l.var
  /-- Nothing else gets a cause. -/
  blank : t.Blank → t'.Blank

theorem Widens.refl (h : t.Valid) : t.Widens t :=
  ⟨h, List.prefix_rfl, rfl, fun _ _ => rfl, id⟩

theorem register_widens (h : t.Valid) (v : Var) :
    Yields (t.register v) fun t' => t.Widens t' ∧ t'.literals = t.literals ∧ t'.Knows v := by
  refine (register_valid h v).mono fun t' ⟨valid, literals, limits, knows, causes⟩ => ?_
  refine ⟨⟨valid, literals ▸ List.prefix_rfl, limits, fun l _ => by rw [causes], ?_⟩, literals,
    (knows v).2 (.inl rfl)⟩
  intro blank w free
  rw [causes]
  exact blank w (literals ▸ free)

/-- A literal over a variable that is not registered is made true as if it were. -/
theorem enqueue_of_register (h : t.Coherent) (h' : t'.Coherent) (e : t.register l.var = .ok t')
    (known : t'.Knows l.var) (hl : l ∉ t.literals) (hn : -l ∉ t.literals)
    (literals : t'.literals = t.literals) (reason : Option ClauseRef) :
    t.enqueue l reason = t'.enqueue l reason := by
  have again := register_of_knows h' known
  rw [enqueue, enqueue, h.litValue?_eq_none hl hn,
    h'.litValue?_eq_none (literals ▸ hl) (literals ▸ hn), assign, assign, e, again]

/-- A literal is made true, or has a value and changes nothing. -/
theorem enqueue_widens (h : t.Valid) (l : Lit) (reason : Option ClauseRef) :
    Yields (t.enqueue l reason) fun r => t.Widens r.2 := by
  by_cases hl : l ∈ t.literals
  · exact .of_eq (enqueue_of_mem h.toCoherent hl reason) (.refl h)
  by_cases hn : -l ∈ t.literals
  · exact .of_eq (enqueue_of_neg_mem h.toCoherent hn reason) (.refl h)
  obtain ⟨t₁, e, ⟨valid, front, limits, causes, blank⟩, literals, known⟩ :=
    register_widens h l.var
  rw [enqueue_of_register h.toCoherent valid.toCoherent e known hl hn literals]
  rw [← literals] at hl hn
  refine (enqueue_yields valid known hl hn reason).mono
    fun ⟨_, t₂⟩ ⟨_, valid₂, ext, literals₂, cause⟩ => ?_
  refine ⟨valid₂, front.trans ext.literals, ext.limits.trans limits, fun k hk => ?_, ?_⟩
  · exact (ext.causes k (front.subset hk)).trans (causes k hk)
  · intro old w free
    rw [literals₂] at free
    have other : l.var ≠ w := free l (by simp)
    rw [cause, if_neg other.symm]
    exact blank old w fun k hk => free k (List.mem_append_left _ hk)

end Enqueue

/-! ## Moves -/

/-- What is done to a trail. -/
inductive Move where
  /-- A variable becomes part of the problem. -/
  | register (v : Var)
  /-- A literal is made true, unless it has a value. -/
  | enqueue (l : Lit) (reason : Option ClauseRef)
  /-- A level is opened. -/
  | openLevel
  /-- The current level is left. -/
  | cancel
  /-- The trail goes back to a level. -/
  | cancelUntil (k : Nat)

namespace Move

/-- The trail after the move. -/
def apply (t : Trail) : Move → Except Fault Trail
  | register v => t.register v
  | enqueue l reason => do return (← t.enqueue l reason).2
  | openLevel => .ok t.openLevel
  | cancel => t.cancel
  | cancelUntil k => t.cancelUntil k

/-- The move leaves the root or goes to a level above the current one, which is the fault. -/
def Oversteps (t : Trail) (fault : Fault) : Move → Prop
  | cancel => t.level = 0 ∧ fault = .rootLevelPopped
  | cancelUntil k => t.level < k ∧ fault = .levelNotReached
  | _ => False

end Move

/-- A trail with its past. -/
structure Course where
  /-- The trail. -/
  trail : Trail
  /-- For every level the trail just before the next level was opened last, if it ever was. -/
  before : Nat → Option Trail

namespace Course

/-- The trail without variables, and no past. -/
def start : Course := ⟨.empty, fun _ => none⟩

/-- The past after a move. -/
def past (c : Course) : Move → Nat → Option Trail
  | .openLevel => fun k => if k = c.trail.level then some c.trail else c.before k
  | _ => c.before

/-- The course after a move. -/
def move (c : Course) (m : Move) : Except Fault Course := do
  return ⟨← m.apply c.trail, c.past m⟩

end Course

/-! ## The past is where the trail begins -/

/-- The trail begins with the second one, behind which a level begins. -/
structure Recalls (t t₀ : Trail) : Prop where
  /-- The second trail is valid. -/
  valid : t₀.Valid
  /-- Its literals come first. -/
  literals : t₀.literals <+: t.literals
  /-- So do its levels, and then one that begins at its end. -/
  limits : t₀.limits ++ [t₀.length] <+: t.limits
  /-- Its literals keep their causes. -/
  causes : ∀ l ∈ t₀.literals, t.causeAt l.var = t₀.causeAt l.var

namespace Recalls

variable {t t' t₀ : Trail} {k : Nat} {l : Lit}

theorem startOf (h : t.Recalls t₀) : t.startOf t₀.level = t₀.length := by
  obtain ⟨more, e⟩ := h.limits
  rw [Trail.startOf, ← e, ← length_limits, List.append_assoc, List.getElem?_append_right
    (Nat.le_refl _)]
  simp

theorem openLevel (h : t.Recalls t₀) : t.openLevel.Recalls t₀ where
  valid := h.valid
  literals := h.literals
  limits := by
    rw [limits_openLevel]
    exact h.limits.trans (List.prefix_append ..)
  causes := h.causes

theorem opened (h : t.Valid) : t.openLevel.Recalls t where
  valid := h
  literals := List.prefix_rfl
  limits := limits_openLevel t ▸ List.prefix_rfl
  causes _ _ := rfl

theorem widens (h : t.Recalls t₀) (w : t.Widens t') : t'.Recalls t₀ where
  valid := h.valid
  literals := h.literals.trans w.literals
  limits := w.limits ▸ h.limits
  causes l hl := (w.causes l (h.literals.subset hl)).trans (h.causes l hl)

/-- Going back to a level above the one where the second trail ends leaves it in front. -/
theorem backtracks (h : t.Recalls t₀) (valid : t.Valid) (back : t.Backtracks t' k)
    (above : t₀.level < k) : t'.Recalls t₀ := by
  have front : t₀.literals <+: t'.literals := by
    have short : t₀.literals.length ≤ t.startOf k := by
      rw [length_literals, ← h.startOf]
      exact valid.startOf_mono (Nat.le_of_lt above)
    rw [back.literals]
    exact List.prefix_take_iff.2 ⟨h.literals, short⟩
  refine ⟨h.valid, front, ?_, fun l hl => ?_⟩
  · rw [back.limits]
    refine List.prefix_take_iff.2 ⟨h.limits, ?_⟩
    rw [List.length_append, List.length_singleton, length_limits]
    exact above
  · exact (back.cause_of_mem valid.toCoherent (front.subset hl)).trans (h.causes l hl)

/-- Going back to the level where the second trail ends leaves nothing else. -/
theorem literals_eq (h : t.Recalls t₀) (back : t.Backtracks t' t₀.level) :
    t'.literals = t₀.literals := by
  rw [back.literals, h.startOf, ← length_literals]
  exact (List.prefix_iff_eq_take.1 h.literals).symm

theorem limits_eq (h : t.Recalls t₀) (back : t.Backtracks t' t₀.level) :
    t'.limits = t₀.limits := by
  rw [back.limits, ← length_limits]
  exact (List.prefix_iff_eq_take.1 ((List.prefix_append ..).trans h.limits)).symm

theorem cause_eq (h : t.Recalls t₀) (valid : t.Valid) (back : t.Backtracks t' t₀.level)
    (hl : l ∈ t'.literals) : t'.causeAt l.var = t₀.causeAt l.var :=
  (back.cause_of_mem valid.toCoherent hl).trans (h.causes l (h.literals_eq back ▸ hl))

end Recalls

/-! ## What every move keeps -/

theorem Backtracks.blank {t t' : Trail} {k : Nat} (back : t.Backtracks t' k) (blank : t.Blank) :
    t'.Blank := by
  intro v free
  rw [back.causes]
  split
  · rfl
  · rename_i left
    refine blank v fun l hl e => ?_
    rw [← List.take_append_drop (t.startOf k) t.literals, List.mem_append, ← back.literals] at hl
    exact hl.elim (fun kept => free l kept e) fun gone => left ⟨l, gone, e⟩

/-- The trail is valid, and begins with every trail of its past below the current level. -/
structure Course.Sound (c : Course) : Prop where
  /-- The trail is valid. -/
  valid : c.trail.Valid
  /-- No cause is left behind. -/
  blank : c.trail.Blank
  /-- The past. -/
  recalls : ∀ k, k < c.trail.level →
    ∃ t₀, c.before k = some t₀ ∧ t₀.level = k ∧ c.trail.Recalls t₀

namespace Course

variable {c : Course} {t : Trail} {k : Nat}

theorem sound_start : start.Sound where
  valid := valid_empty
  blank v _ := by simp [start, empty, causeAt]
  recalls k low := absurd low (Nat.not_lt_zero k)

theorem Sound.widens (h : c.Sound) (w : c.trail.Widens t) : Sound ⟨t, c.before⟩ where
  valid := w.valid
  blank := w.blank h.blank
  recalls k low := by
    have same : t.level = c.trail.level := by
      rw [← length_limits, ← length_limits, w.limits]
    obtain ⟨t₀, past, level, recalls⟩ := h.recalls k (same ▸ low)
    exact ⟨t₀, past, level, recalls.widens w⟩

theorem Sound.openLevel (h : c.Sound) : Sound ⟨c.trail.openLevel, c.past .openLevel⟩ where
  valid := valid_openLevel h.valid
  blank := h.blank
  recalls k low := by
    rw [level_openLevel] at low
    dsimp only [past]
    split
    · rename_i here
      exact ⟨c.trail, rfl, here.symm, .opened h.valid⟩
    · obtain ⟨t₀, past, level, recalls⟩ := h.recalls k (by omega)
      exact ⟨t₀, past, level, recalls.openLevel⟩

theorem Sound.backtracks (h : c.Sound) (le : k ≤ c.trail.level) (valid : t.Valid)
    (back : c.trail.Backtracks t k) : Sound ⟨t, c.before⟩ where
  valid := valid
  blank := back.blank h.blank
  recalls j low := by
    have below : j < k := back.level le ▸ low
    obtain ⟨t₀, past, level, recalls⟩ := h.recalls j (Nat.lt_of_lt_of_le below le)
    exact ⟨t₀, past, level, recalls.backtracks h.valid back (level ▸ below)⟩

/-- A move succeeds, unless it goes below the root or above the current level. -/
theorem Sound.move_ends (h : c.Sound) (m : Move) :
    Ends (c.move m) Sound fun fault => m.Oversteps c.trail fault := by
  cases m with
  | register v =>
    exact ((register_widens h.valid v).bind fun t w => .pure (h.widens w.1)).ends
  | enqueue l reason =>
    have enqueued : Yields (Move.apply c.trail (.enqueue l reason)) c.trail.Widens :=
      (enqueue_widens h.valid l reason).bind fun r w => .pure w
    exact (enqueued.bind fun t w => .pure (h.widens w)).ends
  | openLevel => exact h.openLevel
  | cancel =>
    rcases Nat.eq_zero_or_pos c.trail.level with root | above
    · have none : c.trail.entries.limits.back? = none := by
        rw [← Array.getLast?_toList, List.getLast?_eq_none_iff]
        exact List.length_eq_zero_iff.1 ((length_limits c.trail).trans root)
      have refused : c.trail.cancel = .error .rootLevelPopped := by
        simp only [Trail.cancel, LevelStack.leaveLevel, none]
        rfl
      rw [Course.move, Move.apply, refused]
      exact ⟨root, rfl⟩
    · refine ((cancel_yields h.valid above).bind fun t left => ?_).ends
      exact .pure (h.backtracks (Nat.sub_le ..) left.1 left.2)
  | cancelUntil k =>
    by_cases le : k ≤ c.trail.level
    · refine ((cancelUntil_yields h.valid le).bind fun t left => ?_).ends
      exact .pure (h.backtracks le left.1 left.2)
    · rw [Course.move, Move.apply, Trail.cancelUntil, if_neg le]
      exact ⟨Nat.lt_of_not_le le, rfl⟩

/-- So does a sequence of moves. -/
theorem Sound.moves_end (h : c.Sound) (moves : List Move) :
    Ends (moves.foldlM move c) Sound fun fault => ∃ done m rest, moves = done ++ m :: rest ∧
      ∃ c', done.foldlM move c = .ok c' ∧ m.Oversteps c'.trail fault := by
  induction moves generalizing c with
  | nil => exact h
  | cons m moves ih =>
    rw [List.foldlM_cons]
    cases e : c.move m with
    | error fault =>
      have overstep := h.move_ends m
      rw [e] at overstep
      exact ⟨[], m, moves, rfl, c, rfl, overstep⟩
    | ok c₁ =>
      refine Ends.ok_bind ((ih ((h.move_ends m).of_ok e)).mono (fun _ => id) ?_)
      rintro fault ⟨done, m', rest, rfl, c', run, overstep⟩
      refine ⟨m :: done, m', rest, rfl, c', ?_, overstep⟩
      rw [List.foldlM_cons, e]
      exact run

end Course

/-! ## What a sound course says -/

/-- The trail, the assignment and the causes say the same. -/
structure InStep (t : Trail) : Prop where
  /-- The literals are over different variables. -/
  distinct : (t.literals.map Lit.var).Nodup
  /-- They are true. -/
  holds : ∀ l ∈ t.literals, t.isTrue l = true
  /-- Their variables are those with a value. -/
  assigned : ∀ v, t.assignment.isAssigned v = true ↔ v ∈ t.literals.map Lit.var
  /-- Their number is the number of values. -/
  count : t.assignment.numAssigned = t.length
  /-- The level kept for a literal is the number of levels that begin at its place or before. -/
  levels : ∀ i l, t.literals[i]? = some l →
    ∃ cause, t.causeOf l.var = .ok cause ∧ cause.level = t.limits.countP (· ≤ i)
  /-- Levels never decrease along the trail. -/
  increasing : (t.literals.map fun l => t.levelOf l.var).Pairwise (· ≤ ·)

theorem Valid.inStep {t : Trail} (h : t.Valid) : t.InStep := by
  have distinct := h.nodup_vars
  have assigned : ∀ v, t.assignment.isAssigned v = true ↔ v ∈ t.literals.map Lit.var := by
    intro v
    rw [List.mem_map, Assignment.isAssigned]
    constructor
    · intro value
      cases e : t.assignment.state v with
      | assigned b => exact ⟨⟨v, b⟩, (h.value_iff ⟨v, b⟩).1 e, rfl⟩
      | _ => simp [e, VarState.isAssigned] at value
    · rintro ⟨l, hl, rfl⟩
      rw [(h.value_iff l).2 hl]
      rfl
  refine ⟨distinct, fun l => h.isTrue_iff.2, assigned, ?_, fun i l hl => ?_, ?_⟩
  · -- the keys with a value are the variables of the trail, in another order
    have perm : (t.assignment.states.keysWith VarState.isAssigned).Perm
        (t.literals.map Lit.var) := by
      rw [Table.keysWith_eq_filter]
      refine (List.perm_ext_iff_of_nodup (List.nodup_range.filter _) distinct).2 fun v => ?_
      rw [← assigned, List.mem_filter, List.mem_range, Assignment.isAssigned]
      cases e : t.assignment.states.get? v with
      | none =>
        simp [Assignment.state, Assignment.stateIn, e, VarState.isAssigned]
      | some x =>
        rw [Assignment.state_of_get? e, Option.any_some]
        exact and_iff_right (Table.lt_size_of_get? e)
    rw [h.counted.assigned, ← Table.length_keysWith, perm.length_eq, List.length_map,
      length_literals]
  · exact ⟨_, h.causeOf_mem (List.mem_of_getElem? hl), h.level_eq i l hl⟩
  · rw [List.pairwise_map, List.pairwise_iff_getElem]
    intro i j hi hj lt
    rw [h.level_eq i _ (List.getElem?_eq_getElem hi), h.level_eq j _ (List.getElem?_eq_getElem hj)]
    exact t.levelAt_mono (Nat.le_of_lt lt)

/-- Going back from the course to the level `k` gives the trail `t`: what was held just before the
    level `k + 1` was opened last. -/
structure Course.Restores (c : Course) (k : Nat) (t : Trail) : Prop where
  /-- The level is the one that was asked for. -/
  level : t.level = k
  /-- On the current level nothing changes. -/
  stays : k = c.trail.level → t = c.trail
  /-- Below it literals and levels are as they were, with their values and causes. -/
  before : k < c.trail.level → ∃ t₀, c.before k = some t₀ ∧ t.literals = t₀.literals ∧
    t.limits = t₀.limits ∧ ∀ l ∈ t.literals, t.assignment.state l.var = t₀.assignment.state l.var ∧
      t.causeOf l.var = t₀.causeOf l.var
  /-- All other variables of the problem are without a value and a reason. -/
  others : ∀ v, t.Knows v → v ∉ t.literals.map Lit.var →
    t.assignment.isUnassigned v = true ∧ t.causeOf v = .ok Cause.none

theorem Course.Sound.restores {c : Course} (h : c.Sound) {k : Nat} (le : k ≤ c.trail.level) :
    Yields (c.trail.cancelUntil k) (c.Restores k) := by
  obtain ⟨t, e, valid, back⟩ := cancelUntil_yields h.valid le
  refine .of_eq e ⟨back.level le, ?_, fun below => ?_, fun v known free => ?_⟩
  · rintro rfl
    rw [cancelUntil, if_pos le, Nat.sub_self] at e
    cases e
    rfl
  · obtain ⟨t₀, past, rfl, recalls⟩ := h.recalls k below
    have literals := recalls.literals_eq back
    refine ⟨t₀, past, literals, recalls.limits_eq back, fun l hl => ⟨?_, ?_⟩⟩
    · rw [(valid.value_iff l).2 hl, (recalls.valid.value_iff l).2 (literals ▸ hl)]
    · rw [valid.causeOf_mem hl, recalls.valid.causeOf_mem (literals ▸ hl),
        recalls.cause_eq h.valid back hl]
  · have unassigned : t.assignment.isUnassigned v = true := by
      have known' : t.assignment.contains v = true := known
      rw [← valid.inStep.assigned] at free
      rw [Assignment.isAssigned] at free
      rw [Assignment.contains] at known'
      rw [Assignment.isUnassigned]
      cases e : t.assignment.state v <;>
        simp [e, VarState.isAssigned, VarState.isKnown, VarState.isUnassigned] at free known' ⊢
    refine ⟨unassigned, ?_⟩
    rw [causeOf_eq (valid.room v known)]
    exact congrArg _ (back.blank h.blank v fun l hl e => free (List.mem_map.2 ⟨l, hl, e⟩))

/-- Whatever is done to a trail, its parts stay in step, and going back to a level gives what was
    held just before the next one was opened last. The only faults are those of a move that leaves
    the root or goes to a level above the current one. -/
theorem run_recalls (moves : List Move) :
    Ends (moves.foldlM Course.move .start)
      (fun c => c.trail.InStep ∧
        ∀ k ≤ c.trail.level, Yields (c.trail.cancelUntil k) (c.Restores k))
      fun fault => ∃ done m rest, moves = done ++ m :: rest ∧
        ∃ c, done.foldlM Course.move .start = .ok c ∧ m.Oversteps c.trail fault :=
  (Course.sound_start.moves_end moves).mono
    (fun _ sound => ⟨sound.valid.inStep, fun _ => sound.restores⟩) fun _ => id

/-- Level 2 is opened twice, with 3 true the first time and false the second time, and 2 was never
    registered: going back to level 1 gives what was held before the second time. -/
theorem run_recalls_opened_twice : ∃ c t,
    List.foldlM Course.move .start [.register 1, .register 3, .enqueue ⟨1, true⟩ (some 0),
      .openLevel, .enqueue ⟨2, false⟩ none, .openLevel, .enqueue ⟨3, true⟩ none, .cancel,
      .register 4, .openLevel, .enqueue ⟨3, false⟩ none, .enqueue ⟨4, true⟩ (some 1)] = .ok c ∧
    c.trail.level = 2 ∧ c.trail.InStep ∧ c.trail.cancelUntil 1 = .ok t ∧
    t.literals = [⟨1, true⟩, ⟨2, false⟩] ∧ c.Restores 1 t := by
  let moves : List Move := [.register 1, .register 3, .enqueue ⟨1, true⟩ (some 0), .openLevel,
    .enqueue ⟨2, false⟩ none, .openLevel, .enqueue ⟨3, true⟩ none, .cancel, .register 4, .openLevel,
    .enqueue ⟨3, false⟩ none, .enqueue ⟨4, true⟩ (some 1)]
  have run : (moves.foldlM Course.move .start >>= fun c =>
      (c.trail.cancelUntil 1).map fun t => (c.trail.level, t.literals)) =
        .ok (2, [⟨1, true⟩, ⟨2, false⟩]) := by
    cbv
  obtain ⟨c, e, run⟩ := Yields.exists_of_bind run
  obtain ⟨t, back, run⟩ := Yields.of_map run
  rw [Prod.mk.injEq] at run
  obtain ⟨inStep, restores⟩ := (run_recalls moves).of_ok e
  exact ⟨c, t, e, run.1, inStep, back, run.2, (restores 1 (by omega)).of_ok back⟩

end ClauseLearning.Trail
