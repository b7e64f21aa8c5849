/-
  What the changes of an assignment say.

  Model. Since somebody last looked, every variable had a state, `seen`. A log is in step with the
  states when it knows the variables touched since then with the state they had
  (`ChangeLog.Tracks`); an assignment is in step when its log is, and its numbers are right
  (`Assignment.Since`). Giving a value, taking it back and removing a variable keep it in step
  with the same `seen`, and whoever consumes the changes makes the states of now the ones seen
  (`since_consume`).

  Rule. The changes are exactly the variables whose state differs from the one seen, with both
  states (`Since.mem_changes`).
-/
import ClauseLearning.Proofs.Assignment.Counted

namespace ClauseLearning

/-! ## The log -/

namespace ChangeLog

variable {c : ChangeLog} {seen now now' : Var → VarState} {v : Var}

/-- The log knows the variables touched since the states were `seen`, with their states then. -/
structure Tracks (c : ChangeLog) (seen now : Var → VarState) : Prop where
  /-- The list has the variables that the map has. -/
  touched : ∀ v, v ∈ c.touched ↔ c.earlier.contains v = true
  /-- The state of a touched variable then. -/
  noted : ∀ v x, c.earlier.get? v = some x → seen v = x
  /-- Any other variable has the state it had. -/
  untouched : ∀ v, c.earlier.get? v = none → now v = seen v

theorem tracks_empty (now : Var → VarState) : empty.Tracks now now where
  touched v := by simp [empty]
  noted v x h := by simp [empty] at h
  untouched _ _ := rfl

/-- A variable is noted before its state changes. -/
theorem Tracks.note (t : c.Tracks seen now) (other : ∀ w, w ≠ v → now' w = now w) :
    (c.note v (now v)).Tracks seen now' := by
  obtain ⟨earlier, list⟩ := c
  unfold ChangeLog.note
  dsimp only
  split
  · rename_i known
    refine ⟨t.touched, t.noted, fun w fresh => ?_⟩
    have different : w ≠ v := by
      rintro rfl
      rw [NatMap.contains, fresh] at known
      cases known
    rw [other w different, t.untouched w fresh]
  · rename_i unknown
    have fresh : earlier.get? v = none := by
      simpa [NatMap.contains] using unknown
    refine ⟨fun w => ?_, fun w x h => ?_, fun w h => ?_⟩
    · change w ∈ v :: list ↔ _
      rw [List.mem_cons, t.touched w, NatMap.contains_insert, Bool.or_eq_true, beq_iff_eq]
    · dsimp only at h
      rw [NatMap.get?_insert] at h
      split at h
      · rename_i same
        cases h
        rw [same, t.untouched v fresh]
      · exact t.noted w x h
    · dsimp only at h
      rw [NatMap.get?_insert] at h
      split at h
      · cases h
      · rename_i different
        rw [other w different, t.untouched w h]

/-- A variable is a change if its state differs from the one seen. -/
theorem Tracks.change?_eq (t : c.Tracks seen now) (v : Var) :
    c.change? v (now v) = if seen v = now v then none else some ⟨v, seen v, now v⟩ := by
  unfold change?
  split
  · rename_i fresh
    rw [if_pos (t.untouched v fresh).symm]
  · rename_i x noted
    rw [t.noted v x noted]

theorem Tracks.mem_changes (t : c.Tracks seen now) (ch : Change) :
    ch ∈ c.changes now ↔
      seen ch.var ≠ now ch.var ∧ ch.previous = seen ch.var ∧ ch.current = now ch.var := by
  unfold changes
  rw [List.mem_filterMap]
  constructor
  · rintro ⟨v, -, found⟩
    rw [t.change?_eq] at found
    split at found
    · cases found
    · rename_i differs
      cases found
      exact ⟨differs, rfl, rfl⟩
  · rintro ⟨differs, previous, current⟩
    have known : ch.var ∈ c.touched := by
      rw [t.touched, NatMap.contains, Option.isSome_iff_ne_none]
      exact fun fresh => differs (t.untouched _ fresh).symm
    refine ⟨ch.var, (List.mergeSort_perm _ _).mem_iff.2 known, ?_⟩
    rw [t.change?_eq, if_neg differs, ← previous, ← current]

end ChangeLog

/-! ## Assignments -/

namespace Assignment

variable {a a' : Assignment} {seen : Var → VarState} {v : Var} {value : Option Bool}

/-- The numbers are right, and the log knows what has happened since the states were `seen`. -/
structure Since (seen : Var → VarState) (a : Assignment) : Prop where
  /-- The numbers. -/
  counted : a.Counted
  /-- The log. -/
  tracks : a.log.Tracks seen a.state

theorem since_empty : empty.Since empty.state := ⟨counted_empty, ChangeLog.tracks_empty _⟩

theorem since_consume (c : a.Counted) : a.consume.Since a.state :=
  ⟨⟨c.assigned, c.known⟩, ChangeLog.tracks_empty _⟩

theorem Since.reserve (s : a.Since seen) (v : Var) : (a.reserve v).Since seen := by
  refine ⟨counted_reserve s.counted v, ?_⟩
  rw [show (a.reserve v).state = a.state from funext (state_reserve a v)]
  exact s.tracks

theorem log_of_put {new : VarState} (e : a.put v new = .ok a') :
    a'.log = a.log.note v (a.state v) := by
  obtain ⟨states, log, numAssigned, numVariables⟩ := a
  obtain ⟨_, -, e⟩ := Yields.exists_of_bind e
  obtain ⟨_, -, e⟩ := Yields.exists_of_bind e
  obtain ⟨_, -, e⟩ := Yields.exists_of_bind e
  cases e
  rfl

theorem Since.put (s : a.Since seen) (hv : v < a.states.size) (new : VarState) :
    Yields (a.put v new) fun a' =>
      a'.Since seen ∧ ∀ w, a'.state w = if w = v then new else a.state w := by
  obtain ⟨a', e, counted, state⟩ := put_yields s.counted hv new
  refine .of_eq e ⟨⟨counted, ?_⟩, state⟩
  rw [log_of_put e]
  exact s.tracks.note fun w different => by rw [state w, if_neg different]

/-- A variable is set, unless it has the other value. -/
theorem Since.set (s : a.Since seen) (v : Var) (value : Option Bool) :
    Ends (a.set v value)
      (fun a' => a'.Since seen ∧ ∀ w, a'.state w = if w = v then .ofValue value else a.state w)
      fun fault => ∃ b, a.state v = .assigned b ∧ value = some !b ∧
        fault = .reassigned v (.assigned b) (.assigned !b) := by
  have other : ∀ b, VarState.ofValue value = .assigned (!b) → value = some !b := fun b e => by
    rw [← VarState.value?_ofValue value, e]
    rfl
  unfold Assignment.set
  split
  · rename_i old new
    exact ⟨true, old, other true new, rfl⟩
  · rename_i old new
    exact ⟨false, old, other false new, rfl⟩
  · refine (((s.reserve v).put (lt_size_reserve a v) _).mono fun a' ⟨since, state⟩ =>
      ⟨since, fun w => ?_⟩).ends
    rw [state w, state_reserve]

/-- A variable goes. -/
theorem Since.remove (s : a.Since seen) (v : Var) :
    Yields (a.remove v) fun a' =>
      a'.Since seen ∧ ∀ w, a'.state w = if w = v then .missing else a.state w := by
  unfold Assignment.remove
  split
  · rename_i known
    exact s.put (lt_capacity_of_known known) _
  · rename_i unknown
    refine .ok ⟨s, fun w => ?_⟩
    split
    · rename_i same
      rw [same]
      cases e : a.state v <;> simp [contains, e, VarState.isKnown] at unknown ⊢
    · rfl

/-- What values given and taken back, and whoever looked at the changes, make of the assignment in
    which every variable is missing. -/
inductive Made : Assignment → Prop
  /-- Every variable is missing. -/
  | empty : Made .empty
  /-- A variable is set. -/
  | set {b b' : Assignment} (w : Var) (x : Option Bool) (made : Made b) (e : b.set w x = .ok b') :
    Made b'
  /-- A variable goes. -/
  | remove {b b' : Assignment} (w : Var) (made : Made b) (e : b.remove w = .ok b') : Made b'
  /-- The changes are consumed. -/
  | consume {b : Assignment} (made : Made b) : Made b.consume

/-- There are states that were seen last. -/
theorem Made.exists_since (made : a.Made) : ∃ seen, a.Since seen := by
  induction made with
  | empty => exact ⟨_, since_empty⟩
  | set v value _ e ih =>
    obtain ⟨seen, since⟩ := ih
    exact ⟨seen, ((since.set v value).of_ok e).1⟩
  | remove v _ e ih =>
    obtain ⟨seen, since⟩ := ih
    exact ⟨seen, ((since.remove v).of_ok e).1⟩
  | consume _ ih =>
    obtain ⟨seen, since⟩ := ih
    exact ⟨_, since_consume since.counted⟩

theorem Since.mem_changes (s : a.Since seen) (ch : Change) :
    ch ∈ a.changes ↔
      seen ch.var ≠ a.state ch.var ∧ ch.previous = seen ch.var ∧ ch.current = a.state ch.var :=
  s.tracks.mem_changes ch

/-- A variable that has lost its value has a state. -/
theorem Since.lt_capacity_of_change (s : a.Since seen) {ch : Change} (mem : ch ∈ a.changes)
    (unassigned : ch.current = .unassigned) : ch.var < a.capacity := by
  rw [((s.mem_changes ch).1 mem).2.2] at unassigned
  refine lt_capacity_of_known (contains_of_isUnassigned ?_)
  rw [isUnassigned, unassigned, VarState.isUnassigned]

end Assignment

end ClauseLearning
