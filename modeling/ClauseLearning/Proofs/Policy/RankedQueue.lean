/-
  The priority queue and the assignment.

  Model. A queue is in step with some states when its books are in order and the unassigned
  variables, no others, are present (`RankedQueue.InStep`). A queue that is built is in step
  (`build_yields`), and so is one that was in step with the states seen last and has noted the
  changes since then (`noteChanges_yields`).

  Rule. A queue that is in step counts as many present variables as the numbers beside the
  assignment say (`InStep.present_eq`), so bringing it up to date never finds it out of step
  (`next_yields`).
-/
import ClauseLearning.Policy.RankedQueue
import ClauseLearning.Proofs.Assignment.Changes
import ClauseLearning.Proofs.Heap.Places
import ClauseLearning.Proofs.Policy.Contract

namespace ClauseLearning

namespace RankedQueue

variable {k : Ranking} {a : Assignment} {queue : Heap Priority} {seen : Var → VarState}

/-- The books of the queue are in order, and the unassigned variables are present. -/
structure InStep (queue : Heap Priority) (states : Var → VarState) : Prop where
  /-- The books. -/
  kept : queue.Kept
  /-- The present variables. -/
  isPresent : ∀ v, queue.isPresent v = (states v).isUnassigned

/-! ## Building -/

/-- The next variable comes into the queue, present if it is unassigned. -/
theorem enlist_yields (k : Ranking) (a : Assignment) (kept : queue.Kept) :
    Yields (enlist k a queue queue.size) fun queue' =>
      queue'.Kept ∧ queue'.size = queue.size + 1 ∧
        ∀ v, queue'.isPresent v =
          if v = queue.size then a.isUnassigned v else queue.isPresent v := by
  refine (Heap.grow_yields kept _).bind fun wide turns => ?_
  have size := turns.size.trans (Heap.size_behind _ _)
  have present : ∀ v, wide.isPresent v = if v = queue.size then true else queue.isPresent v := by
    intro v
    rw [turns.isPresent v, Heap.isPresent_behind kept]
  split
  · rename_i unassigned
    refine .pure ⟨turns.kept, size, fun v => ?_⟩
    rw [present v]
    split
    · rename_i same
      rw [same, unassigned]
    · rfl
  · rename_i other
    refine (Heap.delete_yields turns.kept queue.size).mono fun less out => ?_
    refine ⟨out.kept, out.size.trans size, fun v => ?_⟩
    rw [out.isPresent v, present v]
    split
    · rename_i same
      rw [same, Bool.eq_false_iff.2 other]
    · rfl

/-- After `n` variables. -/
theorem enlistMany_yields (k : Ranking) (a : Assignment) (n : Nat) :
    Yields ((List.range n).foldlM (enlist k a) .empty) fun queue =>
      queue.Kept ∧ queue.size = n ∧
        ∀ v, queue.isPresent v = (decide (v < n) && a.isUnassigned v) := by
  induction n with
  | zero =>
    refine .ok ⟨Heap.kept_empty, rfl, fun v => ?_⟩
    rw [Heap.isPresent_empty, decide_eq_false (Nat.not_lt_zero v), Bool.false_and]
  | succ n ih =>
    rw [List.range_succ, List.foldlM_append]
    refine ih.bind fun queue before => ?_
    obtain ⟨kept, rfl, present⟩ := before
    rw [List.foldlM_cons]
    refine (enlist_yields k a kept).bind fun queue' after => ?_
    obtain ⟨kept', size', present'⟩ := after
    refine .pure ⟨kept', size', fun v => ?_⟩
    rw [present' v, present v]
    split
    · rename_i same
      simp [same]
    · rename_i different
      have same : decide (v < queue.size + 1) = decide (v < queue.size) :=
        decide_eq_decide.2 (by omega)
      rw [same]

theorem build_yields (k : Ranking) (a : Assignment) :
    Yields (build k a) fun queue => InStep queue a.state ∧ queue.size = a.capacity := by
  refine (enlistMany_yields k a a.capacity).mono fun queue ⟨kept, size, present⟩ =>
    ⟨⟨kept, fun v => ?_⟩, size⟩
  rw [present v]
  cases unassigned : a.isUnassigned v with
  | false => rw [Bool.and_false]; exact unassigned.symm
  | true =>
    have inside : v < a.capacity :=
      Assignment.lt_capacity_of_known (Assignment.contains_of_isUnassigned unassigned)
    rw [Bool.and_true]
    exact (decide_eq_true inside).trans unassigned.symm

/-! ## Noting changes -/

/-- A variable comes back when it is unassigned again, and is taken out otherwise. -/
theorem noteChange_yields {ch : Change} (kept : queue.Kept)
    (inside : ch.current = .unassigned → ch.var < queue.size) :
    Yields (noteChange queue ch) (queue.Turns ch.var ch.current.isUnassigned) := by
  unfold noteChange
  split
  · rename_i unassigned
    rw [unassigned]
    exact Heap.restore_yields kept (inside unassigned)
  · rename_i other
    have now : ch.current.isUnassigned = false := by
      cases e : ch.current <;> first | rfl | exact absurd e other
    rw [now]
    exact Heap.delete_yields kept ch.var

/-- A queue in step with the states seen last comes in step with those of now, if it has room for
    every variable. -/
theorem noteChanges_yields (step : InStep queue seen) (since : a.Since seen)
    (size : queue.size = a.capacity) :
    Yields (a.changes.foldlM noteChange queue) fun queue' =>
      InStep queue' a.state ∧ queue'.size = a.capacity := by
  have current : ∀ ch ∈ a.changes, ch.current = a.state ch.var := fun ch hch =>
    ((since.mem_changes ch).1 hch).2.2
  refine (Yields.foldlM (fun done q => q.Kept ∧ q.size = a.capacity ∧ ∀ v,
      (v ∈ done.map Change.var → q.isPresent v = (a.state v).isUnassigned) ∧
      (v ∉ done.map Change.var → q.isPresent v = (seen v).isUnassigned)) a.changes
    ⟨step.kept, size, fun v => ⟨fun mem => (List.not_mem_nil mem).elim, fun _ => step.isPresent v⟩⟩
    ?_).mono ?_
  · intro done ch hch q before
    obtain ⟨kept, size, present⟩ := before
    have inside : ch.current = .unassigned → ch.var < q.size := fun unassigned =>
      size ▸ since.lt_capacity_of_change hch unassigned
    refine (noteChange_yields kept inside).mono fun q' turns =>
      ⟨turns.kept, turns.size.trans size, fun v => ?_⟩
    rw [turns.isPresent v, current ch hch, List.map_append, List.mem_append]
    by_cases same : v = ch.var
    · simp [same]
    · simpa [same] using present v
  · intro q after
    obtain ⟨kept, size, present⟩ := after
    refine ⟨⟨kept, fun v => ?_⟩, size⟩
    by_cases changed : v ∈ a.changes.map Change.var
    · exact (present v).1 changed
    · -- what is no change has the state it had
      have same : seen v = a.state v := Decidable.byContradiction fun differs =>
        changed (List.mem_map.2 ⟨⟨v, seen v, a.state v⟩,
          (since.mem_changes _).2 ⟨differs, rfl, rfl⟩, rfl⟩)
      rw [(present v).2 changed, same]

/-! ## Requests -/

/-- The queue counts the variables without a value. -/
theorem InStep.present_eq (step : InStep queue a.state) (counted : a.Counted)
    (size : queue.size = a.capacity) : queue.present = a.numVariables - a.numAssigned := by
  have same : ∀ v, queue.isPresent v = (a.states.get? v).any VarState.isUnassigned := by
    intro v
    rw [step.isPresent v, Assignment.state, Assignment.stateIn]
    cases a.states.get? v <;> rfl
  have unassigned : queue.present = a.states.count VarState.isUnassigned := by
    rw [← step.kept.count_present, funext same, size, ← Table.length_keysWith,
      Table.keysWith_eq_filter, ← List.countP_eq_length_filter]
    rfl
  rw [unassigned, counted.assigned, counted.known, Assignment.count_known]
  omega

/-- The queue has to be built anew, or it is in step with the states seen last. -/
def Ready (p : RankedQueue) (seen : Var → VarState) : Prop :=
  p.stale = true ∨ InStep p.queue seen

theorem update_yields {stale : Bool} (since : a.Since seen)
    (ready : stale = true ∨ InStep queue seen) :
    Yields (update k stale queue a) fun queue' =>
      InStep queue' a.state ∧ queue'.size = a.capacity := by
  unfold update
  dsimp only
  split
  · exact build_yields k a
  · rename_i current
    simp only [Bool.or_eq_true, not_or, bne_iff_ne, ne_eq, not_not] at current
    obtain ⟨⟨fresh, -⟩, size⟩ := current
    exact noteChanges_yields (ready.resolve_left fresh) since size

/-- The variable in front of a queue in step is a right answer. -/
theorem InStep.isRight (step : InStep queue a.state) :
    Policy.IsRight a (queue.peek?.map Prod.fst) := by
  rcases Heap.peek?_spec step.kept with ⟨none, absent⟩ | ⟨v, _, front, present, -⟩
  · rw [none]
    exact fun v => (step.isPresent v).symm.trans (absent v)
  · rw [front]
    exact (step.isPresent v).symm.trans present

/-- A request names the right variable and leaves a queue in step with the states of now. -/
theorem next_yields {p : RankedQueue} (since : a.Since seen) (ready : p.Ready seen) :
    Yields (p.next a) fun answer => Policy.IsRight a answer.var? ∧ answer.consumed = true ∧
      InStep answer.policy.queue a.state := by
  obtain ⟨ranking, queue, stale⟩ := p
  refine (update_yields since ready).bind fun queue' ⟨step, size⟩ => ?_
  rw [if_neg (not_not.2 (step.present_eq since.counted size))]
  exact .pure ⟨step.isRight, rfl, step⟩

theorem contract : Policy.Contract fun (p : RankedQueue) seen _ => p.Ready seen where
  clause _ ready := ready
  require _ _ := .inl rfl
  next since ready := (next_yields since ready).mono fun _ ⟨right, consumed, step⟩ =>
    ⟨right, fun unread => absurd consumed (Bool.eq_false_iff.1 unread), .inr step⟩

end RankedQueue

end ClauseLearning
