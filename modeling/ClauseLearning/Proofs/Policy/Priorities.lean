/-
  The order in which the priority queue answers.

  Model. Variables are compared by group, then by rank, then by number (`Priority.key`), and the
  values of the queue are in the opposite order, so that the greatest one belongs to the variable
  to decide on. Between requests anything happens to the assignment, and variables are required
  (`Consultation.move`); nobody else consumes the changes. A consultation is calm if since the
  queue was built last no deletion has displaced a value in it (`Consultation.isCalm`).

  Rule. A queue that is built is ordered: a variable that is taken out again at once displaces
  nothing (`build_ranked`). So popping it gives the unassigned variables, each once, in their order
  (`popMany_of_build`). From there on taking note of the changes is a sequence of steps on a
  heap. So every request is answered by an unassigned variable, by none only if there is none,
  and at a calm one by the first variable in the order (`next_of_moves`). At others it may be a
  later one (`next_not_first`).
-/
import Mathlib.Data.Prod.Lex
import ClauseLearning.Proofs.Heap.Emptied
import ClauseLearning.Proofs.Policy.RankedQueue

namespace ClauseLearning

/-! ## The order of the variables -/

namespace Priority

/-- The group, the rank and the number, compared in this order. -/
def key (a : Priority) : Nat ×ₗ Nat ×ₗ Nat := toLex (a.group, toLex (a.rank, a.var))

theorem key_injective : Function.Injective key := by
  rintro ⟨g, r, v⟩ ⟨g', r', v'⟩ e
  have parts := toLex.injective e
  rw [Prod.mk.injEq, EmbeddingLike.apply_eq_iff_eq, Prod.mk.injEq] at parts
  obtain ⟨rfl, rfl, rfl⟩ := parts
  rfl

theorem before_iff {a b : Priority} : a.before b = true ↔ a.key < b.key := by
  simp [before, key, Prod.Lex.toLex_lt_toLex]

/-- The greater priority is the one with the lower key. -/
instance : LinearOrder Priority where
  lt a b := a < b
  le a b := b.key ≤ a.key
  le_refl a := le_refl a.key
  le_trans _ _ _ ab bc := le_trans bc ab
  le_antisymm _ _ ab ba := key_injective (le_antisymm ba ab)
  le_total a b := le_total b.key a.key
  lt_iff_le_not_ge a b := before_iff.trans lt_iff_le_not_ge
  toDecidableLE a b := inferInstanceAs (Decidable (b.key ≤ a.key))
  toDecidableLT := inferInstance

end Priority

namespace Ranking

/-- The priorities of the first `n` variables. -/
def priorities (k : Ranking) (n : Nat) : List Priority := (List.range n).map k.priority

theorem priorities_succ (k : Ranking) (n : Nat) :
    k.priorities (n + 1) = k.priorities n ++ [k.priority n] := by
  rw [priorities, List.range_succ, List.map_append]
  rfl

theorem length_priorities (k : Ranking) (n : Nat) : (k.priorities n).length = n := by
  rw [priorities, List.length_map, List.length_range]

/-- What is named is the first unassigned variable, and none is named only if there is none. -/
def IsFirst (k : Ranking) (a : Assignment) : Option Var → Prop
  | some v => a.isUnassigned v = true ∧
      ∀ w, a.isUnassigned w = true → (k.priority v).key ≤ (k.priority w).key
  | none => ∀ v, a.isUnassigned v = false

end Ranking

namespace RankedQueue

variable {k : Ranking} {a : Assignment} {queue : Heap Priority} {seen : Var → VarState}
  {stale calm : Bool} {n : Nat}

/-! ## The queue -/

/-- The variables have their priorities in the queue, which is ordered if it is calm. -/
structure Ranked (k : Ranking) (queue : Heap Priority) (calm : Bool) : Prop where
  /-- The priorities. -/
  holds : queue.Holds (k.priorities queue.size)
  /-- The order. -/
  ordered : calm = true → queue.Ordered

theorem Ranked.valueOf? (ranked : Ranked k queue calm) {v : Var}
    (present : queue.isPresent v = true) : queue.valueOf? v = some (k.priority v) := by
  rw [ranked.holds.valueOf?, Ranking.priorities, List.getElem?_map,
    List.getElem?_range (ranked.holds.kept.lt_size present), Option.map_some]

/-- In a calm queue the first unassigned variable is in front. -/
theorem Ranked.isFirst (ranked : Ranked k queue calm) (step : InStep queue a.state)
    (quiet : calm = true) : k.IsFirst a (queue.peek?.map Prod.fst) := by
  rcases Heap.peek?_spec step.kept with ⟨none, absent⟩ | ⟨v, b, front, present, hb⟩
  · rw [none]
    exact fun v => (step.isPresent v).symm.trans (absent v)
  · rw [front]
    refine ⟨(step.isPresent v).symm.trans present, fun w unassigned => ?_⟩
    have here := (step.isPresent w).trans unassigned
    have le := (ranked.ordered quiet).le_peek? step.kept front here (ranked.valueOf? here)
    cases (ranked.valueOf? present).symm.trans hb
    exact le

/-- The next variable comes into an ordered queue, which stays ordered also if it goes at once. -/
theorem enlist_holds (a : Assignment) (holds : queue.Holds (k.priorities n)) (o : queue.Ordered) :
    Yields (enlist k a queue n) fun queue' =>
      queue'.Holds (k.priorities (n + 1)) ∧ queue'.Ordered := by
  have size : queue.size = n := holds.size.trans (k.length_priorities n)
  subst size
  obtain ⟨wide, grown, turns⟩ := Heap.grow_yields holds.kept (k.priority queue.size)
  have holds' := (holds.behind _).turns turns
  have o' := Heap.ordered_of_grow holds.kept o grown
  rw [k.priorities_succ, enlist, grown]
  refine .ok_bind ?_
  split
  · exact .pure ⟨holds', o'⟩
  · obtain ⟨less, deleted, out⟩ := Heap.delete_yields holds'.kept queue.size
    have quiet := Heap.not_displaces_of_grow holds.kept o grown
    exact .of_eq deleted ⟨holds'.turns out, (Heap.ordered_delete_iff holds'.kept o' deleted).2 quiet⟩

/-- A queue that is built is ordered. -/
theorem build_ranked (k : Ranking) (a : Assignment) :
    Yields (build k a) (Ranked k · true) := by
  have after : ∀ n, Yields ((List.range n).foldlM (enlist k a) .empty) fun queue =>
      queue.Holds (k.priorities n) ∧ queue.Ordered := by
    intro n
    induction n with
    | zero => exact .ok ⟨Heap.holds_empty, Heap.ordered_empty⟩
    | succ n ih =>
      rw [List.range_succ, List.foldlM_append]
      refine ih.bind fun queue ⟨holds, o⟩ => ?_
      rw [List.foldlM_cons]
      exact (enlist_holds a holds o).bind fun _ after => .ok after
  refine (after a.capacity).mono fun queue ⟨holds, o⟩ => ⟨?_, fun _ => o⟩
  rwa [holds.size, k.length_priorities]

/-- Popping a queue that was built gives the unassigned variables, each once, in the order of their
    groups, ranks and numbers, and then none. -/
theorem popMany_of_build (k : Ranking) (a : Assignment) : ∃ vs : List Var,
    (∀ v, v ∈ vs ↔ a.isUnassigned v = true) ∧
      vs.Pairwise (fun v w => (k.priority v).key < (k.priority w).key) ∧
      Yields (build k a) fun queue => ∀ n, Yields (queue.popMany n) fun popped =>
        popped.1 = vs.take n ∧ (vs.length ≤ n → popped.2.pop = .ok (none, popped.2)) := by
  obtain ⟨queue, built, step, -⟩ := build_yields k a
  have ranked := (build_ranked k a).of_ok built
  obtain ⟨vs, emptied⟩ := (ranked.ordered rfl).exists_emptiedBy step.kept
  refine ⟨vs, fun v => ?_, ?_, .of_eq built emptied.popMany⟩
  · rw [emptied.mem, step.isPresent]
    exact Iff.rfl
  · refine (emptied.nodup.and emptied.sorted).imp_of_mem fun {v w} hv hw ⟨different, le⟩ => ?_
    have first := ranked.valueOf? ((emptied.mem v).1 hv)
    have second := ranked.valueOf? ((emptied.mem w).1 hw)
    refine lt_of_le_of_ne (le _ _ first second) fun same => different ?_
    exact congrArg Priority.var (Priority.key_injective same)

/-- What a change means for the queue. -/
def stepOf (ch : Change) : Heap.Step Priority :=
  if ch.current = .unassigned then .restore ch.var else .delete ch.var

theorem noteChange_eq (queue : Heap Priority) (ch : Change) :
    noteChange queue ch = (stepOf ch).apply queue := by
  unfold noteChange stepOf
  split <;> rfl

theorem noteChanges_eq (chs : List Change) (queue : Heap Priority) :
    chs.foldlM noteChange queue = queue.run (chs.map stepOf) := by
  rw [Heap.run, List.foldlM_map, funext₂ noteChange_eq]

/-- Changes put back variables of the queue only, and leave the priorities. -/
theorem proper_steps {vs : List Priority} {chs : List Change}
    (inside : ∀ ch ∈ chs, ch.current = .unassigned → ch.var < vs.length) :
    Heap.Proper vs (chs.map stepOf) ∧ Heap.valuesAfter vs (chs.map stepOf) = vs := by
  induction chs with
  | nil => exact ⟨trivial, rfl⟩
  | cons ch chs ih =>
    have rest := ih fun ch' mem => inside ch' (.tail _ mem)
    have first : (stepOf ch).Proper vs ∧ (stepOf ch).values vs = vs := by
      unfold stepOf
      split
      · rename_i unassigned
        exact ⟨inside ch (.head _) unassigned, rfl⟩
      · exact ⟨trivial, rfl⟩
    rw [List.map_cons, Heap.Proper, Heap.valuesAfter, List.foldl_cons, first.2]
    exact ⟨⟨first.1, rest.1⟩, rest.2⟩

/-- Whether the queue is built anew at a request. -/
def rebuilds (stale : Bool) (queue : Heap Priority) (a : Assignment) : Bool :=
  stale || a.changes.any reshapes || queue.size != a.capacity

/-- Whether the queue is calm at a request, if `calm` says so for the request before. -/
def isCalm (calm stale : Bool) (queue : Heap Priority) (a : Assignment) : Bool :=
  if rebuilds stale queue a then true else Heap.calmAfter calm queue (a.changes.map stepOf)

theorem update_ranked (since : a.Since seen) (ranked : stale = true ∨ Ranked k queue calm) :
    Yields (update k stale queue a) (Ranked k · (isCalm calm stale queue a)) := by
  unfold update isCalm
  dsimp only
  rw [← rebuilds]
  split
  · exact build_ranked k a
  · rename_i current
    simp only [rebuilds, Bool.or_eq_true, not_or, bne_iff_ne, ne_eq, not_not] at current
    obtain ⟨⟨fresh, -⟩, size⟩ := current
    obtain ⟨holds, o⟩ := ranked.resolve_left fresh
    have inside : ∀ ch ∈ a.changes, ch.current = .unassigned →
        ch.var < (k.priorities queue.size).length := by
      intro ch mem unassigned
      rw [k.length_priorities, size]
      exact since.lt_capacity_of_change mem unassigned
    obtain ⟨proper, values⟩ := proper_steps inside
    rw [noteChanges_eq]
    refine (holds.run_yields proper o).mono fun queue' after => ?_
    obtain ⟨holds', o'⟩ := after
    rw [values] at holds'
    refine ⟨?_, o'⟩
    rwa [holds'.size, k.length_priorities]

/-- A request names the first unassigned variable if the queue is calm. -/
theorem next_ranked {p : RankedQueue} (since : a.Since seen) (ready : p.Ready seen)
    (ranked : p.stale = true ∨ Ranked p.ranking p.queue calm) :
    Yields (p.next a) fun answer => answer.policy.ranking = p.ranking ∧
      Ranked p.ranking answer.policy.queue (isCalm calm p.stale p.queue a) ∧
        (isCalm calm p.stale p.queue a = true → p.ranking.IsFirst a answer.var?) := by
  obtain ⟨ranking, queue, stale⟩ := p
  obtain ⟨queue', e, step, size⟩ := update_yields (k := ranking) since ready
  have ranked' := (update_ranked since ranked).of_ok e
  rw [next, e]
  refine .ok_bind ?_
  rw [if_neg (not_not.2 (step.present_eq since.counted size))]
  exact .pure ⟨rfl, ranked', ranked'.isFirst step⟩

end RankedQueue

/-! ## Requests -/

/-- A queue with the assignment it is asked about. -/
structure Consultation where
  /-- The policy. -/
  policy : RankedQueue
  /-- The assignment. -/
  assignment : Assignment
  /-- Whether the queue was calm at the last request. -/
  calm : Bool

namespace Consultation

open RankedQueue

variable {c : Consultation}

/-- Whether the queue is calm at the next request. -/
def isCalm (c : Consultation) : Bool :=
  RankedQueue.isCalm c.calm c.policy.stale c.policy.queue c.assignment

/-- What happens between requests, and a request. -/
def move (c : Consultation) : Policy.Move → Except Fault Consultation
  | .set v value => do return { c with assignment := ← c.assignment.set v value }
  | .remove v => do return { c with assignment := ← c.assignment.remove v }
  | .clause _ => .ok c
  | .require vs => .ok { c with policy := c.policy.require vs }
  | .ask => do
    let answer ← c.policy.next c.assignment
    return ⟨answer.policy, answer.applyTo c.assignment, c.isCalm⟩

/-- What the order depends on after a move. -/
def rankingAfter (k : Ranking) : Policy.Move → Ranking
  | .require vs => { k with required := k.required ++ vs }
  | _ => k

/-- The queue has to be built anew, or it is in step with the states seen last and ranked. -/
structure Prepared (c : Consultation) (seen : Var → VarState) : Prop where
  /-- The changes since then. -/
  since : c.assignment.Since seen
  /-- The present variables. -/
  ready : c.policy.Ready seen
  /-- The order. -/
  ranked : c.policy.stale = true ∨ Ranked c.policy.ranking c.policy.queue c.calm

/-- A move leaves the queue prepared; only an assignment that would give a variable its other value
    is refused. -/
theorem Prepared.move_ends {seen : Var → VarState} (h : c.Prepared seen) (m : Policy.Move) :
    Ends (c.move m)
      (fun c' => (∃ seen', c'.Prepared seen') ∧
        c'.policy.ranking = rankingAfter c.policy.ranking m)
      fun fault => ∃ v b, fault = .reassigned v (.assigned b) (.assigned !b) := by
  obtain ⟨since, ready, ranked⟩ := h
  cases m with
  | set v value =>
    refine ((since.set v value).mono (fun _ => id) ?_).bind fun a' ⟨since', _⟩ => ?_
    · rintro _ ⟨b, -, -, rfl⟩
      exact ⟨v, b, rfl⟩
    · exact ⟨⟨seen, since', ready, ranked⟩, rfl⟩
  | remove v =>
    refine (since.remove v).ends.bind fun a' ⟨since', _⟩ => ?_
    exact ⟨⟨seen, since', ready, ranked⟩, rfl⟩
  | clause cl => exact ⟨⟨seen, since, ready, ranked⟩, rfl⟩
  | require vs => exact ⟨⟨seen, since, .inl rfl, .inl rfl⟩, rfl⟩
  | ask =>
    obtain ⟨answer, e, -, consumed, step⟩ := next_yields since ready
    obtain ⟨ranking, ranked', -⟩ := (next_ranked since ready ranked).of_ok e
    rw [move, e]
    refine .ok_bind ⟨⟨c.assignment.state, ?_, .inr step, .inr ?_⟩, ranking⟩
    · dsimp only
      rw [Suggestion.applyTo, if_pos consumed]
      exact Assignment.since_consume since.counted
    · dsimp only
      rw [ranking]
      exact ranked'

/-- Moves leave the queue prepared. -/
theorem Prepared.moves_end {seen : Var → VarState} (h : c.Prepared seen)
    (moves : List Policy.Move) :
    Ends (moves.foldlM move c)
      (fun c' => (∃ seen', c'.Prepared seen') ∧
        c'.policy.ranking = moves.foldl rankingAfter c.policy.ranking)
      fun fault => ∃ v b, fault = .reassigned v (.assigned b) (.assigned !b) := by
  induction moves generalizing c seen with
  | nil => exact ⟨⟨seen, h⟩, rfl⟩
  | cons m moves ih =>
    rw [List.foldlM_cons, List.foldl_cons]
    refine (h.move_ends m).bind fun c₁ ⟨⟨seen₁, h₁⟩, ranking⟩ => ?_
    rw [← ranking]
    exact ih h₁

/-- After any moves a request is answered by an unassigned variable, by none only if there is none,
    and if the queue is calm by the first one by group, rank and number. -/
theorem next_of_moves (moves : List Policy.Move) {a : Assignment} (made : a.Made)
    {p : RankedQueue} (stale : p.stale = true) :
    Ends (moves.foldlM move ⟨p, a, true⟩)
      (fun c => Yields (c.policy.next c.assignment) fun answer =>
        Policy.IsRight c.assignment answer.var? ∧
          (c.isCalm = true →
            (moves.foldl rankingAfter p.ranking).IsFirst c.assignment answer.var?))
      fun fault => ∃ v b, fault = .reassigned v (.assigned b) (.assigned !b) := by
  obtain ⟨seen, since⟩ := made.exists_since
  have start : Prepared ⟨p, a, true⟩ seen := ⟨since, .inl stale, .inl stale⟩
  refine (start.moves_end moves).mono (fun c ⟨⟨seen', prepared⟩, ranking⟩ => ?_) fun _ => id
  obtain ⟨answer, e, right, -⟩ := next_yields prepared.since prepared.ready
  obtain ⟨-, -, first⟩ := (next_ranked prepared.since prepared.ready prepared.ranked).of_ok e
  exact .of_eq e ⟨right, fun calm => ranking ▸ first calm⟩

theorem next_of_moves_required : ∃ c,
    List.foldlM move ⟨(RankedQueue.new true).withRanks [(1, 7), (2, 5)], .empty, true⟩
        [.set 1 none, .set 2 none, .set 3 none, .require [3], .ask, .set 3 (some true)] = .ok c ∧
      Yields (c.policy.next c.assignment) fun answer => answer.var? = some 2 ∧
        (Ranking.mk true [] [3] (.ofPairs [(1, 7), (2, 5)])).IsFirst c.assignment answer.var? := by
  let p : RankedQueue := (RankedQueue.new true).withRanks [(1, 7), (2, 5)]
  let moves : List Policy.Move :=
    [.set 1 none, .set 2 none, .set 3 none, .require [3], .ask, .set 3 (some true)]
  have answered : (moves.foldlM move ⟨p, .empty, true⟩ >>= fun c =>
      (c.policy.next c.assignment).map fun answer => (c.isCalm, answer.var?)) =
        .ok (true, some 2) := by
    cbv
  obtain ⟨c, e, answered⟩ := Yields.exists_of_bind answered
  obtain ⟨answer, asked, answered⟩ := Yields.of_map answered
  rw [Prod.mk.injEq] at answered
  have served := (next_of_moves moves .empty (p := p) rfl).of_ok e
  exact ⟨c, e, .of_eq asked ⟨answered.2, (served.of_ok asked).2 answered.1⟩⟩

/-- A later variable may be named: after 1, 6 and 7 were decided on one after the other, the queue
    names 4 although 5 has no value and a lower rank. -/
theorem next_not_first : ∃ moves c answer,
    List.foldlM move ⟨(RankedQueue.new true).withRanks
        [(1, 7), (2, 6), (3, 5), (4, 4), (5, 3), (6, 2), (7, 1)], .empty, true⟩ moves = .ok c ∧
      c.policy.next c.assignment = .ok answer ∧ answer.var? = some 4 ∧
      c.assignment.isUnassigned 5 = true ∧
      (c.policy.ranking.priority 5).key < (c.policy.ranking.priority 4).key := by
  have answered : (List.foldlM move ⟨(RankedQueue.new true).withRanks
      [(1, 7), (2, 6), (3, 5), (4, 4), (5, 3), (6, 2), (7, 1)], .empty, true⟩
      [.set 1 none, .set 2 none, .set 3 none, .set 4 none, .set 5 none, .set 6 none,
        .set 7 none, .ask, .set 1 (some true), .ask, .set 6 (some true), .ask,
        .set 7 (some true)] >>= fun c =>
      (c.policy.next c.assignment).map fun answer => (answer.var?, c.assignment.isUnassigned 5,
        (c.policy.ranking.priority 5).before (c.policy.ranking.priority 4))) =
        .ok (some 4, true, true) := by
    cbv
  obtain ⟨c, e, answered⟩ := Yields.exists_of_bind answered
  obtain ⟨answer, asked, answered⟩ := Yields.of_map answered
  rw [Prod.mk.injEq, Prod.mk.injEq] at answered
  exact ⟨_, c, answer, e, asked, answered.1, answered.2.1, Priority.before_iff.1 answered.2.2⟩

end Consultation

end ClauseLearning
