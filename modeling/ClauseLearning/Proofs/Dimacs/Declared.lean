/-
  The variables of an accepted file.

  Model. A solver that takes in a file has the declared variables from the start, and each clause
  brings its own (`declare_yields`, `takeIn_yields`).

  What is not so is that the variables of all literals are declared: numbers may stand above the
  header, where there is nothing to compare them with, and they belong to the first clause
  (`accepts_undeclared`).

  Rule. `variables_of_read`: the literals written below the header are in its range, and the
  variables of the solver are the declared ones and those of the literals written above it.
-/
import ClauseLearning.Dimacs.Problem
import ClauseLearning.Proofs.Dimacs.File
import ClauseLearning.Proofs.Solver.Sound

namespace ClauseLearning.Dimacs

variable {skip : Bool} {s s' : Solver} {added : List Added} {k n : Nat} {c : List Int}
  {clauses : List (List Int)} {h : Header} {early late : List Int}

/-! ## Declared variables -/

/-- Declaring variables gives a solver with these variables. -/
theorem declare_yields (skip : Bool) (hn : n < Lit.varBound) : Yields (declare skip n) fun s =>
    s.Idle ∧ s.status.infeasible? = none ∧ ∀ v, s.trail.Knows v ↔ 1 ≤ v ∧ v ≤ n := by
  rw [declare, if_neg (Nat.not_le.2 hn)]
  refine (Yields.foldlM (fun done s => s.Idle ∧ s.status.infeasible? = none ∧
    ∀ v, s.trail.Knows v ↔ ∃ i ∈ done, v = i + 1) (List.range n) ?_ ?_).mono ?_
  · refine ⟨Solver.idle_new skip, rfl, fun v => iff_of_false (Trail.not_knows_empty v) ?_⟩
    exact fun ⟨_, h, _⟩ => nomatch h
  · intro done i hi s ⟨idle, feasible, knows⟩
    have small : i + 1 < Lit.varBound := Nat.lt_of_le_of_lt (List.mem_range.1 hi) hn
    refine (Solver.register_yields idle small).mono fun s' ⟨idle', widens, knows'⟩ =>
      ⟨idle', ?_, fun v => ?_⟩
    · obtain ⟨p', rfl, -⟩ := widens
      exact feasible
    · rw [knows', knows]
      simp [or_comm]
  · rintro s ⟨idle, feasible, knows⟩
    refine ⟨idle, feasible, fun v => (knows v).trans ⟨?_, fun ⟨pos, le⟩ => ?_⟩⟩
    · rintro ⟨i, hi, rfl⟩
      exact ⟨Nat.le_add_left .., List.mem_range.1 hi⟩
    · exact ⟨v - 1, List.mem_range.2 (Nat.sub_one_lt_of_le pos le), (Nat.sub_add_cancel pos).symm⟩

theorem lt_of_declare (e : declare skip n = .ok s) : n < Lit.varBound := by
  unfold declare at e
  split at e
  · cases e
  · exact Nat.lt_of_not_le ‹_›

/-! ## Clauses -/

/-- The literal of a number that is not zero and not too great. -/
theorem litOf_eq {l : Int} (nonzero : l ≠ 0) (small : l.natAbs < Lit.varBound) :
    litOf l = .ok ⟨l.natAbs, 0 < l⟩ := by
  rw [litOf, Lit.ofInt, if_neg nonzero, Lit.ofVar?, if_pos small]

theorem lt_of_litOf {l : Int} {x : Lit} (e : litOf l = .ok x) : l.natAbs < Lit.varBound := by
  by_cases small : l.natAbs < Lit.varBound
  · exact small
  · unfold litOf Lit.ofInt Lit.ofVar? at e
    rw [if_neg small] at e
    split at e <;> rename_i e'
    · split at e' <;> cases e'
    · cases e

theorem lt_of_mapM_litOf {ls : List Lit} (e : c.mapM litOf = .ok ls) :
    ∀ l ∈ c, l.natAbs < Lit.varBound := by
  induction c generalizing ls with
  | nil => exact fun _ h => nomatch h
  | cons l c ih =>
    rw [List.mapM_cons] at e
    obtain ⟨x, first, e⟩ := Yields.exists_of_bind e
    obtain ⟨xs, rest, -⟩ := Yields.exists_of_bind e
    exact List.forall_mem_cons.2 ⟨lt_of_litOf first, ih rest⟩

/-- What a solver takes in is over variables with literals. -/
theorem lt_of_takeIn (e : (takeIn s added k clauses).solver = .ok s') :
    ∀ c ∈ clauses, ∀ l ∈ c, l.natAbs < Lit.varBound := by
  induction clauses generalizing s added k with
  | nil => exact fun _ h => nomatch h
  | cons c cs ih =>
    unfold takeIn at e
    split at e
    · cases e
    · rename_i outcome s₁ adds
      obtain ⟨ls, literals, -⟩ := Yields.exists_of_bind adds
      exact List.forall_mem_cons.2 ⟨lt_of_mapM_litOf literals, ih e⟩

/-- Every number of the clause stands for a literal. -/
def HasLiterals (c : List Int) : Prop := ∀ l ∈ c, l ≠ 0 ∧ l.natAbs < Lit.varBound

/-- A clause is added with its variables, unless the problem has no solution before. -/
theorem add_yields (idle : s.Idle) (sound : HasLiterals c) (provenance : Option String) :
    Yields (do s.add (← c.mapM litOf) provenance) fun x => x.2.Idle ∧
      (∀ v, s.trail.Knows v → x.2.trail.Knows v) ∧
      (∀ v, x.2.trail.Knows v → s.trail.Knows v ∨ ∃ l ∈ c, l.natAbs = v) ∧
      (s.status.infeasible? = none → ∀ l ∈ c, x.2.trail.Knows l.natAbs) := by
  rw [Yields.mapM_eq fun l hl => litOf_eq (sound l hl).1 (sound l hl).2]
  have vars : ∀ v, (∃ l ∈ c.map fun l => (⟨l.natAbs, 0 < l⟩ : Lit), l.var = v) ↔
      ∃ l ∈ c, l.natAbs = v := fun v => by simp
  have small : ∀ l ∈ c.map fun l => (⟨l.natAbs, 0 < l⟩ : Lit), l.var < Lit.varBound := by
    simpa using fun l hl => (sound l hl).2
  refine .ok_bind ((Solver.add_yields idle _ provenance fun _ => small).mono ?_)
  rintro x ⟨idle', ⟨infeasible, rfl⟩ | ⟨feasible, -, knows⟩⟩
  · refine ⟨idle', fun _ h => h, fun _ h => .inl h, fun feasible => ?_⟩
    rw [feasible] at infeasible
    cases infeasible
  · simp only [vars] at knows
    exact ⟨idle', fun v h => (knows v).2 (.inr h), fun v h => ((knows v).1 h).symm,
      fun _ l hl => (knows _).2 (.inl ⟨l, hl, rfl⟩)⟩

/-- A solver that takes in clauses has their variables and its own. -/
theorem takeIn_yields (added : List Added) (k : Nat) (idle : s.Idle)
    (sound : ∀ c ∈ clauses, HasLiterals c) :
    Yields (takeIn s added k clauses).solver fun s' => s'.Idle ∧
      (∀ v, s.trail.Knows v → s'.trail.Knows v) ∧
      (∀ v, s'.trail.Knows v → s.trail.Knows v ∨ ∃ c ∈ clauses, ∃ l ∈ c, l.natAbs = v) ∧
      (s.status.infeasible? = none → ∀ c cs, clauses = c :: cs →
        ∀ l ∈ c, s'.trail.Knows l.natAbs) := by
  induction clauses generalizing s added k with
  | nil => exact .ok ⟨idle, fun _ h => h, fun _ h => .inl h, fun _ _ _ e => nomatch e⟩
  | cons c cs ih =>
    obtain ⟨soundFirst, soundRest⟩ := List.forall_mem_cons.1 sound
    obtain ⟨⟨outcome, s₁⟩, e, idle₁, keeps, bounds, first⟩ :=
      add_yields idle soundFirst (some (label k))
    unfold takeIn
    rw [e]
    refine (ih _ _ idle₁ soundRest).mono fun s' ⟨idle', keeps', bounds', _⟩ =>
      ⟨idle', fun v h => keeps' v (keeps v h), fun v h => ?_, fun feasible c' cs' e' l hl => ?_⟩
    · rcases bounds' v h with h | ⟨d, hd, l, hl, e⟩
      · exact (bounds v h).imp_right fun ⟨l, hl, e⟩ => ⟨c, .head _, l, hl, e⟩
      · exact .inr ⟨d, .tail _ hd, l, hl, e⟩
    · cases e'
      exact keeps' _ (first feasible l hl)

/-! ## Accepted files -/

/-- The solver of a file has the declared variables and those of the literals above the header. -/
theorem intake_yields (skip : Bool) {text : List Char}
    (parts : Reader.Parts text h clauses early late) (declared : h.numVariables < Lit.varBound)
    (small : ∀ c ∈ clauses, ∀ l ∈ c, l.natAbs < Lit.varBound) :
    Yields (Reading.intake ⟨some h.numVariables, clauses, none⟩ skip).solver fun s => ∀ v,
      s.trail.Knows v ↔ (1 ≤ v ∧ v ≤ h.numVariables) ∨ ∃ l ∈ early, l.natAbs = v := by
  have mem : ∀ l, l ∈ early ++ late ↔ ∃ c ∈ clauses, l ∈ c := fun l => by
    rw [← parts.literals, List.mem_flatten]
  have sound : ∀ c ∈ clauses, HasLiterals c := fun c hc l hl =>
    ⟨(parts.fits l ((mem l).2 ⟨c, hc, hl⟩)).1, small c hc l hl⟩
  obtain ⟨s, e, idle, feasible, knows⟩ := declare_yields skip declared
  have taken := takeIn_yields [] 1 idle sound
  have intake : Reading.intake ⟨some h.numVariables, clauses, none⟩ skip =
      takeIn s [] 1 clauses := by
    simp only [Reading.intake, Option.getD_some, e]
  rw [intake]
  refine taken.mono fun s' ⟨_, keeps, bounds, first⟩ v => ⟨fun known => ?_, ?_⟩
  · rcases bounds v known with known | ⟨c, hc, l, hl, rfl⟩
    · exact .inl ((knows v).1 known)
    · rcases List.mem_append.1 ((mem l).2 ⟨c, hc, hl⟩) with early | late
      · exact .inr ⟨l, early, rfl⟩
      · have nonzero := (parts.fits l (List.mem_append_right _ late)).1
        exact .inl ⟨Int.natAbs_pos.2 nonzero, parts.declared l late⟩
  · rintro (known | ⟨l, hl, rfl⟩)
    · exact keeps v ((knows v).2 known)
    · rcases parts.first with rfl | ⟨c, cs, clauses, begins⟩
      · cases hl
      · exact first feasible c cs clauses l (begins.subset hl)

/-- In an accepted file the literals below the header are over declared variables. The variables of
    its solver are the declared ones and those of the literals above the header, of which there
    are none where only comments and blank lines stand there. There is a solver if there are
    literals over all these variables. -/
theorem variables_of_read {chunks : List (List UInt8)} {breaksOff : Bool} {n? : Option Nat}
    (e : read chunks breaksOff = ⟨n?, clauses, none⟩) :
    ∃ h early late, n? = some h.numVariables ∧
      Reader.Parts (content chunks) h clauses early late ∧
      (∀ l ∈ late, 1 ≤ l.natAbs ∧ l.natAbs ≤ h.numVariables) ∧
      ∀ skip, (h.numVariables < Lit.varBound → (∀ l ∈ early, l.natAbs < Lit.varBound) →
          ∃ s, ((read chunks breaksOff).intake skip).solver = .ok s) ∧
        ∀ s, ((read chunks breaksOff).intake skip).solver = .ok s → ∀ v,
          s.assignment.contains v = true ↔
            (1 ≤ v ∧ v ≤ h.numVariables) ∨ ∃ l ∈ early, l.natAbs = v := by
  obtain ⟨h, rfl, file⟩ := takesFile_of_read e
  obtain ⟨early, late, parts⟩ := file.parts
  rw [e]
  have inRange : ∀ l ∈ late, 1 ≤ l.natAbs ∧ l.natAbs ≤ h.numVariables := fun l hl =>
    ⟨Int.natAbs_pos.2 (parts.fits l (List.mem_append_right _ hl)).1, parts.declared l hl⟩
  refine ⟨h, early, late, rfl, parts, inRange, fun skip =>
    ⟨fun declared small => ?_, fun s built => ?_⟩⟩
  · obtain ⟨s, built, -⟩ := intake_yields skip parts declared fun c hc l hl => by
      have mem : l ∈ early ++ late := parts.literals ▸ List.mem_flatten.2 ⟨c, hc, hl⟩
      rcases List.mem_append.1 mem with early | late
      · exact small l early
      · exact Nat.lt_of_le_of_lt (parts.declared l late) declared
    exact ⟨s, built⟩
  · have built' := built
    rw [Reading.intake] at built'
    split at built'
    · cases built'
    · rename_i declares
      exact (intake_yields skip parts (lt_of_declare declares) (lt_of_takeIn built')).of_ok built

theorem variables_of_read_four_variables : ∃ chunks,
    chunks = [bytesOf "c a rule\np cnf 4 2\n1 -", bytesOf "2 0 3 0\n"] ∧
    read chunks false = ⟨some 4, [[1, -2], [3]], none⟩ ∧
    ∃ h early late, some 4 = some h.numVariables ∧
      Reader.Parts (content chunks) h [[1, -2], [3]] early late ∧
      (∀ l ∈ late, 1 ≤ l.natAbs ∧ l.natAbs ≤ h.numVariables) ∧
      ∃ s, ((read chunks false).intake true).solver = .ok s ∧ ∀ v,
        s.assignment.contains v = true ↔
          (1 ≤ v ∧ v ≤ h.numVariables) ∨ ∃ l ∈ early, l.natAbs = v := by
  have e : read [bytesOf "c a rule\np cnf 4 2\n1 -", bytesOf "2 0 3 0\n"] false =
      ⟨some 4, [[1, -2], [3]], none⟩ := by
    decide +kernel
  obtain ⟨h, early, late, numVariables, parts, inRange, solver⟩ := variables_of_read e
  obtain ⟨yields, known⟩ := solver true
  have declared : h.numVariables < Lit.varBound := by
    rw [← Option.some.inj numVariables]
    decide
  have all : ∀ l ∈ ([[1, -2], [3]] : List (List Int)).flatten, l.natAbs < Lit.varBound := by decide
  have small : ∀ l ∈ early, l.natAbs < Lit.varBound := fun l hl =>
    all l (parts.literals ▸ List.mem_append_left _ hl)
  obtain ⟨s, built⟩ := yields declared small
  exact ⟨_, rfl, e, h, early, late, numVariables, parts, inRange, s, built, known s built⟩

/-- A number that stands above the header becomes part of the first clause, and its variable part
    of the problem, whatever the header declares. -/
theorem accepts_undeclared :
    read [bytesOf "5\np cnf 2 1\n0\n"] false = ⟨some 2, [[5]], none⟩ ∧
      ¬ (∀ c ∈ (read [bytesOf "5\np cnf 2 1\n0\n"] false).clauses, ∀ l ∈ c,
        1 ≤ l.natAbs ∧ l.natAbs ≤ 2) ∧
      ((read [bytesOf "5\np cnf 2 1\n0\n"] false).intake true).solver.map
        (·.assignment.knownVariables) = .ok [1, 2, 5] := by
  have e : read [bytesOf "5\np cnf 2 1\n0\n"] false = ⟨some 2, [[5]], none⟩ := by
    decide +kernel
  rw [e]
  exact ⟨rfl, by decide, by decide +kernel⟩

end ClauseLearning.Dimacs
