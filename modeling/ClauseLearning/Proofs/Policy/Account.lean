/-
  The record accounts for the search.

  Model. Calls are made on a new solver, and all searches among them ask one and the same recorded
  policy, each as the one before has left it (`Turn`, `Ledger`). Searches are stopped, go back and
  decide on a variable again; nothing of this is taken out of the record. Beside the record stand
  the decisions as they were noted from the trail, without a word of the policy.

  Rule. Between any two moments record, notes and counter grow by the same decisions (`Accounts`):
  a round adds one to each of them or to none. So after any calls the record lists exactly the
  decisions made, and its histogram adds up to their number (`record_accounts`).
-/
import ClauseLearning.Policy.Lowest
import ClauseLearning.Proofs.Policy.Histogram
import ClauseLearning.Proofs.Solver.Noting
import ClauseLearning.Proofs.Solver.Novelty

namespace ClauseLearning

open Recorded (Counts)

variable {π : Type} [Policy π]

/-! ## What is added to a record -/

/-- A record passes on what the policy inside names. -/
theorem Search.Named.recorded {r : Recorded π} {s : Solver} (h : Named r.inner s) :
    Named r s := by
  obtain ⟨inner, installed, required, suggestions, observed⟩ := r
  obtain ⟨a, v, answer, named, unassigned⟩ := h
  have inside : Yields (Policy.next inner s.assignment s.clauses) fun b => b.var? = a.var? :=
    .of_eq answer rfl
  have passed : Yields (Policy.next (⟨inner, installed, required, suggestions, observed⟩ :
      Recorded π) s.assignment s.clauses) fun b => b.var? = a.var? :=
    inside.bind fun _ same => .pure same
  obtain ⟨b, answer', same⟩ := passed
  exact ⟨b, v, answer', same.trans named, unassigned⟩

/-- From the first moment to the second the variables `made` were added to the record, the changes
    were seen once for each of them, and as many decisions were counted. -/
structure Accounts (r : Recorded π) (s : Solver) (made : List Var) (r' : Recorded π)
    (s' : Solver) : Prop where
  /-- The suggestions are those before and `made`. -/
  suggestions : r'.suggestions.toList = r.suggestions.toList ++ made
  /-- There is one look at the changes for each. -/
  observed : r'.observed.size = r.observed.size + made.length
  /-- There is one decision for each. -/
  decisions : s'.statistics.decisions = s.statistics.decisions + made.length

namespace Accounts

variable {r r' r'' : Recorded π} {s s' s'' : Solver} {made made' : List Var}

omit [Policy π] in
/-- Nothing was asked and nothing was counted. -/
theorem none (r : Recorded π) (same : s'.statistics.decisions = s.statistics.decisions) :
    Accounts r s [] r s' :=
  ⟨(List.append_nil _).symm, rfl, same⟩

omit [Policy π] in
theorem trans (h : Accounts r s made r' s') (h' : Accounts r' s' made' r'' s'') :
    Accounts r s (made ++ made') r'' s'' where
  suggestions := by rw [h'.suggestions, h.suggestions, List.append_assoc]
  observed := by rw [h'.observed, h.observed, List.length_append, Nat.add_assoc]
  decisions := by rw [h'.decisions, h.decisions, List.length_append, Nat.add_assoc]

/-- The policy was asked, and its answer counted as a decision. -/
theorem next {a : Assignment} {store : ClauseStore} {x : Suggestion (Recorded π)} {v : Var}
    (answer : Policy.next r a store = .ok x) (named : x.var? = some v)
    (counted : s'.statistics.decisions = s.statistics.decisions + 1) :
    Accounts r s [v] x.policy s' := by
  obtain ⟨inner, installed, required, suggestions, observed⟩ := r
  obtain ⟨y, -, answer⟩ := Yields.exists_of_bind answer
  cases answer
  dsimp only at named
  refine ⟨?_, Array.size_push _, counted⟩
  dsimp only
  rw [named]
  exact Array.toList_push

end Accounts

/-! ## Rounds and searches -/

section Searches

variable {β : Type} [Termination β] {q q' : Search (Recorded π) β} {o : Outcome (Recorded π)}
  {made : List Var} {s : Solver}

theorem Search.GoesOn.accounts (h : q.solver.Searching) (g : q.GoesOn q') :
    Accounts q.policy q.solver (q.decision? q').toList q'.policy q'.solver := by
  rcases g.noted h with ⟨nothing, policy, same⟩ | ⟨s, a, v, answer, named, noted, policy, counted⟩
  · rw [nothing, policy]
    exact .none _ same
  · rw [noted, policy]
    exact .next answer named counted

omit [Policy π] in
theorem Search.Answers.accounts (a : q.Answers o) :
    Accounts q.policy q.solver [] o.policy o.solver := by
  have same := a.counts.1
  cases a <;> exact .none _ same

/-- A search adds to the record what is noted. -/
theorem accounts_of_solveNoting {budget : β} {r : Recorded π} (idle : s.Idle)
    (e : s.solveNoting budget r = .ok (o, made)) : Accounts r s made o.policy o.solver := by
  cases hc : s.status.infeasible? with
  | none =>
    rw [Solver.solveNoting_eq hc] at e
    refine Search.runNoting_keeps (fun q made => Accounts r s made q.policy q.solver)
      (fun o made => Accounts r s made o.policy o.solver) (idle.searching hc)
      ?_ (fun q q' made searching before g => ?_) (fun q o made _ before a => ?_) e
    · exact .none r rfl
    · exact before.trans (g.accounts searching)
    · exact made.append_nil ▸ before.trans a.accounts
  | some c =>
    unfold Solver.solveNoting at e
    rw [hc] at e
    obtain ⟨w, -, e⟩ := Yields.exists_of_bind e
    cases e
    exact .none r rfl

end Searches

/-! ## Calls -/

/-- A call on a solver whose searches all ask the same policy. -/
inductive Turn : Type 1 where
  /-- Registers a variable. -/
  | register (v : Var)
  /-- Adds a clause with the rule it comes from. -/
  | add (ls : List Lit) (provenance : Option String)
  /-- Searches until the condition says to stop. -/
  | solve {β : Type} [Termination β] (budget : β)

/-- A solver, the recorded policy that its searches ask, and the decisions they have made. -/
structure Ledger (π : Type) where
  /-- The solver. -/
  solver : Solver
  /-- The policy. -/
  policy : Recorded π
  /-- The variables decided on, one after the other. -/
  made : List Var

/-- The call with the policy that is asked. -/
def Turn.call (policy : Recorded π) : Turn → Call
  | register v => .register v
  | add ls provenance => .add ls provenance
  | solve budget => .solve budget policy

namespace Ledger

/-- A new solver and an empty record. -/
def new (skip : Bool) (p : π) : Ledger π := ⟨.new skip, .new p, []⟩

/-- What a call leaves. -/
def play (x : Ledger π) : Turn → Except Fault (Ledger π)
  | Turn.register v => do return { x with solver := ← x.solver.register v }
  | Turn.add ls provenance => do return { x with solver := (← x.solver.add ls provenance).2 }
  | Turn.solve budget => do
    let (o, made) ← x.solver.solveNoting budget x.policy
    return ⟨o.solver, o.policy, x.made ++ made⟩

/-- What calls leave, one after the other. -/
def playAll (x : Ledger π) (turns : List Turn) : Except Fault (Ledger π) := turns.foldlM play x

/-- Every call keeps to the rules, as those before it leave solver and policy. -/
def AllProper (x : Ledger π) : List Turn → Prop
  | [] => True
  | t :: ts => (t.call x.policy).Proper x.solver ∧ ∀ x', x.play t = .ok x' → AllProper x' ts

variable {x x' : Ledger π} {t : Turn} {turns : List Turn} {skip : Bool} {h : List Event} {p : π}

/-- The solver is the one that the call leaves. -/
theorem play_solver (x : Ledger π) (t : Turn) :
    (x.play t).map solver = (t.call x.policy).run x.solver := by
  cases t with
  | register v => cases e : x.solver.register v <;> simp only [play, Turn.call, Call.run, e] <;> rfl
  | add ls provenance =>
    cases e : x.solver.add ls provenance <;> simp only [play, Turn.call, Call.run, e] <;> rfl
  | solve budget =>
    simp only [play, Turn.call, Call.run, ← x.solver.solveNoting_fst]
    cases x.solver.solveNoting budget x.policy <;> rfl

theorem playAll_cons (x : Ledger π) (t : Turn) (turns : List Turn) :
    x.playAll (t :: turns) = x.play t >>= (playAll · turns) := List.foldlM_cons ..

theorem playAll_cons_of (e : x.play t = .ok x') : x.playAll (t :: turns) = x'.playAll turns := by
  rw [playAll_cons, e]
  rfl

/-- The solver has a history. -/
theorem reached_play (run : Reached skip h x.solver) (e : x.play t = .ok x') :
    ∃ h', Reached skip h' x'.solver := by
  have called := x.play_solver t
  rw [e] at called
  exact run.run called.symm

/-- A call that keeps to the rules meets no fault. -/
theorem play_yields (idle : x.solver.Idle) (proper : (t.call x.policy).Proper x.solver) :
    Yields (x.play t) fun x' => x'.solver.Idle := by
  have called := Call.run_yields idle proper
  rw [← play_solver] at called
  obtain ⟨s, e, idle'⟩ := called
  obtain ⟨x', played, rfl⟩ := Yields.of_map e
  exact .of_eq played idle'

theorem playAll_yields (idle : x.solver.Idle) (proper : x.AllProper turns) :
    Yields (x.playAll turns) fun x' => x'.solver.Idle := by
  induction turns generalizing x with
  | nil => exact .ok idle
  | cons t turns ih =>
    obtain ⟨first, rest⟩ := proper
    obtain ⟨x', e, idle'⟩ := play_yields idle first
    rw [playAll_cons_of e]
    exact ih idle' (rest x' e)

/-- A call adds to the record what is noted. -/
theorem accounts_of_play (idle : x.solver.Idle) (e : x.play t = .ok x') :
    ∃ made, x'.made = x.made ++ made ∧
      Accounts x.policy x.solver made x'.policy x'.solver := by
  cases t with
  | register v =>
    obtain ⟨s, registered, e⟩ := Yields.exists_of_bind e
    cases e
    obtain ⟨-, ⟨p', rfl, -⟩, -⟩ :=
      (Solver.register_yields idle (Solver.lt_of_register registered)).of_ok registered
    exact ⟨[], (List.append_nil _).symm, .none _ rfl⟩
  | add ls provenance =>
    obtain ⟨y, added, e⟩ := Yields.exists_of_bind e
    cases e
    obtain ⟨-, statistics, -⟩ := Solver.learned_of_add idle added
    exact ⟨[], (List.append_nil _).symm, .none _ (congrArg Statistics.decisions statistics)⟩
  | solve budget =>
    obtain ⟨⟨o, made⟩, solved, e⟩ := Yields.exists_of_bind e
    cases e
    exact ⟨made, rfl, ClauseLearning.accounts_of_solveNoting idle solved⟩

theorem reached_playAll (run : Reached skip h x.solver) (e : x.playAll turns = .ok x') :
    ∃ h', Reached skip h' x'.solver := by
  have keeps : ∀ (x : Ledger π) t x', (∃ h, Reached skip h x.solver) → x.play t = .ok x' →
      ∃ h, Reached skip h x'.solver := by
    rintro x t x' ⟨h, run⟩ e
    exact reached_play run e
  exact Yields.keeps_of_foldlM keeps ⟨h, run⟩ e

/-- The record and the counter grow by all that is noted. -/
theorem accounts_of_playAll {r : Recorded π} {s : Solver} (run : Reached skip h x.solver)
    (before : Accounts r s x.made x.policy x.solver) (e : x.playAll turns = .ok x') :
    Accounts r s x'.made x'.policy x'.solver := by
  have keeps : ∀ (x : Ledger π) t x',
      (∃ h, Reached skip h x.solver) ∧ Accounts r s x.made x.policy x.solver →
      x.play t = .ok x' →
      (∃ h, Reached skip h x'.solver) ∧ Accounts r s x'.made x'.policy x'.solver := by
    rintro x t x' ⟨⟨h, run⟩, before⟩ e
    obtain ⟨made, notes, accounts⟩ := accounts_of_play run.idle e
    exact ⟨reached_play run e, notes ▸ before.trans accounts⟩
  exact (Yields.keeps_of_foldlM keeps ⟨⟨h, run⟩, before⟩ e).2

end Ledger

/-- A search that decides on the lowest variable keeps to the rules over few variables and
    clauses. -/
theorem Ledger.proper_lowestFirst {β : Type} [Termination β] {x : Ledger LowestFirst} {skip : Bool}
    {turns : List Turn} {n m : Nat}
    (played : (Ledger.new skip LowestFirst.mk).playAll turns = .ok x)
    (few : ((Ledger.new skip LowestFirst.mk).playAll turns).map (fun x =>
      (x.solver.assignment.numVariables, x.solver.clauses.size)) = .ok (n, m))
    (small : m + 3 ^ n ≤ ClauseRef.bound) (budget : β) :
    ((Turn.solve budget).call x.policy).Proper x.solver := by
  obtain ⟨h, run⟩ := Ledger.reached_playAll Reached.start played
  have few := (Yields.of_map few).of_ok played
  exact run.proper_of_few few small
    fun _ _ searching asks => (asks.named_lowestFirst searching).recorded

/-- Let calls be made on a new solver, with searches that all ask one policy with a new record. The
    suggestions on the record are the variables decided on, in their order; there are as many as
    decisions were counted, and as many looks at the changes. The histogram lists each of them once
    with its count, in a strict order, and its counts add up to the number of decisions. When the
    calls keep to the rules, which for the policy is to name an unassigned variable whenever it is
    asked, none of them meets a fault. -/
theorem record_accounts (skip : Bool) (p : π) (turns : List Turn) :
    (∀ x, (Ledger.new skip p).playAll turns = .ok x →
      x.policy.suggestions.toList = x.made ∧
      x.policy.suggestions.size = x.solver.statistics.decisions ∧
      x.policy.observed.size = x.policy.suggestions.size ∧
      Counts x.policy.suggestions.toList x.policy.histogram ∧
      (x.policy.histogram.map Prod.snd).sum = x.solver.statistics.decisions) ∧
    ((Ledger.new skip p).AllProper turns → ∃ x, (Ledger.new skip p).playAll turns = .ok x) := by
  refine ⟨fun x played => ?_, fun proper => ?_⟩
  · obtain ⟨suggestions, observed, decisions⟩ :=
      Ledger.accounts_of_playAll (r := .new p) Reached.start (.none _ rfl) played
    have listed : x.policy.suggestions.toList = x.made := suggestions
    have size : x.policy.suggestions.size = x.made.length := by
      rw [← listed, Array.length_toList]
    have looks : x.policy.observed.size = x.made.length := observed.trans (Nat.zero_add _)
    have counted : x.solver.statistics.decisions = x.made.length :=
      decisions.trans (Nat.zero_add _)
    have counts := x.policy.histogram_counts
    refine ⟨listed, size.trans counted.symm, looks.trans size.symm, counts, ?_⟩
    rw [counts.total, listed, counted]
  · obtain ⟨x, played, -⟩ := Ledger.playAll_yields (Solver.idle_new skip) proper
    exact ⟨x, played⟩

/-- The first search decides on 1 and is stopped. The second one decides on 1 again, finds it false,
    and decides on 2. -/
theorem record_accounts_decided_again : ∃ (turns : List Turn) (x : Ledger LowestFirst),
    turns = [.add [⟨1, false⟩, ⟨2, true⟩] none, .add [⟨1, false⟩, ⟨2, false⟩] none,
      .solve (Budget.ofDecisions 1), .solve Budget.unlimited] ∧
    (Ledger.new true LowestFirst.mk).AllProper turns ∧
    (Ledger.new true LowestFirst.mk).playAll turns = .ok x ∧ x.made = [1, 1, 2] ∧
    x.policy.suggestions.toList = x.made ∧ x.solver.statistics.decisions = 3 ∧
    x.policy.observed.size = 3 ∧ x.policy.histogram = [(1, 2), (2, 1)] := by
  have bounded : ∀ ls : List Lit, (ls.all fun l => l.var < Lit.varBound) = true →
      ∀ l ∈ ls, l.var < Lit.varBound := fun ls all => by simpa using all
  have proper : (Ledger.new true LowestFirst.mk).AllProper [.add [⟨1, false⟩, ⟨2, true⟩] none,
      .add [⟨1, false⟩, ⟨2, false⟩] none, .solve (Budget.ofDecisions 1),
      .solve Budget.unlimited] := by
    refine ⟨bounded _ rfl, fun x₁ e₁ => ⟨bounded _ rfl, fun x₂ e₂ => ⟨?_, fun x₃ e₃ =>
      ⟨?_, fun _ _ => trivial⟩⟩⟩⟩
    · have played : (Ledger.new true LowestFirst.mk).playAll
          [.add [⟨1, false⟩, ⟨2, true⟩] none, .add [⟨1, false⟩, ⟨2, false⟩] none] = .ok x₂ :=
        (Ledger.playAll_cons_of e₁).trans ((Ledger.playAll_cons_of e₂).trans rfl)
      exact Ledger.proper_lowestFirst (n := 2) (m := 2) played (by cbv) (by decide) _
    · have played : (Ledger.new true LowestFirst.mk).playAll
          [.add [⟨1, false⟩, ⟨2, true⟩] none, .add [⟨1, false⟩, ⟨2, false⟩] none,
            .solve (Budget.ofDecisions 1)] = .ok x₃ :=
        (Ledger.playAll_cons_of e₁).trans ((Ledger.playAll_cons_of e₂).trans
          ((Ledger.playAll_cons_of e₃).trans rfl))
      exact Ledger.proper_lowestFirst (n := 2) (m := 2) played (by cbv) (by decide) _
  obtain ⟨accounts, returns⟩ := record_accounts true LowestFirst.mk _
  obtain ⟨x, played⟩ := returns proper
  have computed : ((Ledger.new true LowestFirst.mk).playAll [.add [⟨1, false⟩, ⟨2, true⟩] none,
      .add [⟨1, false⟩, ⟨2, false⟩] none, .solve (Budget.ofDecisions 1),
      .solve Budget.unlimited]).map (fun x => (x.made, x.policy.histogram)) =
        .ok ([1, 1, 2], [(1, 2), (2, 1)]) := by
    cbv
  replace computed := (Yields.of_map computed).of_ok played
  rw [Prod.mk.injEq] at computed
  obtain ⟨made, histogram⟩ := computed
  obtain ⟨listed, size, looks, -⟩ := accounts x played
  have three : x.policy.suggestions.size = 3 := by
    rw [← Array.length_toList, listed, made]
    rfl
  exact ⟨_, x, rfl, proper, played, made, listed, size ▸ three, looks.trans three, histogram⟩

end ClauseLearning
