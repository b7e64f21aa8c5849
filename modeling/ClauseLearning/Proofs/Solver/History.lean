/-
  Solvers and their histories.

  Model. A solver starts without variables and clauses. Then variables are registered, clauses
  are added and searches are made, in any order and every search with a policy and a termination
  condition of its own. A history lists what was called and what came of it (`Reached`); a call
  that meets a fault leads nowhere.

  Rule. After every history the solver is idle (`Reached.idle`), and its variables and its given
  clauses are those of the history (`Reached.records`).
-/
import ClauseLearning.Proofs.Solver.Run

namespace ClauseLearning

/-- A call and what came of it. -/
inductive Event where
  /-- A variable was registered. -/
  | registered (v : Var)
  /-- A clause was added with the rule it comes from. -/
  | added (ls : List Lit) (provenance : Option String) (a : Added)
  /-- A search was answered. -/
  | answered (v : Verdict)

/-- The calls `h` lead from the new solver to this one. -/
inductive Reached (skip : Bool) : List Event → Solver → Prop
  /-- The new solver. -/
  | start : Reached skip [] (.new skip)
  /-- A variable is registered. -/
  | register {h : List Event} {s s' : Solver} {v : Var} (before : Reached skip h s)
    (e : s.register v = .ok s') : Reached skip (h ++ [.registered v]) s'
  /-- A clause is added. -/
  | add {h : List Event} {s s' : Solver} {ls : List Lit} {provenance : Option String} {a : Added}
    (before : Reached skip h s) (e : s.add ls provenance = .ok (a, s')) :
    Reached skip (h ++ [.added ls provenance a]) s'
  /-- A search is made. -/
  | solve {h : List Event} {s : Solver} {π β : Type} [Policy π] [Termination β] {budget : β}
    {policy : π} {o : Outcome π} (before : Reached skip h s)
    (e : s.solve budget policy = .ok o) : Reached skip (h ++ [.answered o.verdict]) o.solver

/-- The variable became part of the problem, by itself or with a clause that was not refused. -/
def Registered (h : List Event) (v : Var) : Prop :=
  .registered v ∈ h ∨
    ∃ ls provenance a, .added ls provenance a ∈ h ∧ a ≠ .refused ∧ ∃ l ∈ ls, l.var = v

/-- The reference under which a clause is kept, if it is. -/
def Added.ref? : Added → Option ClauseRef
  | kept r => some r
  | infeasible r => some r
  | _ => none

variable {h : List Event} {s s' : Solver} {e : Event} {skip : Bool}

theorem registered_append {v : Var} : Registered (h ++ [e]) v ↔
    Registered h v ∨ e = .registered v ∨
      ∃ ls provenance a, e = .added ls provenance a ∧ a ≠ .refused ∧ ∃ l ∈ ls, l.var = v := by
  simp only [Registered, List.mem_append, List.mem_singleton, @eq_comm _ _ e]
  constructor
  · rintro ((old | new) | ⟨ls, p, a, old | new, rest⟩)
    · exact .inl (.inl old)
    · exact .inr (.inl new)
    · exact .inl (.inr ⟨ls, p, a, old, rest⟩)
    · exact .inr (.inr ⟨ls, p, a, new, rest⟩)
  · rintro ((old | ⟨ls, p, a, old, rest⟩) | new | ⟨ls, p, a, new, rest⟩)
    · exact .inl (.inl old)
    · exact .inr ⟨ls, p, a, .inl old, rest⟩
    · exact .inl (.inr new)
    · exact .inr ⟨ls, p, a, .inr new, rest⟩

/-! ## What adding has done -/

namespace Solver.AddedTo

variable {ls : List Lit} {provenance : Option String} {a : Added} {r : ClauseRef} {c : Clause}

/-- A clause that is kept is there with its literals. -/
theorem kept (h : s.AddedTo ls provenance s' a) (hr : a.ref? = some r) :
    ∃ c, s'.clauses.get? r = some c ∧ c.Rearranges (Clause.ofList ls false provenance) := by
  have new := ClauseStore.get?_add_self s.clauses (Clause.ofList ls false provenance)
  cases a with
  | kept q =>
    obtain ⟨rfl, rearranges⟩ := h
    cases hr
    exact rearranges.clauses _ _ new
  | infeasible q =>
    obtain ⟨rfl, -, rearranges⟩ := h
    cases hr
    exact rearranges.clauses _ _ new
  | skipped c => cases hr
  | refused => cases hr

/-- Every clause there is the one added or was there. -/
theorem origin (h : s.AddedTo ls provenance s' a) (hc : s'.clauses.get? r = some c) :
    a.ref? = some r ∧ c.Rearranges (Clause.ofList ls false provenance) ∨
      ∃ d, s.clauses.get? r = some d ∧ c.Rearranges d := by
  have cases' : s'.clauses.Rearranges
        (s.clauses.add (Clause.ofList ls false provenance)).2 →
      r = s.clauses.size ∧ c.Rearranges (Clause.ofList ls false provenance) ∨
        ∃ d, s.clauses.get? r = some d ∧ c.Rearranges d := by
    intro rearranges
    obtain ⟨d, hd, same⟩ := rearranges.origin hc
    rcases ClauseStore.get?_of_add hd with ⟨rfl, rfl⟩ | old
    · exact .inl ⟨rfl, same⟩
    · exact .inr ⟨d, old, same⟩
  cases a with
  | kept q =>
    obtain ⟨rfl, rearranges⟩ := h
    exact (cases' rearranges).imp_left fun ⟨e, same⟩ => ⟨e ▸ rfl, same⟩
  | infeasible q =>
    obtain ⟨rfl, -, rearranges⟩ := h
    exact (cases' rearranges).imp_left fun ⟨e, same⟩ => ⟨e ▸ rfl, same⟩
  | skipped d =>
    obtain ⟨-, -, clauses⟩ := h
    exact .inr ⟨c, clauses ▸ hc, .refl c⟩
  | refused => exact h.elim

/-- No clause is gone. -/
theorem includes (h : s.AddedTo ls provenance s' a) : s'.clauses.Includes s.clauses := by
  have more := ClauseStore.Includes.add s.clauses (Clause.ofList ls false provenance)
  cases a with
  | kept q => exact h.2.clauses.trans more
  | infeasible q => exact h.2.2.clauses.trans more
  | skipped d => exact h.2.2 ▸ .refl _
  | refused => exact h.elim

theorem ne_refused (h : s.AddedTo ls provenance s' a) : a ≠ .refused := by
  rintro rfl
  exact h

end Solver.AddedTo

/-! ## What a history says -/

/-- The solver has the variables and the clauses of the history. -/
structure Records (h : List Event) (s : Solver) : Prop where
  /-- The variables are those that were registered. -/
  knows : ∀ v, s.trail.Knows v ↔ Registered h v
  /-- A clause that was kept is there. -/
  kept : ∀ ls provenance a r, .added ls provenance a ∈ h → a.ref? = some r →
    ∃ c, s.clauses.get? r = some c ∧ c.Rearranges (Clause.ofList ls false provenance)
  /-- A given clause was added. -/
  given : ∀ r c, s.clauses.get? r = some c → c.learned = false →
    ∃ ls provenance a, .added ls provenance a ∈ h ∧ a.ref? = some r ∧
      c.Rearranges (Clause.ofList ls false provenance)
  /-- A clause that was left out is always true. -/
  skipped : ∀ ls provenance c, .added ls provenance (.skipped c) ∈ h → ∃ l ∈ ls, -l ∈ ls
  /-- As long as the problem is open no clause has failed. -/
  accepted : s.status.infeasible? = none →
    ∀ ls provenance a, .added ls provenance a ∈ h → a.error? = none

namespace Records

theorem new (skip : Bool) : Records [] (.new skip) where
  knows v := by
    refine iff_of_false (Trail.not_knows_empty v) ?_
    rintro (h | ⟨_, _, _, h, -⟩) <;> cases h
  kept _ _ _ _ h := by cases h
  given r c hc := by
    simp [Solver.new, Solver.clauses, Propagation.empty, ClauseStore.empty,
      ClauseStore.get?] at hc
  skipped _ _ _ h := by cases h
  accepted _ _ _ _ h := by cases h

/-- A call that is not an addition leaves the records of the clauses. -/
theorem follows (h' : Records h s) (clauses : s'.clauses.Includes s.clauses)
    (given : ∀ r c', s'.clauses.get? r = some c' → c'.learned = false →
      ∃ c, s.clauses.get? r = some c ∧ c'.Rearranges c)
    (knows : ∀ v, s'.trail.Knows v ↔ Registered (h ++ [e]) v)
    (other : ∀ ls provenance a, e ≠ .added ls provenance a)
    (feasible : s'.status.infeasible? = none → s.status.infeasible? = none) :
    Records (h ++ [e]) s' := by
  have old : ∀ {ls provenance a}, .added ls provenance a ∈ h ++ [e] →
      .added ls provenance a ∈ h := by
    intro ls provenance a mem
    rcases List.mem_append.1 mem with mem | mem
    · exact mem
    · exact absurd (List.mem_singleton.1 mem).symm (other ls provenance a)
  refine ⟨knows, fun ls provenance a r mem hr => ?_, fun r c' hc' isGiven => ?_,
    fun ls provenance c mem => h'.skipped ls provenance c (old mem),
    fun hs ls provenance a mem => h'.accepted (feasible hs) ls provenance a (old mem)⟩
  · obtain ⟨c, hc, same⟩ := h'.kept ls provenance a r (old mem) hr
    obtain ⟨c', hc', same'⟩ := clauses r c hc
    exact ⟨c', hc', same'.trans same⟩
  · obtain ⟨c, hc, same⟩ := given r c' hc' isGiven
    obtain ⟨ls, provenance, a, mem, hr, same'⟩ :=
      h'.given r c hc (same.learned.symm.trans isGiven)
    exact ⟨ls, provenance, a, List.mem_append_left _ mem, hr, same.trans same'⟩

/-- Registering a variable is recorded. -/
theorem register (h' : Records h s) {v : Var} (widens : s.Widens s')
    (knows : ∀ w, s'.trail.Knows w ↔ w = v ∨ s.trail.Knows w) :
    Records (h ++ [.registered v]) s' := by
  obtain ⟨p', rfl, w⟩ := widens
  have same : ∀ r, p'.clauses.get? r = s.clauses.get? r := fun r =>
    congrArg (ClauseStore.get? · r) w.clauses
  refine h'.follows (fun r c hc => ⟨c, (same r).trans hc, .refl c⟩)
    (fun r c hc _ => ⟨c, (same r).symm.trans hc, .refl c⟩) (fun w => ?_) (fun _ _ _ => nofun) id
  rw [knows, h'.knows, registered_append, or_comm]
  refine or_congr_right ⟨fun e => .inl (e ▸ rfl), ?_⟩
  rintro (e | ⟨_, _, _, e, -⟩)
  · cases e
    rfl
  · cases e

/-- A search that is answered is recorded. -/
theorem solve (h' : Records h s) (v : Verdict) (follows : s.Follows s')
    (feasible : s'.status.infeasible? = none → s.status.infeasible? = none) :
    Records (h ++ [.answered v]) s' := by
  refine h'.follows follows.clauses follows.given (fun w => ?_) (fun _ _ _ => nofun) feasible
  rw [follows.knows, h'.knows, registered_append]
  refine (or_iff_left ?_).symm
  rintro (e | ⟨_, _, _, e, -⟩) <;> cases e

/-- A clause that is refused changes nothing. -/
theorem refuse (h' : Records h s) (ls : List Lit) (provenance : Option String)
    (infeasible : s.status.infeasible?.isSome = true) :
    Records (h ++ [.added ls provenance .refused]) s := by
  have old : ∀ {ks q a}, a ≠ .refused →
      .added ks q a ∈ h ++ [.added ls provenance .refused] → .added ks q a ∈ h := by
    intro ks q a ne mem
    rcases List.mem_append.1 mem with mem | mem
    · exact mem
    · cases List.mem_singleton.1 mem
      exact absurd rfl ne
  refine ⟨fun v => ?_, fun ks q a r mem hr => ?_, fun r c hc isGiven => ?_,
    fun ks q c mem => h'.skipped ks q c (old nofun mem), fun none => ?_⟩
  · rw [h'.knows, registered_append]
    refine (or_iff_left ?_).symm
    rintro (e | ⟨_, _, _, e, ne, -⟩) <;> cases e
    exact ne rfl
  · refine h'.kept ks q a r (old (fun e => ?_) mem) hr
    rw [e] at hr
    cases hr
  · obtain ⟨ks, q, a, mem, rest⟩ := h'.given r c hc isGiven
    exact ⟨ks, q, a, List.mem_append_left _ mem, rest⟩
  · rw [none] at infeasible
    cases infeasible

/-- A clause that is added is recorded. -/
theorem add (h' : Records h s) {ls : List Lit} {provenance : Option String} {a : Added}
    (feasible : s.status.infeasible? = none) (added : s.AddedTo ls provenance s' a)
    (knows : ∀ v, s'.trail.Knows v ↔ (∃ l ∈ ls, l.var = v) ∨ s.trail.Knows v) :
    Records (h ++ [.added ls provenance a]) s' := by
  have last : ∀ {ks q b}, .added ks q b ∈ h ++ [.added ls provenance a] →
      .added ks q b ∈ h ∨ ks = ls ∧ q = provenance ∧ b = a := by
    intro ks q b mem
    rcases List.mem_append.1 mem with mem | mem
    · exact .inl mem
    · cases List.mem_singleton.1 mem
      exact .inr ⟨rfl, rfl, rfl⟩
  refine ⟨fun v => ?_, fun ks q b r mem hr => ?_, fun r c hc isGiven => ?_,
    fun ks q c mem => ?_, fun open' ks q b mem => ?_⟩
  · rw [knows, h'.knows, registered_append, or_comm]
    refine or_congr_right ⟨fun mem => .inr ⟨ls, provenance, a, rfl, added.ne_refused, mem⟩, ?_⟩
    rintro (e | ⟨_, _, _, e, -, mem⟩) <;> cases e
    exact mem
  · rcases last mem with old | ⟨rfl, rfl, rfl⟩
    · obtain ⟨c, hc, same⟩ := h'.kept ks q b r old hr
      obtain ⟨c', hc', same'⟩ := added.includes r c hc
      exact ⟨c', hc', same'.trans same⟩
    · exact added.kept hr
  · rcases added.origin hc with ⟨hr, same⟩ | ⟨d, hd, same⟩
    · exact ⟨ls, provenance, a, by simp, hr, same⟩
    · obtain ⟨ks, q, b, mem, hr, same'⟩ := h'.given r d hd (same.learned.symm.trans isGiven)
      exact ⟨ks, q, b, List.mem_append_left _ mem, hr, same.trans same'⟩
  · rcases last mem with old | ⟨rfl, rfl, rfl⟩
    · exact h'.skipped ks q c old
    · obtain ⟨rfl, tautology, -⟩ := added
      obtain ⟨l, hl, hn⟩ := Clause.exists_of_isTautology tautology
      exact ⟨l, Clause.mem_ofList.1 hl, Clause.mem_ofList.1 hn⟩
  · rcases last mem with old | ⟨rfl, rfl, rfl⟩
    · exact h'.accepted feasible ks q b old
    · cases b with
      | kept r => rfl
      | skipped c => rfl
      | infeasible r =>
        rw [added.2.1] at open'
        cases open'
      | refused => exact added.elim

end Records

/-! ## Every history -/

/-- After every history the solver is idle and has what the history says. -/
theorem Reached.idle_records (run : Reached skip h s) : s.Idle ∧ Records h s := by
  induction run with
  | start => exact ⟨Solver.idle_new skip, Records.new skip⟩
  | register _ e ih =>
    obtain ⟨idle, records⟩ := ih
    obtain ⟨idle', widens, knows⟩ :=
      (Solver.register_yields idle (Solver.lt_of_register e)).of_ok e
    exact ⟨idle', records.register widens knows⟩
  | add _ e ih =>
    obtain ⟨idle, records⟩ := ih
    obtain ⟨idle', ⟨infeasible, same⟩ | ⟨feasible, added, knows⟩⟩ :=
      (Solver.add_yields idle _ _ fun feasible => Solver.lt_of_add e feasible).of_ok e
    · cases same
      exact ⟨idle, records.refuse _ _ infeasible⟩
    · exact ⟨idle', records.add feasible added knows⟩
  | @solve h s _ _ _ _ budget policy o _ e ih =>
    obtain ⟨idle, records⟩ := ih
    obtain ⟨idle', follows, -⟩ := Solver.solve_answers idle e
    refine ⟨idle', records.solve _ follows fun open' => ?_⟩
    cases hc : s.status.infeasible? with
    | none => rfl
    | some c =>
      obtain ⟨w, e', -⟩ := Solver.solve_infeasible idle hc budget policy
      cases e'.symm.trans e
      exact hc.symm.trans open'

theorem Reached.idle (run : Reached skip h s) : s.Idle := run.idle_records.1

theorem Reached.records (run : Reached skip h s) : Records h s := run.idle_records.2

/-! ## Adding several clauses -/

/-- A call has added the clause, whatever came of it. -/
def Passed (h : List Event) (ls : List Lit) : Prop :=
  ∃ provenance a, .added ls provenance a ∈ h

/-- The solver after the given clauses were added one after the other. -/
def Solver.addAll (s : Solver) (rules : List (List Lit × Option String)) : Except Fault Solver :=
  rules.foldlM (fun s (ls, provenance) => do return (← s.add ls provenance).2) s

variable {rules : List (List Lit × Option String)}

theorem Solver.addAll_cons (s : Solver) (ls : List Lit) (provenance : Option String) :
    s.addAll ((ls, provenance) :: rules) =
      s.add ls provenance >>= fun x => x.2.addAll rules := by
  unfold addAll
  rw [List.foldlM_cons]
  dsimp only
  cases s.add ls provenance <;> rfl

/-- Clauses are added one after the other, in a history of their own. -/
theorem Reached.addAll (run : Reached skip h s) (e : s.addAll rules = .ok s') :
    ∃ h', Reached skip h' s' ∧ ∀ ls, Passed h' ls ↔ Passed h ls ∨ ∃ rule ∈ rules, rule.1 = ls := by
  induction rules generalizing h s with
  | nil =>
    cases e
    exact ⟨h, run, fun ls => by simp⟩
  | cons rule rules ih =>
    obtain ⟨ks, provenance⟩ := rule
    rw [Solver.addAll_cons] at e
    cases added : s.add ks provenance with
    | error f =>
      rw [added] at e
      cases e
    | ok x =>
      rw [added] at e
      obtain ⟨h', run', passed⟩ := ih (run.add added) e
      refine ⟨h', run', fun ls => ?_⟩
      have last : Passed (h ++ [.added ks provenance x.1]) ls ↔ Passed h ls ∨ ks = ls := by
        simp only [Passed, List.mem_append, List.mem_singleton, Event.added.injEq, exists_or]
        refine or_congr_right ⟨?_, ?_⟩
        · rintro ⟨_, _, rfl, -⟩
          rfl
        · rintro rfl
          exact ⟨_, _, rfl, rfl, rfl⟩
      rw [passed, last, or_assoc]
      simp only [List.mem_cons, or_and_right, exists_or, exists_eq_left]

/-- A new solver to which clauses were added has a history of these clauses. -/
theorem Reached.of_new (e : (Solver.new skip).addAll rules = .ok s) :
    ∃ h, Reached skip h s ∧ ∀ ls, Passed h ls ↔ ∃ rule ∈ rules, rule.1 = ls := by
  obtain ⟨h, run, passed⟩ := Reached.start.addAll e
  refine ⟨h, run, fun ls => (passed ls).trans (or_iff_right ?_)⟩
  rintro ⟨_, _, mem⟩
  cases mem

/-- Clauses over variables with literals are added without a fault. -/
theorem Solver.Idle.addAll_yields (h : s.Idle)
    (hv : ∀ rule ∈ rules, ∀ l ∈ rule.1, l.var < Lit.varBound) :
    Yields (s.addAll rules) Idle := by
  induction rules generalizing s with
  | nil => exact .ok h
  | cons rule rules ih =>
    rw [addAll_cons]
    refine (add_yields h rule.1 rule.2 fun _ => hv rule (by simp)).bind fun x ⟨idle, _⟩ => ?_
    exact ih idle fun rule' mem => hv rule' (List.mem_cons_of_mem _ mem)

/-- A search after some clauses were added, with what is computed of its outcome, has a
    history. -/
theorem Reached.exists_of_map {π β γ : Type} [Policy π] [Termination β] {budget : β} {policy : π}
    {f : Outcome π → γ} {b : γ}
    (e : ((Solver.new skip).addAll rules >>= fun s => s.solve budget policy).map f = .ok b) :
    ∃ h s o, Reached skip h s ∧ s.solve budget policy = .ok o ∧ f o = b ∧
      ∀ ls, Passed h ls ↔ ∃ rule ∈ rules, rule.1 = ls := by
  obtain ⟨s, load, o, solved, he⟩ := Yields.of_bind (Yields.of_map e)
  obtain ⟨h, run, passed⟩ := Reached.of_new load
  exact ⟨h, s, o, run, solved, he, passed⟩

end ClauseLearning
