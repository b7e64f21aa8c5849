/-
  Policies with and without a record.

  Model. Between requests values are given and taken back, variables come and go, clauses are
  added and variables are required (`Policy.Move`); `Policy.answers` lists what a policy names at
  its requests. A record consumes the changes at every request, so the policy inside sees the
  assignment that it would see without the record, but for its changes. The two runs are related
  by what the policy can tell apart (`Policy.Lockstep`).

  Rule. `answers_recorded`: a record leaves the answers, and the searches, of a policy that does not
  look at the changes, and of one that consumes them at every request. A policy that consumes them
  at some requests only misses those that the record has consumed (`openClauses_recorded`).
-/
import Mathlib
import ClauseLearning.Policy.Lowest
import ClauseLearning.Policy.OpenClauses
import ClauseLearning.Policy.RankedQueue
import ClauseLearning.Policy.Recorded
import ClauseLearning.Proofs.Rounds
import ClauseLearning.Proofs.Solver.Alike
import ClauseLearning.Proofs.Success

namespace ClauseLearning

/-! ## Requests -/

namespace Policy

/-- What can happen to a policy and to what it sees. -/
inductive Move where
  /-- A variable is part of the problem, with the given value or none. -/
  | set (v : Var) (value : Option Bool)
  /-- A variable goes out of the problem. -/
  | remove (v : Var)
  /-- A clause is added. -/
  | clause (c : Clause)
  /-- Variables are required. -/
  | require (vs : List Var)
  /-- The policy is asked. -/
  | ask

variable {π : Type} [Policy π]

/-- What the policy names at its requests, one after the other. -/
def answers : List Move → π → Assignment → ClauseStore → Except Fault (List (Option Var))
  | [], _, _, _ => .ok []
  | .set v value :: moves, p, a, store => do answers moves p (← a.set v value) store
  | .remove v :: moves, p, a, store => do answers moves p (← a.remove v) store
  | .clause c :: moves, p, a, store => answers moves p a (store.add c).2
  | .require vs :: moves, p, a, store => answers moves (Policy.require p vs) a store
  | .ask :: moves, p, a, store => do
    let answer ← Policy.next p a store
    return answer.var? :: (← answers moves answer.policy (answer.applyTo a) store)

/-- Whether the policy consumes the changes at every request. -/
def refreshes : List Move → π → Assignment → ClauseStore → Bool
  | [], _, _, _ => true
  | .set v value :: moves, p, a, store =>
    match a.set v value with
    | .ok a => refreshes moves p a store
    | .error _ => true
  | .remove v :: moves, p, a, store =>
    match a.remove v with
    | .ok a => refreshes moves p a store
    | .error _ => true
  | .clause c :: moves, p, a, store => refreshes moves p a (store.add c).2
  | .require vs :: moves, p, a, store => refreshes moves (Policy.require p vs) a store
  | .ask :: moves, p, a, store =>
    match Policy.next p a store with
    | .ok answer => answer.consumed && refreshes moves answer.policy a.consume store
    | .error _ => true

/-- Policies of the type answer alike on assignments in the relation, which stay in it when the
    same happens to both, and also when the second one is consumed at a request. -/
structure Lockstep (π : Type) [Policy π] (same : Assignment → Assignment → Prop) : Prop
    extends Assignment.Kept same where
  /-- A variable goes. -/
  remove : ∀ {a a'} v, same a a' → Alike same (a.remove v) (a'.remove v)
  /-- The policy is asked. -/
  next : ∀ (p : π) {a a'} store, same a a' → Policy.next p a store = Policy.next p a' store
  /-- The policy has answered. -/
  consume : ∀ (p : π) {a a'} store answer, same a a' → Policy.next p a store = .ok answer →
    same (answer.applyTo a) a'.consume

/-- The policies of the type do not look at the changes. -/
def Ignores (π : Type) [Policy π] : Prop :=
  ∀ (p : π) {a a' : Assignment} store, a.Resembles a' →
    Policy.next p a store = Policy.next p a' store

/-- The policies of the type consume the changes at every request. -/
def Consumes (π : Type) [Policy π] : Prop :=
  ∀ (p : π) a store answer, Policy.next p a store = .ok answer → answer.consumed = true

theorem Ignores.lockstep (h : Ignores π) : Lockstep π Assignment.Resembles where
  toKept := Assignment.kept_resembles
  remove v same := same.remove v
  next p _ _ store same := h p store same
  consume p a a' store answer same _ := by
    obtain ⟨log, rfl⟩ := same
    unfold Suggestion.applyTo
    split <;> exact ⟨_, rfl⟩

theorem Consumes.lockstep (h : Consumes π) : Lockstep π Eq where
  toKept := Assignment.kept_eq
  remove v same := Alike.eq_iff.2 (congrArg (Assignment.remove · v) same)
  next p _ _ store same := congrArg (Policy.next p · store) same
  consume p a a' store answer same e := by
    subst same
    rw [Suggestion.applyTo, if_pos (h p a store answer e)]

theorem ignores_lowestFirst : Ignores LowestFirst := by
  rintro p a _ store ⟨log, rfl⟩
  rfl

theorem consumes_rankedQueue : Consumes RankedQueue := by
  intro p a store answer e
  obtain ⟨ranking, queue, stale⟩ := p
  obtain ⟨queue', -, e⟩ := Yields.exists_of_bind e
  split at e
  · cases e
  · cases e
    rfl

end Policy

/-! ## Answers -/

variable {π β : Type} [Policy π] [Termination β] {same : Assignment → Assignment → Prop}

/-- An answer with a record names the same variable, leaves the same policy inside, and the
    assignments are related afterwards. -/
structure Suggestion.Like (same : Assignment → Assignment → Prop) (a a' : Assignment)
    (x : Suggestion π) (x' : Suggestion (Recorded π)) : Prop where
  /-- The variable is the same. -/
  var : x'.var? = x.var?
  /-- The policy inside is the same. -/
  inner : x'.policy.inner = x.policy
  /-- What is consumed leaves the assignments related. -/
  applied : same (x.applyTo a) (x'.applyTo a')

namespace Policy

theorem Lockstep.next_alike (h : Lockstep π same) {a a' : Assignment} (related : same a a')
    (r : Recorded π) (store : ClauseStore) :
    Alike (Suggestion.Like same a a') (Policy.next r.inner a store) (Policy.next r a' store) := by
  obtain ⟨inner, installed, required, suggestions, observed⟩ := r
  simp only [Policy.next, Recorded.next, ← h.next inner store related]
  cases e : Policy.next inner a store with
  | error f => rfl
  | ok answer => exact ⟨rfl, rfl, h.consume inner store answer related e⟩

/-- A policy answers as it does with a record, when it cannot tell the assignments apart. -/
theorem Lockstep.answers_eq (h : Lockstep π same) (moves : List Move) {a a' : Assignment}
    (store : ClauseStore) (related : same a a') (r : Recorded π) :
    answers moves r.inner a store = answers moves r a' store := by
  induction moves generalizing r a a' store with
  | nil => rfl
  | cons move moves ih =>
    cases move with
    | set v value => exact (h.set v value related).bind_eq fun _ _ related => ih store related r
    | remove v => exact (h.remove v related).bind_eq fun _ _ related => ih store related r
    | clause c => exact ih (store.add c).2 related r
    | require vs => exact ih store related (Policy.require r vs)
    | ask =>
      refine (h.next_alike related r store).bind_eq fun x x' like => ?_
      rw [like.var, ← like.inner, ih store like.applied]

/-- A record changes nothing for a policy that consumes the changes at every request. -/
theorem answers_of_refreshes {moves : List Move} {a : Assignment} {store : ClauseStore}
    {r : Recorded π} (h : refreshes moves r.inner a store = true) :
    answers moves r.inner a store = answers moves r a store := by
  induction moves generalizing r a store with
  | nil => rfl
  | cons move moves ih =>
    cases move with
    | set v value =>
      simp only [answers, refreshes] at h ⊢
      cases e : a.set v value with
      | error f => rfl
      | ok a' =>
        rw [e] at h
        exact ih h
    | remove v =>
      simp only [answers, refreshes] at h ⊢
      cases e : a.remove v with
      | error f => rfl
      | ok a' =>
        rw [e] at h
        exact ih h
    | clause c => exact ih h
    | require vs => exact ih (r := Policy.require r vs) h
    | ask =>
      obtain ⟨inner, installed, required, suggestions, observed⟩ := r
      simp only [answers, refreshes, Policy.next, Recorded.next] at h ⊢
      cases e : Policy.next inner a store with
      | error f => rfl
      | ok answer =>
        rw [e, Bool.and_eq_true] at h
        obtain ⟨consumed, h⟩ := h
        have applied : answer.applyTo a = a.consume := if_pos consumed
        have recorded : ∀ r : Recorded π, r.inner = answer.policy →
            answers moves answer.policy (answer.applyTo a) store =
              answers moves r a.consume store := by
          rintro r inner
          rw [applied, ← inner]
          exact ih (inner ▸ h)
        exact congrArg (· >>= fun rest => Pure.pure (answer.var? :: rest)) (recorded _ rfl)

end Policy

/-! ## Searches -/

/-- The searches are the same but for the record and for related assignments. -/
structure Search.Like (same : Assignment → Assignment → Prop) (q : Search π β)
    (q' : Search (Recorded π) β) : Prop where
  /-- The solvers are related. -/
  solver : q.solver.Like same q'.solver
  /-- The policy inside is the same. -/
  inner : q'.policy.inner = q.policy
  /-- As much may be spent. -/
  budget : q'.budget = q.budget

/-- The outcomes are the same but for the record and for related assignments. -/
structure Outcome.Like (same : Assignment → Assignment → Prop) (o : Outcome π)
    (o' : Outcome (Recorded π)) : Prop where
  /-- The answer is the same. -/
  verdict : o.verdict.Like same o'.verdict
  /-- The solvers that are left are related. -/
  solver : o.solver.Like same o'.solver
  /-- The policy inside is the same. -/
  inner : o'.policy.inner = o.policy

namespace Policy.Lockstep

/-- A decision. -/
theorem decide (h : Lockstep π same) {q : Search π β} {q' : Search (Recorded π) β}
    (like : q.Like same q') : Alike (Search.Like same) q.decide q'.decide := by
  obtain ⟨s, p, budget⟩ := q
  obtain ⟨s', r, budget'⟩ := q'
  obtain ⟨solver, inner, rfl⟩ := like
  obtain rfl : r.inner = p := inner
  unfold Search.decide
  dsimp only at solver ⊢
  have resembles := h.resembles solver.assignment
  rw [solver.clauses_eq, resembles.numAssigned_eq, resembles.numVariables_eq]
  refine Alike.bind_same fun unassigned => ?_
  refine (h.next_alike solver.assignment r s.clauses).bind fun x x' answer => ?_
  rw [answer.var]
  split
  · rfl
  · rw [solver.isUnassigned_eq h.toKept]
    split
    · rfl
    · have polarity : Policy.polarity x'.policy = Policy.polarity x.policy :=
        congrArg Policy.polarity answer.inner
      rw [polarity]
      refine ((solver.noteConsumed answer.applied).decideOn h.toKept _ _).bind fun _ _ decided => ?_
      exact ⟨decided, answer.inner, rfl⟩

/-- A round. -/
theorem round (h : Lockstep π same) {q : Search π β} {q' : Search (Recorded π) β}
    (like : q.Like same q') :
    Alike (Round.Like (Search.Like same) (Outcome.Like same)) q.round q'.round := by
  obtain ⟨s, p, budget⟩ := q
  obtain ⟨s', r, budget'⟩ := q'
  obtain ⟨solver, inner, rfl⟩ := like
  unfold Search.round
  dsimp only at solver inner ⊢
  rw [solver.status_eq]
  split
  · refine Alike.bind_same fun status => ?_
    exact (solver.leave h.toKept status).bind fun _ _ left => .done ⟨.unknown, left, inner⟩
  · refine (solver.propagate h.toKept).bind fun s s' solver => ?_
    rw [solver.status_eq]
    split
    · refine (solver.onConflict h.toKept _).bind fun (v, s) (v', s') ⟨verdict, solver⟩ => ?_
      cases verdict with
      | none => exact .more ⟨solver, inner, rfl⟩
      | some verdict => exact .done ⟨verdict, solver, inner⟩
    · rw [solver.isComplete_eq h.toKept]
      split
      · refine (solver.succeed h.toKept).bind fun (v, s) (v', s') ⟨verdict, solver⟩ => ?_
        exact .done ⟨verdict, solver, inner⟩
      · exact (h.decide ⟨solver, inner, rfl⟩).bind fun _ _ like => .more like

/-- A search to its end. -/
theorem solve (h : Lockstep π same) {s s' : Solver} (like : s.Like same s') (budget : β)
    (r : Recorded π) :
    Alike (Outcome.Like same) (s.solve budget r.inner) (s'.solve budget r) := by
  unfold Solver.solve
  rw [like.status_eq]
  split
  · rw [like.refute_eq]
    exact Alike.bind_same fun w => ⟨.unsatisfiable w, like, rfl⟩
  · refine Alike.bind_same fun status => ?_
    have begun : Search.Like same (⟨{ s with status := status }, r.inner, budget⟩ : Search π β)
        ⟨{ s' with status := status }, r, budget⟩ := ⟨like.withStatus status, rfl, rfl⟩
    unfold Search.run
    have vars := (h.resembles begun.solver.assignment).numVariables_eq
    rw [vars]
    refine (Round.run_alike (fun _ _ => h.round) _ begun).bind fun x x' related => ?_
    cases related with
    | more _ => rfl
    | done outcome => exact outcome

end Policy.Lockstep

/-! ## The policies of the library -/

/-- A record leaves the answers and the searches of the two policies that treat all requests alike:
    deciding on the lowest variable never looks at the changes, and the queue always consumes
    them, so that its searches do not even differ in the changes. The answers of the policy of the
    open clauses are left as long as it consumes the changes too. -/
theorem answers_recorded (moves : List Policy.Move) (a : Assignment) (store : ClauseStore)
    (s : Solver) (budget : β) :
    (∀ r : Recorded LowestFirst,
      Policy.answers moves r.inner a store = Policy.answers moves r a store) ∧
    (∀ r : Recorded RankedQueue,
      Policy.answers moves r.inner a store = Policy.answers moves r a store) ∧
    (∀ r : Recorded OpenClauses, Policy.refreshes moves r.inner a store = true →
      Policy.answers moves r.inner a store = Policy.answers moves r a store) ∧
    (∀ r : Recorded LowestFirst,
      Alike (Outcome.Like Assignment.Resembles) (s.solve budget r.inner) (s.solve budget r)) ∧
    ∀ r : Recorded RankedQueue,
      Alike (Outcome.Like Eq) (s.solve budget r.inner) (s.solve budget r) := by
  have lowest := Policy.ignores_lowestFirst.lockstep
  have queue := Policy.consumes_rankedQueue.lockstep
  refine ⟨fun r => ?_, fun r => ?_, fun r refreshes => ?_, fun r => ?_, fun r => ?_⟩
  · exact lowest.answers_eq moves store (.refl a) r
  · exact queue.answers_eq moves store rfl r
  · exact Policy.answers_of_refreshes refreshes
  · exact lowest.solve (.refl_of s (.refl _)) budget r
  · exact queue.solve (.refl_of s rfl) budget r

theorem answers_recorded_two_requests : ∃ moves,
    Policy.refreshes moves (OpenClauses.new true) .empty .empty = true ∧
    Policy.answers moves (OpenClauses.new true) .empty .empty = .ok [some 2, some 1] ∧
    Policy.answers moves (OpenClauses.new true) .empty .empty =
      Policy.answers moves (Recorded.new (OpenClauses.new true)) .empty .empty := by
  have refreshes : Policy.refreshes [.set 1 none, .set 2 none, .set 3 none,
      .clause (.ofList [⟨2, true⟩, ⟨3, true⟩] false none), .ask, .set 2 (some true),
      .clause (.ofList [⟨1, true⟩, ⟨3, true⟩] false none), .ask]
      (OpenClauses.new true) .empty .empty = true := by
    cbv
  obtain ⟨-, -, recorded, -⟩ := answers_recorded _ .empty .empty (.new true) Budget.unlimited
  exact ⟨_, refreshes, by cbv, recorded (Recorded.new (OpenClauses.new true)) refreshes⟩

/-- The policy of the open clauses consumes the changes only when it finds its candidates anew. With
    a record it misses that 2 was made true before the second request, takes the clause over 2 and
    3 for an open one at the third, and names 3 instead of the lowest unassigned variable. -/
theorem openClauses_recorded : ∃ moves,
    Policy.answers moves (OpenClauses.new true) .empty .empty = .ok [some 2, some 4, some 1] ∧
      Policy.answers moves (Recorded.new (OpenClauses.new true)) .empty .empty =
        .ok [some 2, some 4, some 3] := by
  refine ⟨[.set 1 none, .set 2 none, .set 3 none, .set 4 none, .set 5 none, .set 3 (some false),
    .clause (.ofList [⟨2, true⟩, ⟨3, true⟩] false none),
    .clause (.ofList [⟨4, true⟩, ⟨5, true⟩] false none), .ask, .set 2 (some true), .set 3 none,
    .ask, .set 4 (some true), .set 5 (some true), .ask], ?_, ?_⟩
  · cbv
  · cbv

/-- So a search can take more decisions when its policy is recorded. -/
theorem solve_openClauses_recorded : ∃ rules,
    (Solver.ofRules rules >>= fun s => s.solve Budget.unlimited (OpenClauses.new true)).map
        (·.solver.statistics.decisions) = .ok 5 ∧
      (Solver.ofRules rules >>= fun s =>
        s.solve Budget.unlimited (Recorded.new (OpenClauses.new true))).map
          (·.solver.statistics.decisions) = .ok 6 := by
  refine ⟨[([⟨4, true⟩, ⟨2, false⟩], none), ([⟨4, false⟩, ⟨5, true⟩, ⟨1, false⟩], none),
    ([⟨2, false⟩, ⟨5, false⟩], none), ([⟨3, false⟩, ⟨1, true⟩], none),
    ([⟨5, false⟩, ⟨4, false⟩], none)], ?_, ?_⟩
  · cbv
  · cbv

end ClauseLearning
