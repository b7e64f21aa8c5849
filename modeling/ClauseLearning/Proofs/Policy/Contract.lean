/-
  What a policy owes.

  Model. At a request a policy names an unassigned variable, or none if there is none
  (`Policy.IsRight`), and meets no fault. It serves a sequence of moves when it does so at every
  request, with the assignment and the clauses as the moves have left them (`Policy.Serves`). A
  move that gives a variable its other value is refused by the assignment and ends the sequence.

  Rule. What a policy knows about the assignment it knows from the changes, so it depends on the
  states seen when the changes were consumed last and on the clauses, not on the states of now. A
  condition on these three that all requests keep is enough to serve every sequence of moves
  (`Policy.Contract.serves`), and carries over to the policy with a record
  (`Policy.Contract.recorded`).
-/
import ClauseLearning.Proofs.Assignment.Changes
import ClauseLearning.Proofs.Policy.Recorded

namespace ClauseLearning

namespace Policy

/-- What is named is an unassigned variable, and none is named only if there is none. -/
def IsRight (a : Assignment) : Option Var → Prop
  | some v => a.isUnassigned v = true
  | none => ∀ v, a.isUnassigned v = false

variable {π : Type} [Policy π]

/-- The policy answers rightly at every request. -/
def Serves : List Move → π → Assignment → ClauseStore → Prop
  | [], _, _, _ => True
  | .set v value :: moves, p, a, store =>
    Ends (a.set v value) (fun a' => Serves moves p a' store) fun fault =>
      ∃ b, a.state v = .assigned b ∧ value = some !b ∧
        fault = .reassigned v (.assigned b) (.assigned !b)
  | .remove v :: moves, p, a, store =>
    Yields (a.remove v) fun a' => Serves moves p a' store
  | .clause c :: moves, p, a, store => Serves moves p a (store.add c).2
  | .require vs :: moves, p, a, store => Serves moves (Policy.require p vs) a store
  | .ask :: moves, p, a, store =>
    Yields (Policy.next p a store) fun answer =>
      IsRight a answer.var? ∧ Serves moves answer.policy (answer.applyTo a) store

/-- A condition on a policy, the states it has seen last and the clauses that every move keeps, and
    under which it answers rightly. It is kept also if somebody else consumes the changes at a
    request. -/
structure Contract (inv : π → (Var → VarState) → ClauseStore → Prop) : Prop where
  /-- A clause is added. -/
  clause : ∀ {p seen store} c, inv p seen store → inv p seen (store.add c).2
  /-- Variables are required. -/
  require : ∀ {p seen store} vs, inv p seen store → inv (Policy.require p vs) seen store
  /-- The policy is asked. -/
  next : ∀ {p seen store} {a : Assignment}, a.Since seen → inv p seen store →
    Yields (Policy.next p a store) fun answer => IsRight a answer.var? ∧
      (answer.consumed = false → inv answer.policy seen store) ∧ inv answer.policy a.state store

namespace Contract

variable {inv : π → (Var → VarState) → ClauseStore → Prop}

theorem serves (h : Contract inv) (moves : List Move) {p : π} {seen : Var → VarState}
    {a : Assignment} {store : ClauseStore} (since : a.Since seen) (holds : inv p seen store) :
    Serves moves p a store := by
  induction moves generalizing p seen a store with
  | nil => trivial
  | cons move moves ih =>
    cases move with
    | set v value => exact (since.set v value).mono (fun a' new => ih new.1 holds) fun _ => id
    | remove v => exact (since.remove v).mono fun a' new => ih new.1 holds
    | clause c => exact ih since (h.clause c holds)
    | require vs => exact ih since (h.require vs holds)
    | ask =>
      refine (h.next since holds).mono fun answer ⟨right, kept, fresh⟩ => ⟨right, ?_⟩
      unfold Suggestion.applyTo
      split
      · exact ih (Assignment.since_consume since.counted) fresh
      · rename_i unread
        exact ih since (kept (Bool.eq_false_iff.2 unread))

/-- A record passes the answers on, and consumes the changes at every request. -/
theorem recorded (h : Contract inv) :
    Contract fun (r : Recorded π) seen store => inv r.inner seen store where
  clause c := h.clause c
  require vs := h.require vs
  next since holds := by
    rename_i r seen store a
    obtain ⟨inner, installed, required, suggestions, observed⟩ := r
    refine (h.next since holds).bind fun answer ⟨right, _, fresh⟩ => ?_
    exact .pure ⟨right, fun unread => (Bool.noConfusion unread), fresh⟩

end Contract

/-- Deciding on the lowest variable depends on nothing but the assignment. -/
theorem contract_lowestFirst : Contract fun (_ : LowestFirst) _ _ => True where
  clause _ _ := trivial
  require _ _ := trivial
  next := by
    intro p seen store a _ _
    refine .ok ⟨?_, fun _ => trivial, trivial⟩
    dsimp only
    cases e : a.lowestUnassigned? with
    | some v => exact (Assignment.lowest_of_lowestUnassigned? e).1
    | none => exact Assignment.isUnassigned_of_lowestUnassigned?_none e

end Policy

end ClauseLearning
