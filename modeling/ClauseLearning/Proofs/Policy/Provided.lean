/-
  The policies of the library keep their contract.

  Rule. `policies_serve`: deciding on the lowest variable, the priority queue with any ranking and
  the policy of the open clauses with any preferences answer rightly at every request, whatever
  happens between the requests, with a record and without. The assignment may have a past in which
  others have looked at its changes; from the first request on only the policy does.

  The queue of a policy that is new, or was given another ranking, is stale: it is built anew at
  the first request, when nobody knows which changes were consumed before. The policy of the open
  clauses does not need the changes to answer rightly, only an index that leads to clauses of the
  store.
-/
import ClauseLearning.Proofs.Policy.OpenClauses
import ClauseLearning.Proofs.Policy.RankedQueue

namespace ClauseLearning

open Policy

/-- At every request the policies name an unassigned variable, or none if there is none, and none
    of them meets a fault. -/
theorem policies_serve (moves : List Move) {a : Assignment} (made : a.Made) (store : ClauseStore) :
    (∀ p : LowestFirst, Serves moves p a store) ∧
    (∀ p : RankedQueue, p.stale = true → Serves moves p a store) ∧
    (∀ p : OpenClauses, p.index = .empty → Serves moves p a store) ∧
    (∀ r : Recorded LowestFirst, Serves moves r a store) ∧
    (∀ r : Recorded RankedQueue, r.inner.stale = true → Serves moves r a store) ∧
    ∀ r : Recorded OpenClauses, r.inner.index = .empty → Serves moves r a store := by
  obtain ⟨seen, since⟩ := made.exists_since
  have within : ∀ index : ClauseIndex, index = .empty → index.Within store := by
    rintro _ rfl
    exact ClauseIndex.within_empty store
  refine ⟨fun p => ?_, fun p stale => ?_, fun p new => ?_, fun r => ?_, fun r stale => ?_,
    fun r new => ?_⟩
  · exact contract_lowestFirst.serves moves since trivial
  · exact RankedQueue.contract.serves moves since (.inl stale)
  · exact OpenClauses.contract.serves moves since (within _ new)
  · exact contract_lowestFirst.recorded.serves moves since trivial
  · exact RankedQueue.contract.recorded.serves moves since (.inl stale)
  · exact OpenClauses.contract.recorded.serves moves since (within _ new)

/-- Variable 3 has come before the first request, and whoever saw it has consumed the changes; then
    5 comes and goes between two requests and 1 comes later than 3. -/
theorem policies_serve_five_requests : ∃ moves a, a.Made ∧ a.isUnassigned 3 = true ∧
    answers moves (RankedQueue.new true) a .empty = .ok [some 3, none, some 1, some 1, some 3] ∧
    Serves moves (RankedQueue.new true) a .empty ∧
    Serves moves (Recorded.new (OpenClauses.new true)) a .empty := by
  have made : Assignment.Made _ := .consume (.set 3 none .empty rfl)
  obtain ⟨-, queue, -, -, -, recorded⟩ := policies_serve [.ask, .set 3 (some true), .ask,
    .set 5 none, .remove 5, .set 1 none, .ask, .set 3 none, .require [1], .ask,
    .clause (.ofList [⟨1, true⟩, ⟨3, true⟩] false none), .remove 1, .ask] made .empty
  exact ⟨_, _, made, by cbv, by cbv, queue (.new true) rfl, recorded (.new (.new true)) rfl⟩

end ClauseLearning
