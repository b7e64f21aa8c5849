/-
  What the policy of the open clauses knows right after a refresh.

  Model. A request may refresh the candidates twice, once for new clauses and once because no
  candidate is left. In between the policy is seen by nobody, so a request is run again with an
  account of its course (`OpenClauses.course`): the policy right after each refresh, and whether all
  unassigned variables were considered in the end. Without the account it is the request
  (`answer_course`).

  Before the first request anybody consumes the changes, at any moment and before or after clauses
  are added. From then on only the policy does.

  Rule. `refreshes_find_open`: a clause without a true literal counts as open right after every
  refresh, whenever it was added and however often it has become true and lost its true literal
  since. The marks of other clauses may lag behind: a clause that has come with a true literal counts
  as open until one of its variables changes. So when all unassigned variables are considered, every
  variable of a clause without a true literal has a value.
-/
import ClauseLearning.Proofs.Assignment.Difference
import ClauseLearning.Proofs.Policy.Candidates

namespace ClauseLearning

namespace OpenClauses

variable {p q : OpenClauses} {a : Assignment} {store : ClauseStore} {seen : Var → VarState}
  {fresh : List ClauseRef}

/-! ## The course of a request -/

/-- An answer with an account of what was done to find it. -/
structure Course where
  /-- The answer. -/
  answer : Suggestion OpenClauses
  /-- The policy right after each refresh. -/
  refreshed : List OpenClauses
  /-- Whether the open clauses gave no variable, so that all unassigned ones were considered. -/
  lastResort : Bool

/-- Names a variable as `choose` does. -/
def chooseCourse (p : OpenClauses) (a : Assignment) (store : ClauseStore) (consumed : Bool) :
    Except Fault Course := do
  match p.early? a with
  | some v => return ⟨⟨some v, consumed, p⟩, [], false⟩
  | none =>
    let p := { p with candidates := p.candidates.filter a.isUnassigned }
    match p.best? p.candidates with
    | some v => return ⟨⟨some v, consumed, p⟩, [], false⟩
    | none =>
      let p ← p.refresh (if consumed then a.consume else a) store
      match p.best? p.candidates with
      | some v => return ⟨⟨some v, true, p⟩, [p], false⟩
      | none => return ⟨⟨p.bestOpen? a (p.others a), true, p⟩, [p], true⟩

/-- Names the next variable as `next` does. -/
def course (p : OpenClauses) (a : Assignment) (store : ClauseStore) : Except Fault Course := do
  if p.index.size < store.size then
    let p ← p.indexNew store
    let p ← p.refresh a store
    let c ← chooseCourse p a store true
    return { c with refreshed := p :: c.refreshed }
  else p.chooseCourse a store false

theorem answer_chooseCourse (p : OpenClauses) (a : Assignment) (store : ClauseStore)
    (consumed : Bool) :
    (p.chooseCourse a store consumed).map Course.answer = p.choose a store consumed := by
  unfold chooseCourse choose
  cases p.early? a with
  | some v => rfl
  | none =>
    dsimp only
    cases best? { p with candidates := p.candidates.filter a.isUnassigned }
        (p.candidates.filter a.isUnassigned) with
    | some v => rfl
    | none =>
      dsimp only
      cases refresh _ _ store with
      | error fault => rfl
      | ok q =>
        show Except.map Course.answer (match q.best? q.candidates with
          | some v => _
          | none => _) = Except.ok _
        cases q.best? q.candidates <;> rfl

/-- Without the account the course is the request. -/
theorem answer_course (p : OpenClauses) (a : Assignment) (store : ClauseStore) :
    (p.course a store).map Course.answer = p.next a store := by
  unfold course next
  split
  · cases p.indexNew store with
    | error fault => rfl
    | ok p₁ =>
      show Except.map Course.answer (p₁.refresh a store >>= _) = p₁.refresh a store >>= _
      cases p₁.refresh a store with
      | error fault => rfl
      | ok p₂ =>
        show Except.map Course.answer (p₂.chooseCourse a store true >>= _) = p₂.choose a store true
        rw [← answer_chooseCourse]
        cases p₂.chooseCourse a store true <;> rfl
  · exact answer_chooseCourse p a store false

/-! ## What a refresh finds -/

/-- Every clause without a true literal counts as open. -/
def FindsOpen (p : OpenClauses) (a : Assignment) (store : ClauseStore) : Prop :=
  ∀ r c, store.get? r = some c → a.satisfies c.literals = false → p.index.isOpen r = true

theorem InStep.findsOpen (h : p.InStep store a.state fresh) : p.FindsOpen a store := by
  intro r c hc unsatisfied
  refine (h.marked.isOpen r c ?_ hc).2 (.inr ?_)
  · rw [h.full]
    exact ClauseStore.lt_size_of_get? hc
  · exact Assignment.satisfies_eq_false_iff.1 unsatisfied

/-- What is known of the course of a request. -/
structure Course.Sound (c : Course) (a : Assignment) (store : ClauseStore) : Prop where
  /-- Every refresh finds the open clauses. -/
  refreshed : ∀ q ∈ c.refreshed, q.FindsOpen a store
  /-- In the last resort no open clause has a variable to decide on. -/
  lastResort : c.lastResort = true → ∀ v, ¬ InOpenClause a store v

/-- Only a refresh consumes the changes. -/
theorem chooseCourse_sound (h : p.InStep store seen fresh) (consumed : Bool)
    (since : (if consumed then a.consume else a).Since seen) :
    Yields (p.chooseCourse a store consumed) fun c => c.Sound a store ∧
      (c.answer.consumed = true ↔ consumed = true ∨ c.refreshed ≠ []) := by
  unfold chooseCourse
  split
  · exact .pure ⟨⟨by simp, by simp⟩, by simp⟩
  · dsimp only
    split
    · exact .pure ⟨⟨by simp, by simp⟩, by simp⟩
    · have step : InStep { p with candidates := _ } store seen fresh := ⟨h.full, h.marked⟩
      have state : (if consumed then a.consume else a).state = a.state := by split <;> rfl
      refine (refresh_inStep step since).bind fun q ⟨_, step', candidates⟩ => ?_
      rw [state] at step'
      have found : q.candidates = q.index.candidates a := by
        rw [candidates]
        split <;> rfl
      split
      · exact .pure ⟨⟨by simpa using step'.findsOpen, by simp⟩, by simp⟩
      · rename_i none
        refine .pure ⟨⟨by simpa using step'.findsOpen, fun _ v inOpen => ?_⟩, by simp⟩
        have mem := step'.mem_candidates.2 (.inl inOpen)
        rw [← found, eq_nil_of_best? none] at mem
        cases mem

namespace Session

variable {s : Session}

/-- The changes are consumed just when a request refreshes the candidates, and every refresh finds
    the open clauses. -/
theorem Ready.course_sound (h : s.Ready) :
    Yields (s.policy.course s.assignment s.clauses) fun c =>
      c.Sound s.assignment s.clauses ∧ (c.answer.consumed = true ↔ c.refreshed ≠ []) := by
  unfold course
  split
  · refine (indexNew_inStep h.marked).bind fun q ⟨_, step⟩ => ?_
    refine (refresh_inStep step h.since).bind fun q' ⟨_, step', _⟩ => ?_
    refine (chooseCourse_sound step' true (Assignment.since_consume h.since.counted)).bind
      fun c ⟨sound, consumed⟩ => .pure ⟨⟨?_, sound.lastResort⟩, ?_⟩
    · exact List.forall_mem_cons.2 ⟨step'.findsOpen, sound.refreshed⟩
    · exact iff_of_true (consumed.2 (.inl rfl)) (List.cons_ne_nil _ _)
  · rename_i old
    have full : s.policy.index.size = s.clauses.size :=
      Nat.le_antisymm h.marked.exact.size (Nat.le_of_not_lt old)
    refine (chooseCourse_sound ⟨full, h.marked⟩ false h.since).mono fun c ⟨sound, consumed⟩ => ?_
    exact ⟨sound, consumed.trans (by simp)⟩

/-- A policy that has not been asked yet, with an assignment that was edited and clauses that were
    added. -/
def begun (p : OpenClauses) (a : Assignment) (edits : List Assignment.Edit) (store : ClauseStore) :
    Session :=
  ⟨p, a, store, (edits.foldl Assignment.Account.after .start).seen, []⟩

/-- Let the policy be asked for the first time after any edits of the assignment and with any
    clauses, and be the only one to consume the changes from then on. After any moves a request is
    answered without a fault. Right after each refresh it makes, every clause without a true literal
    counts as open; a request that makes none consumes no changes. When it considers all unassigned
    variables, no clause without a true literal has one of them. -/
theorem refreshes_find_open (prefer : Bool) (installed : List Var) (prefs : List (Var × Nat))
    (edits : List Assignment.Edit) (store : ClauseStore) (moves : List Policy.Move) :
    Ends (do
        let a ← edits.foldlM Assignment.edit .empty
        moves.foldlM move (.begun (configured prefer installed prefs) a edits store))
      (fun s => Yields (s.policy.course s.assignment s.clauses) fun c =>
        s.policy.next s.assignment s.clauses = .ok c.answer ∧
        (c.answer.consumed = true ↔ c.refreshed ≠ []) ∧
        (∀ q ∈ c.refreshed, ∀ r d, s.clauses.get? r = some d →
          s.assignment.satisfies d.literals = false → q.index.isOpen r = true) ∧
        (c.lastResort = true → ∀ r d, s.clauses.get? r = some d →
          s.assignment.satisfies d.literals = false →
          ∀ l ∈ d.literals, s.assignment.isUnassigned l.var = false))
      fun fault => ∃ v b, fault = .reassigned v (.assigned b) (.assigned !b) := by
  refine ((Assignment.matches_start.edits edits).mono (fun _ => id) ?_).bind fun a m => ?_
  · rintro fault ⟨_, v, b, _, _, _, rfl⟩
    exact ⟨v, b, rfl⟩
  have ready : (begun (configured prefer installed prefs) a edits store).Ready :=
    ⟨m.since, listed_withPreferences _ prefs, .start _ _⟩
  refine (ready.moves_end rfl moves).mono (fun s ⟨h, _⟩ => ?_) fun _ => id
  obtain ⟨c, e, sound, consumed⟩ := h.course_sound
  refine .of_eq e ⟨?_, consumed, sound.refreshed, fun last r d hd unsatisfied l mem => ?_⟩
  · rw [← answer_course, e]
    rfl
  · rw [Bool.eq_false_iff]
    intro unassigned
    exact sound.lastResort last l.var ⟨unassigned, d, ClauseStore.mem_toList.2 ⟨r, hd⟩, unsatisfied,
      l, mem, rfl⟩

/-- Whether each refresh of the last request marks the first clause as open. -/
def marksFirst (moves : List Policy.Move) : Except Fault (List Bool) := do
  let s ← moves.foldlM move (.start (new true))
  let c ← s.policy.course s.assignment s.clauses
  return c.refreshed.map (·.index.isOpen 0)

-- a clause that is found true, and then the same clause after its literal has lost its value
example : marksFirst [.set 1 none, .set 2 none, .clause (.ofList [⟨1, true⟩] false none), .ask,
    .set 1 (some true)] = .ok [false] := by cbv

example : marksFirst [.set 1 none, .set 2 none, .clause (.ofList [⟨1, true⟩] false none), .ask,
    .set 1 (some true), .ask, .set 1 none] = .ok [true] := by cbv

end Session

end OpenClauses

end ClauseLearning
