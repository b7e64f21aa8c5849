/-
  Which variable the policy of the open clauses names.

  Model. When its turn comes to the open clauses, the variable to name is the best one that has no
  value and occurs in a clause without a true literal (`InOpenClause`), and only where there is
  none the best one of all that have no value (`Names`). The policy does not look for these
  variables at every request. It finds its candidates when there are new clauses or when no
  candidate is left, and otherwise only drops those with a value; and a clause it has taken in
  counts as open until a look at the changes finds that one of its variables has changed. Between
  requests anything happens to the assignment, clauses are added and variables are required
  (`Session.move`); nobody else consumes the changes.

  Rule. The best candidate is named, and the candidates are known exactly (`answer_of_moves`): after
  a request that consumes the changes they are the variables of the open clauses and of those that
  only count as open, after any other the candidates from before that still have no value. So the
  variable is the right one whenever the changes were consumed and no clause counts as open that is
  not. At other requests it may be one of clauses that have a true literal by now, although there
  are open ones (`answer_not_open`).
-/
import ClauseLearning.Proofs.Policy.OpenClauses

namespace ClauseLearning

namespace OpenClauses

variable {p q : OpenClauses} {a : Assignment} {store : ClauseStore} {u v w : Var} {vs : List Var}
  {preference : Var → Nat} {among among' : Var → Prop} {seen : Var → VarState}
  {fresh : List ClauseRef}

/-! ## The order of the variables -/

/-- The first variable has the higher preference, or the same and not the higher number. -/
def Precedes (preference : Var → Nat) (v w : Var) : Prop :=
  preference w < preference v ∨ preference w = preference v ∧ v ≤ w

theorem Precedes.refl (preference : Var → Nat) (v : Var) : Precedes preference v v :=
  .inr ⟨rfl, Nat.le_refl v⟩

theorem Precedes.trans (h : Precedes preference u v) (h' : Precedes preference v w) :
    Precedes preference u w := by
  rcases h with more | ⟨same, le⟩
  · rcases h' with more' | ⟨same', -⟩
    · exact .inl (more'.trans more)
    · exact .inl (same' ▸ more)
  · rcases h' with more' | ⟨same', le'⟩
    · exact .inl (same ▸ more')
    · exact .inr ⟨same'.trans same, Nat.le_trans le le'⟩

/-- Of two variables the better one precedes both. -/
theorem precedes_better (p : OpenClauses) (v w : Var) :
    Precedes p.preference (if p.better v w then v else w) v ∧
      Precedes p.preference (if p.better v w then v else w) w := by
  split
  · rename_i ahead
    simp only [better, Bool.or_eq_true, decide_eq_true_eq, Bool.and_eq_true, beq_iff_eq] at ahead
    exact ⟨.refl _ v, ahead.imp id fun h => ⟨h.1.symm, Nat.le_of_lt h.2⟩⟩
  · rename_i other
    simp only [better, Bool.or_eq_true, decide_eq_true_eq, Bool.and_eq_true, beq_iff_eq, not_or,
      not_and, Nat.not_lt] at other
    refine ⟨?_, .refl _ w⟩
    rcases Nat.lt_or_eq_of_le other.1 with more | same
    · exact .inl more
    · exact .inr ⟨same, other.2 same⟩

/-- The variable is the first of the given ones. -/
structure IsBest (preference : Var → Nat) (among : Var → Prop) (v : Var) : Prop where
  /-- It is one of them. -/
  mem : among v
  /-- It precedes all of them. -/
  precedes : ∀ w, among w → Precedes preference v w

theorem isBest_of_best? (h : p.best? vs = some v) : IsBest p.preference (· ∈ vs) v := by
  refine ⟨mem_of_best? h, ?_⟩
  cases vs with
  | nil => cases h
  | cons w ws =>
    obtain rfl := Option.some.inj h
    have step : ∀ us : List Var, ∀ u, ∀ x ∈ u :: us,
        Precedes p.preference (us.foldl (fun w v => if p.better v w then v else w) u) x := by
      intro us
      induction us with
      | nil =>
        intro u x mem
        rw [List.mem_singleton.1 mem]
        exact .refl _ u
      | cons y us ih =>
        intro u x mem
        have first := ih (if p.better y u then y else u) _ (.head _)
        rcases List.mem_cons.1 mem with rfl | mem
        · exact first.trans (p.precedes_better y x).2
        · rcases List.mem_cons.1 mem with rfl | mem
          · exact first.trans (p.precedes_better x u).1
          · exact ih _ x (.tail _ mem)
    exact step ws w

/-- What is named is the first of the given variables, or where there are none the first of all
    that have no value; nothing is named only if all have one. -/
def Names (preference : Var → Nat) (a : Assignment) (among : Var → Prop) : Option Var → Prop
  | some v => IsBest preference among v ∨
      (∀ w, ¬ among w) ∧ IsBest preference (a.isUnassigned · = true) v
  | none => ∀ v, a.isUnassigned v = false

theorem Names.congr {x : Option Var} (h : Names preference a among x)
    (e : ∀ w, among w ↔ among' w) : Names preference a among' x := by
  rwa [show among' = among from funext fun w => propext (e w).symm]

/-! ### The last resort -/

/-- Every variable that is given a preference is listed. -/
def Listed (p : OpenClauses) : Prop := ∀ v, p.preferences.get? v ≠ none → v ∈ p.preferred

theorem listed_withPreferences (p : OpenClauses) (prefs : List (Var × Nat)) :
    (p.withPreferences prefs).Listed := by
  have known : ∀ (m : NatMap Nat) v,
      (prefs.foldl (fun m p => m.insert p.1 p.2) m).get? v ≠ none →
        m.get? v ≠ none ∨ v ∈ prefs.map Prod.fst := by
    induction prefs with
    | nil => exact fun m v => .inl
    | cons pref prefs ih =>
      intro m v h
      rcases ih _ v h with earlier | later
      · rw [NatMap.get?_insert] at earlier
        split at earlier
        · rename_i same
          exact .inr (same ▸ .head _)
        · exact .inl earlier
      · exact .inr (.tail _ later)
  intro v h
  exact (known .empty v h).resolve_left fun earlier => earlier rfl

/-- Variables without a preference come last, the lowest one first of them. -/
theorem isBest_of_others (listed : p.Listed) (h : p.bestOpen? a (p.others a) = some v) :
    IsBest p.preference (a.isUnassigned · = true) v := by
  refine ⟨isUnassigned_of_bestOpen? h, fun w unassigned => ?_⟩
  have precedes : ∀ u ∈ p.others a, a.isUnassigned u = true → Precedes p.preference v u :=
    fun u mem hu => (isBest_of_best? h).precedes u (List.mem_filter.2 ⟨mem, hu⟩)
  by_cases preferred : w ∈ p.preferred
  · exact precedes w (List.mem_append_right _ preferred) unassigned
  · have zero : p.preference w = 0 := by
      rw [preference, not_not.1 (mt (listed w) preferred), Option.getD_none]
    obtain ⟨u, lowest, hu⟩ := Assignment.lowestUnassigned?_eq unassigned
    have le : u ≤ w := Nat.le_of_not_lt fun lt => by
      rw [(Assignment.lowest_of_lowestUnassigned? lowest).2 w lt] at unassigned
      cases unassigned
    refine (precedes u (by simp [others, lowest]) hu).trans ?_
    rcases Nat.eq_zero_or_pos (p.preference u) with same | more
    · exact .inr ⟨zero.trans same.symm, le⟩
    · exact .inl (zero ▸ more)

theorem names_of_candidates (listed : q.Listed)
    (unassigned : ∀ v ∈ q.candidates, a.isUnassigned v = true) :
    Names q.preference a (· ∈ q.candidates)
      ((q.best? q.candidates).or (q.bestOpen? a (q.others a))) := by
  have right := isRight_late unassigned
  cases e : (q.best? q.candidates).or (q.bestOpen? a (q.others a)) with
  | none =>
    rw [e] at right
    exact right
  | some v =>
    rcases Option.or_eq_some_iff.1 e with found | ⟨none, found⟩
    · exact .inl (isBest_of_best? found)
    · exact .inr ⟨by simp [eq_nil_of_best? none], isBest_of_others listed found⟩

/-! ## A request -/

/-- What the policy was told, without what it has found out. -/
def told (p : OpenClauses) : OpenClauses := { p with index := .empty, candidates := [] }

theorem preference_of_told (e : q.told = p.told) : q.preference = p.preference := by
  have same : q.told.preference = p.told.preference := by rw [e]
  exact same

theorem Listed.of_told (h : p.Listed) (e : q.told = p.told) : q.Listed := by
  have same : p.told.Listed := h
  rw [← e] at same
  exact same

/-- It is the turn of the open clauses: no installed variable that goes first is without a value,
    and no required one. -/
def Late (p : OpenClauses) (a : Assignment) : Prop :=
  (p.preferInstalled = true → ∀ v ∈ p.installed, a.isUnassigned v = false) ∧
    ∀ v ∈ p.required, a.isUnassigned v = false

/-- Nothing is installed or required at first. -/
theorem late_new (prefer : Bool) (a : Assignment) : (new prefer).Late a := by
  simp [Late, new]

theorem Late.of_told (h : p.Late a) (e : q.told = p.told) : q.Late a := by
  have same : p.told.Late a := h
  rw [← e] at same
  exact same

theorem best?_eq_none_iff : p.best? vs = none ↔ vs = [] := by
  cases vs <;> simp [best?]

theorem early?_eq_none_iff : p.early? a = none ↔ p.Late a := by
  have installed : (if p.preferInstalled then p.installed.find? a.isUnassigned else none) = none ↔
      (p.preferInstalled = true → ∀ v ∈ p.installed, a.isUnassigned v = false) := by
    split <;> simp_all
  have required : p.bestOpen? a p.required = none ↔ ∀ v ∈ p.required, a.isUnassigned v = false := by
    simp [bestOpen?, best?_eq_none_iff, List.filter_eq_nil_iff]
  unfold early?
  dsimp only
  rw [Option.or_eq_none_iff, installed, required, Late]

/-- The variable has no value and occurs in a clause without a true literal. -/
def InOpenClause (a : Assignment) (store : ClauseStore) (v : Var) : Prop :=
  a.isUnassigned v = true ∧
    ∃ c ∈ store.toList, a.satisfies c.literals = false ∧ ∃ l ∈ c.literals, l.var = v

instance : Decidable (InOpenClause a store v) := inferInstanceAs (Decidable (_ ∧ _))

/-- All clauses are taken in, and the marks are right but for the fresh clauses. -/
structure InStep (p : OpenClauses) (store : ClauseStore) (seen : Var → VarState)
    (fresh : List ClauseRef) : Prop where
  /-- The clauses. -/
  full : p.index.size = store.size
  /-- The marks. -/
  marked : p.index.Marked store seen fresh

/-- The candidates that a refresh finds. -/
theorem InStep.mem_candidates (h : p.InStep store a.state fresh) :
    v ∈ p.index.candidates a ↔ InOpenClause a store v ∨
      a.isUnassigned v = true ∧ ∃ r ∈ fresh, store.Mentions r v := by
  rw [h.marked.exact.mem_candidates, InOpenClause, ← and_or_left]
  refine and_congr_right fun _ => ?_
  have isOpen : ∀ r c, store.get? r = some c →
      (p.index.isOpen r = true ↔ r ∈ fresh ∨ a.satisfies c.literals = false) := by
    intro r c hc
    rw [Assignment.satisfies_eq_false_iff]
    exact h.marked.isOpen r c (h.full ▸ ClauseStore.lt_size_of_get? hc) hc
  constructor
  · rintro ⟨r, ⟨c, hc, occurs⟩, counted⟩
    rcases (isOpen r c hc).1 counted with new | unsatisfied
    · exact .inr ⟨r, new, c, hc, occurs⟩
    · exact .inl ⟨c, ClauseStore.mem_toList.2 ⟨r, hc⟩, unsatisfied, occurs⟩
  · rintro (⟨c, mem, unsatisfied, occurs⟩ | ⟨r, new, c, hc, occurs⟩)
    · obtain ⟨r, hc⟩ := ClauseStore.mem_toList.1 mem
      exact ⟨r, ⟨c, hc, occurs⟩, (isOpen r c hc).2 (.inr unsatisfied)⟩
    · exact ⟨r, ⟨c, hc, occurs⟩, (isOpen r c hc).2 (.inl new)⟩

theorem indexNew_inStep (h : p.index.Marked store seen fresh) :
    Yields (p.indexNew store) fun q => q.told = p.told ∧ q.InStep store seen
      (fresh ++ List.range' p.index.size (store.size - p.index.size)) := by
  obtain ⟨prefer, installed, required, preferences, preferred, index, candidates⟩ := p
  exact h.addNew.bind fun index' ⟨full, marked⟩ => .pure ⟨rfl, full, marked⟩

theorem refresh_inStep (h : p.InStep store seen fresh) (since : a.Since seen) :
    Yields (p.refresh a store) fun q => q.told = p.told ∧
      q.InStep store a.state (fresh.filter (ClauseIndex.isUntouched seen a.state store)) ∧
        q.candidates = q.index.candidates a := by
  obtain ⟨prefer, installed, required, preferences, preferred, index, candidates⟩ := p
  exact (h.marked.noteChanges since).bind fun index' ⟨size, marked⟩ =>
    .pure ⟨rfl, ⟨size.trans h.full, marked⟩, rfl⟩

/-- What a choice leaves of a policy that has seen the states `seen`. -/
structure Chosen (p : OpenClauses) (a : Assignment) (store : ClauseStore) (consumed : Bool)
    (seen : Var → VarState) (fresh : List ClauseRef) (answer : Suggestion OpenClauses) : Prop where
  /-- What the policy was told. -/
  told : answer.policy.told = p.told
  /-- The index stays as it is or is brought up to date. -/
  index : answer.consumed = consumed ∧ answer.policy.index = p.index ∨
    answer.consumed = true ∧ answer.policy.InStep store a.state
      (fresh.filter (ClauseIndex.isUntouched seen a.state store))
  /-- The first candidate is named. -/
  named : p.Late a → Names p.preference a (· ∈ answer.policy.candidates) answer.var?
  /-- The candidates with a value are dropped, and others are found only if none is left. -/
  candidates : p.Late a →
    (∃ v ∈ p.candidates, a.isUnassigned v = true) ∧ answer.consumed = consumed ∧
        answer.policy.candidates = p.candidates.filter a.isUnassigned ∨
      (∀ v ∈ p.candidates, a.isUnassigned v = false) ∧ answer.consumed = true ∧
        answer.policy.candidates = answer.policy.index.candidates a

theorem choose_chosen (listed : p.Listed) (h : p.InStep store seen fresh) (consumed : Bool)
    (since : (if consumed then a.consume else a).Since seen) :
    Yields (p.choose a store consumed) (p.Chosen a store consumed seen fresh) := by
  unfold choose
  split
  · rename_i v early
    have soon : ¬ p.Late a := fun late => by
      rw [early?_eq_none_iff.2 late] at early
      cases early
    exact .pure ⟨rfl, .inl ⟨rfl, rfl⟩, fun late => absurd late soon, fun late => absurd late soon⟩
  · dsimp only
    split
    · rename_i v found
      obtain ⟨mem, unassigned⟩ := List.mem_filter.1 (mem_of_best? found)
      exact .pure ⟨rfl, .inl ⟨rfl, rfl⟩, fun _ => .inl (isBest_of_best? found),
        fun _ => .inl ⟨⟨v, mem, unassigned⟩, rfl, rfl⟩⟩
    · rename_i none
      have assigned : ∀ v ∈ p.candidates, a.isUnassigned v = false := fun v mem =>
        isUnassigned_of_bestOpen?_none none mem
      have state : (if consumed then a.consume else a).state = a.state := by split <;> rfl
      have step : InStep { p with candidates := _ } store seen fresh := ⟨h.full, h.marked⟩
      refine (refresh_inStep step since).bind fun q ⟨told, step', candidates⟩ => ?_
      rw [state] at step'
      have found : q.candidates = q.index.candidates a := by
        rw [candidates]
        split <;> rfl
      refine .pure ⟨told, .inr ⟨rfl, step'⟩, fun _ => ?_, fun _ => .inr ⟨assigned, rfl, found⟩⟩
      rw [← preference_of_told told]
      refine names_of_candidates (listed.of_told told) fun v mem => ?_
      exact ClauseIndex.isUnassigned_of_mem_candidates (found ▸ mem)

/-! ## Requests -/

/-- The policy with the given settings. -/
def configured (prefer : Bool) (installed : List Var) (prefs : List (Var × Nat)) : OpenClauses :=
  ((new prefer).withInstalled installed).withPreferences prefs

/-- A policy with what it is asked about and what it has seen of it. -/
structure Session where
  /-- The policy. -/
  policy : OpenClauses
  /-- The assignment. -/
  assignment : Assignment
  /-- The clauses. -/
  clauses : ClauseStore
  /-- The states when the changes were consumed last. -/
  seen : Var → VarState
  /-- The clauses that count as open since the policy has taken them in: when it looked at the
      changes, none of their variables had changed. -/
  fresh : List ClauseRef

namespace Session

variable {s : Session} {answer : Suggestion OpenClauses}

/-- The policy before the first variable and the first clause. -/
def start (p : OpenClauses) : Session := ⟨p, .empty, .empty, Assignment.empty.state, []⟩

/-- The clauses that are fresh after a look at the changes. -/
def freshNow (s : Session) : List ClauseRef :=
  (s.fresh ++ List.range' s.policy.index.size (s.clauses.size - s.policy.index.size)).filter
    (ClauseIndex.isUntouched s.seen s.assignment.state s.clauses)

/-- What an answer makes of the session. -/
def after (s : Session) (answer : Suggestion OpenClauses) : Session :=
  if answer.consumed then
    ⟨answer.policy, s.assignment.consume, s.clauses, s.assignment.state, s.freshNow⟩
  else { s with policy := answer.policy }

/-- What happens between requests, and a request. -/
def move (s : Session) : Policy.Move → Except Fault Session
  | .set v value => do return { s with assignment := ← s.assignment.set v value }
  | .remove v => do return { s with assignment := ← s.assignment.remove v }
  | .clause c => .ok { s with clauses := (s.clauses.add c).2 }
  | .require vs => .ok { s with policy := Policy.require s.policy vs }
  | .ask => do return s.after (← s.policy.next s.assignment s.clauses)

/-- What a move tells the policy. -/
def tell (p : OpenClauses) : Policy.Move → OpenClauses
  | .require vs => Policy.require p vs
  | _ => p

/-- The policy knows the changes and the clauses as the session has them. -/
structure Ready (s : Session) : Prop where
  /-- The changes. -/
  since : s.assignment.Since s.seen
  /-- The preferences. -/
  listed : s.policy.Listed
  /-- The clauses it has taken in. -/
  marked : s.policy.index.Marked s.clauses s.seen s.fresh

/-- What is named when its turn comes to the open clauses, and among which candidates. -/
structure Answered (s : Session) (preference : Var → Nat) (answer : Suggestion OpenClauses) :
    Prop where
  /-- The first candidate is named. -/
  named : Names preference s.assignment (· ∈ answer.policy.candidates) answer.var?
  /-- The changes are consumed if there are new clauses or no candidate is left. -/
  consumed : answer.consumed = true ↔ s.policy.index.size < s.clauses.size ∨
    ∀ v ∈ s.policy.candidates, s.assignment.isUnassigned v = false
  /-- Then the candidates are found in the open clauses and in the fresh ones. -/
  found : answer.consumed = true → ∀ v, v ∈ answer.policy.candidates ↔
    InOpenClause s.assignment s.clauses v ∨
      s.assignment.isUnassigned v = true ∧ ∃ r ∈ s.freshNow, s.clauses.Mentions r v
  /-- Otherwise they are those from before. -/
  kept : answer.consumed = false →
    answer.policy.candidates = s.policy.candidates.filter s.assignment.isUnassigned

/-- Without a candidate there is no open clause with a variable to decide on. -/
theorem Answered.not_inOpenClause (h : s.Answered preference answer)
    (none : answer.policy.candidates = []) (v : Var) :
    ¬ InOpenClause s.assignment s.clauses v := by
  intro inOpen
  cases read : answer.consumed with
  | true =>
    have mem := (h.found read v).2 (.inl inOpen)
    rw [none] at mem
    cases mem
  | false =>
    have left := h.kept read
    rw [none, eq_comm, List.filter_eq_nil_iff] at left
    have consumed := h.consumed.2 (.inr fun w mem => Bool.eq_false_iff.2 (left w mem))
    cases read.symm.trans consumed

/-- The right variable is named when the changes are consumed and every fresh clause is open. -/
theorem Answered.names_inOpenClause (h : s.Answered preference answer)
    (consumed : answer.consumed = true)
    (isOpen : ∀ r ∈ s.freshNow, ∀ c, s.clauses.get? r = some c →
      s.assignment.satisfies c.literals = false) :
    Names preference s.assignment (InOpenClause s.assignment s.clauses) answer.var? := by
  refine h.named.congr fun v => (h.found consumed v).trans (or_iff_left_of_imp ?_)
  rintro ⟨unassigned, r, mem, c, hc, occurs⟩
  exact ⟨unassigned, c, ClauseStore.mem_toList.2 ⟨r, hc⟩, isOpen r mem c hc, occurs⟩

theorem Ready.after (h : s.Ready) (told : answer.policy.told = s.policy.told)
    (unread : answer.consumed = false → answer.policy.index = s.policy.index)
    (read : answer.consumed = true →
      answer.policy.InStep s.clauses s.assignment.state s.freshNow) :
    (s.after answer).Ready := by
  have listed := h.listed.of_told told
  unfold Session.after
  split
  · rename_i consumed
    exact ⟨Assignment.since_consume h.since.counted, listed, (read consumed).marked⟩
  · rename_i unconsumed
    refine ⟨h.since, listed, ?_⟩
    dsimp only
    rw [unread (Bool.eq_false_iff.2 unconsumed)]
    exact h.marked

/-- What a request leaves. -/
structure Served (s : Session) (answer : Suggestion OpenClauses) : Prop where
  /-- What the policy was told. -/
  told : answer.policy.told = s.policy.told
  /-- What it knows. -/
  ready : (s.after answer).Ready
  /-- What it names. -/
  answered : s.policy.Late s.assignment → s.Answered s.policy.preference answer

/-- A request when there are new clauses. -/
theorem Ready.next_new (h : s.Ready) (new : s.policy.index.size < s.clauses.size) :
    Yields (s.policy.next s.assignment s.clauses) s.Served := by
  unfold next
  rw [if_pos new]
  refine (indexNew_inStep h.marked).bind fun q ⟨told, step⟩ => ?_
  refine (refresh_inStep step h.since).bind fun q' ⟨told', step', candidates⟩ => ?_
  have told' := told'.trans told
  refine (choose_chosen (h.listed.of_told told') step' true
    (Assignment.since_consume h.since.counted)).mono fun answer chosen => ?_
  have index := chosen.index
  -- another look at the same changes would leave the marks
  rw [List.filter_eq_self.2 fun r _ => ClauseIndex.isUntouched_self _ _ r] at index
  have consumed : answer.consumed = true := index.elim And.left And.left
  have read : answer.consumed ≠ false := by simp [consumed]
  have inStep : answer.policy.InStep s.clauses s.assignment.state s.freshNow := by
    rcases index with ⟨-, same⟩ | ⟨-, inStep⟩
    · exact ⟨same ▸ step'.full, same ▸ step'.marked⟩
    · exact inStep
  have told := chosen.told.trans told'
  refine ⟨told, h.after told (fun unread => absurd unread read) fun _ => inStep, fun late => ?_⟩
  have late := late.of_told told'
  have named := chosen.named late
  rw [preference_of_told told'] at named
  refine ⟨named, iff_of_true consumed (.inl new), fun _ v => ?_, fun unread => absurd unread read⟩
  rcases chosen.candidates late with ⟨-, -, kept⟩ | ⟨-, -, found⟩
  · rw [kept, candidates, List.filter_eq_self.2 fun w => ClauseIndex.isUnassigned_of_mem_candidates]
    exact step'.mem_candidates
  · rw [found, inStep.mem_candidates]

/-- A request when there are none. -/
theorem Ready.next_old (h : s.Ready) (old : ¬ s.policy.index.size < s.clauses.size) :
    Yields (s.policy.next s.assignment s.clauses) s.Served := by
  have full : s.policy.index.size = s.clauses.size :=
    Nat.le_antisymm h.marked.exact.size (Nat.le_of_not_lt old)
  have freshNow : s.fresh.filter (ClauseIndex.isUntouched s.seen s.assignment.state s.clauses) =
      s.freshNow := by
    simp [Session.freshNow, full]
  unfold next
  rw [if_neg old]
  refine (choose_chosen h.listed ⟨full, h.marked⟩ false h.since).mono fun answer chosen => ?_
  have index := chosen.index
  rw [freshNow] at index
  have inStep : answer.consumed = true →
      answer.policy.InStep s.clauses s.assignment.state s.freshNow := fun read =>
    (index.resolve_left fun unread => by simp [unread.1] at read).2
  refine ⟨chosen.told, h.after chosen.told (fun unread => ?_) inStep, fun late => ?_⟩
  · exact (index.resolve_right fun read => by simp [read.1] at unread).2
  · have candidates := chosen.candidates late
    refine ⟨chosen.named late, ?_, fun read v => ?_, fun unread => ?_⟩
    · rw [or_iff_right old]
      rcases candidates with ⟨⟨v, mem, unassigned⟩, unread, -⟩ | ⟨assigned, read, -⟩
      · refine iff_of_false (by simp [unread]) fun assigned => ?_
        cases unassigned.symm.trans (assigned v mem)
      · exact iff_of_true read assigned
    · have found := (candidates.resolve_left fun kept => by simp [kept.2.1] at read).2.2
      rw [found, (inStep read).mem_candidates]
    · exact (candidates.resolve_right fun found => by simp [found.2.1] at unread).2.2

theorem Ready.next_served (h : s.Ready) :
    Yields (s.policy.next s.assignment s.clauses) s.Served := by
  by_cases new : s.policy.index.size < s.clauses.size
  · exact h.next_new new
  · exact h.next_old new

/-- A move leaves the policy ready; only an assignment that would give a variable its other value
    is refused. -/
theorem Ready.move_ends (h : s.Ready) (m : Policy.Move) :
    Ends (s.move m) (fun s' => s'.Ready ∧ s'.policy.told = (tell s.policy m).told)
      fun fault => ∃ v b, fault = .reassigned v (.assigned b) (.assigned !b) := by
  cases m with
  | set v value =>
    refine ((h.since.set v value).mono (fun _ => id) ?_).bind fun a' ⟨since, _⟩ => ?_
    · rintro _ ⟨b, -, -, rfl⟩
      exact ⟨v, b, rfl⟩
    · exact ⟨⟨since, h.listed, h.marked⟩, rfl⟩
  | remove v =>
    refine (h.since.remove v).ends.bind fun a' ⟨since, _⟩ => ?_
    exact ⟨⟨since, h.listed, h.marked⟩, rfl⟩
  | clause c => exact ⟨⟨h.since, h.listed, h.marked.grow c⟩, rfl⟩
  | require vs => exact ⟨⟨h.since, h.listed, h.marked⟩, rfl⟩
  | ask =>
    refine h.next_served.ends.bind fun answer served => ⟨served.ready, ?_⟩
    unfold Session.after
    split <;> exact served.told

theorem told_tell {p q : OpenClauses} (e : q.told = p.told) (m : Policy.Move) :
    (tell q m).told = (tell p m).told := by
  cases m with
  | require vs => exact congrArg (Policy.require · vs) e
  | _ => exact e

/-- Moves leave the policy ready, and told what they tell. -/
theorem Ready.moves_end (h : s.Ready) {p : OpenClauses} (told : s.policy.told = p.told)
    (moves : List Policy.Move) :
    Ends (moves.foldlM move s)
      (fun s' => s'.Ready ∧ s'.policy.told = (moves.foldl tell p).told)
      fun fault => ∃ v b, fault = .reassigned v (.assigned b) (.assigned !b) := by
  induction moves generalizing s p with
  | nil => exact ⟨h, told⟩
  | cons m moves ih =>
    rw [List.foldlM_cons, List.foldl_cons]
    refine (h.move_ends m).bind fun s₁ ⟨h₁, told₁⟩ => ?_
    exact ih h₁ (told₁.trans (told_tell told m))

theorem preference_tells (p : OpenClauses) (moves : List Policy.Move) :
    (moves.foldl tell p).preference = p.preference := by
  induction moves generalizing p with
  | nil => rfl
  | cons m moves ih =>
    rw [List.foldl_cons, ih]
    cases m <;> rfl

/-- After any moves a request is answered without a fault. When its turn comes to the open clauses,
    the first candidate is named, and one of all variables only if no open clause has one to
    decide on; and if the changes were consumed and every fresh clause is open, then it is the
    first variable of the open clauses. -/
theorem answer_of_moves (prefer : Bool) (installed : List Var) (prefs : List (Var × Nat))
    (moves : List Policy.Move) :
    Ends (moves.foldlM move (.start (configured prefer installed prefs)))
      (fun s => Yields (s.policy.next s.assignment s.clauses) fun answer =>
        (moves.foldl tell (configured prefer installed prefs)).Late s.assignment →
          s.Answered (configured prefer installed prefs).preference answer ∧
          (answer.policy.candidates = [] → ∀ v, ¬ InOpenClause s.assignment s.clauses v) ∧
          (answer.consumed = true →
            (∀ r ∈ s.freshNow, ∀ c, s.clauses.get? r = some c →
              s.assignment.satisfies c.literals = false) →
            Names (configured prefer installed prefs).preference s.assignment
              (InOpenClause s.assignment s.clauses) answer.var?))
      fun fault => ∃ v b, fault = .reassigned v (.assigned b) (.assigned !b) := by
  have ready : Ready (.start (configured prefer installed prefs)) :=
    ⟨Assignment.since_empty, listed_withPreferences _ prefs, .start _ _⟩
  refine (ready.moves_end rfl moves).mono (fun s ⟨h, told⟩ => ?_) fun _ => id
  refine h.next_served.mono fun answer served late => ?_
  have answered := served.answered (late.of_told told)
  rw [preference_of_told told, preference_tells] at answered
  exact ⟨answered, answered.not_inOpenClause, answered.names_inOpenClause⟩

/-- After 1 was decided on its clause is no longer open, so 2 is not named although it is preferred
    to all others. -/
theorem answer_of_moves_new_clause : ∃ s,
    List.foldlM move (.start (configured true [1] [(2, 7), (4, 5)]))
        [.set 1 none, .set 2 none, .set 3 none, .set 4 none, .set 5 none,
          .clause (.ofList [⟨1, true⟩, ⟨2, true⟩] false none),
          .clause (.ofList [⟨3, true⟩, ⟨4, true⟩] false none), .ask, .set 1 (some true),
          .clause (.ofList [⟨3, false⟩, ⟨5, true⟩] false none)] = .ok s ∧
      Yields (s.policy.next s.assignment s.clauses) fun answer => answer.var? = some 4 ∧
        Names (configured true [1] [(2, 7), (4, 5)]).preference s.assignment
          (InOpenClause s.assignment s.clauses) answer.var? := by
  let moves : List Policy.Move := [.set 1 none, .set 2 none, .set 3 none, .set 4 none, .set 5 none,
    .clause (.ofList [⟨1, true⟩, ⟨2, true⟩] false none),
    .clause (.ofList [⟨3, true⟩, ⟨4, true⟩] false none), .ask, .set 1 (some true),
    .clause (.ofList [⟨3, false⟩, ⟨5, true⟩] false none)]
  have answered : (moves.foldlM move (.start (configured true [1] [(2, 7), (4, 5)])) >>= fun s =>
      (s.policy.next s.assignment s.clauses).map fun answer =>
        (answer.var?, answer.consumed, s.assignment.isUnassigned 1, s.freshNow.all fun r =>
          (s.clauses.get? r).all fun c => !s.assignment.satisfies c.literals)) =
        .ok (some 4, true, false, true) := by
    cbv
  obtain ⟨s, e, answered⟩ := Yields.exists_of_bind answered
  obtain ⟨answer, asked, answered⟩ := Yields.of_map answered
  rw [Prod.mk.injEq, Prod.mk.injEq, Prod.mk.injEq] at answered
  obtain ⟨var, consumed, assigned, isOpen⟩ := answered
  have served := ((answer_of_moves true [1] [(2, 7), (4, 5)] moves).of_ok e).of_ok asked
  obtain ⟨-, -, named⟩ := served ⟨fun _ v mem => List.mem_singleton.1 mem ▸ assigned,
    fun v mem => by cases mem⟩
  refine ⟨s, e, .of_eq asked ⟨var, named consumed fun r mem c hc => ?_⟩⟩
  have unsatisfied := List.all_eq_true.1 isOpen r mem
  rw [hc] at unsatisfied
  simpa using unsatisfied

/-- Another variable may be named: 2 is a candidate since the first request and stays one when 1
    has become true, although its only clause is not open then and the one over 3 and 4 is. -/
theorem answer_not_open : ∃ moves s answer,
    List.foldlM move (.start (new true)) moves = .ok s ∧
      s.policy.next s.assignment s.clauses = .ok answer ∧ (new true).Late s.assignment ∧
      answer.var? = some 2 ∧ InOpenClause s.assignment s.clauses 3 ∧
      ¬ Names (new true).preference s.assignment (InOpenClause s.assignment s.clauses)
        answer.var? := by
  have answered : (List.foldlM move (.start (new true)) [.set 1 none, .set 2 none, .set 3 none,
      .set 4 none, .clause (.ofList [⟨1, true⟩, ⟨2, true⟩] false none),
      .clause (.ofList [⟨3, true⟩, ⟨4, true⟩] false none), .ask, .set 1 (some true)] >>= fun s =>
      (s.policy.next s.assignment s.clauses).map fun answer =>
        (answer.var?, decide (InOpenClause s.assignment s.clauses 2),
          decide (InOpenClause s.assignment s.clauses 3))) = .ok (some 2, false, true) := by
    cbv
  obtain ⟨s, e, answered⟩ := Yields.exists_of_bind answered
  obtain ⟨answer, asked, answered⟩ := Yields.of_map answered
  rw [Prod.mk.injEq, Prod.mk.injEq, decide_eq_false_iff_not, decide_eq_true_eq] at answered
  obtain ⟨var, two, three⟩ := answered
  refine ⟨_, s, answer, e, asked, late_new true _, var, three, ?_⟩
  rw [var]
  rintro (best | ⟨none, -⟩)
  · exact two best.mem
  · exact none 3 three

/-- A fresh clause counts as open even when it comes with a true literal and the changes are
    consumed: 3 is named, of a clause that 1 makes true, and not the lowest variable. -/
theorem answer_not_open_fresh : ∃ moves s answer,
    List.foldlM move (.start (new true)) moves = .ok s ∧
      s.policy.next s.assignment s.clauses = .ok answer ∧ (new true).Late s.assignment ∧
      answer.consumed = true ∧ answer.var? = some 3 ∧ s.assignment.isUnassigned 2 = true ∧
      ∀ v, ¬ InOpenClause s.assignment s.clauses v := by
  have answered : (List.foldlM move (.start (new true)) [.set 1 none, .set 2 none, .set 3 none,
      .set 1 (some true), .ask, .clause (.ofList [⟨1, true⟩, ⟨3, true⟩] false none)] >>= fun s =>
      (s.policy.next s.assignment s.clauses).map fun answer =>
        (answer.consumed, answer.var?, s.assignment.isUnassigned 2,
          s.clauses.toList.all fun c => s.assignment.satisfies c.literals)) =
        .ok (true, some 3, true, true) := by
    cbv
  obtain ⟨s, e, answered⟩ := Yields.exists_of_bind answered
  obtain ⟨answer, asked, answered⟩ := Yields.of_map answered
  rw [Prod.mk.injEq, Prod.mk.injEq, Prod.mk.injEq] at answered
  obtain ⟨consumed, var, two, satisfied⟩ := answered
  refine ⟨_, s, answer, e, asked, late_new true _, consumed, var, two, ?_⟩
  rintro v ⟨-, c, mem, unsatisfied, -⟩
  cases unsatisfied.symm.trans (List.all_eq_true.1 satisfied c mem)

end Session

end OpenClauses

end ClauseLearning
