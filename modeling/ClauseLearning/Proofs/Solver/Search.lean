/-
  The solver in a search.

  Model. In a search the solver is sound and watchful (`Searching`), and it has come from the one
  the search began with: no clause is gone, every given one was there, and the variables are the
  same (`Follows`).

  Rule. Propagation leaves the solver searching or with a conflict (`propagate_yields`), learning
  from a conflict makes progress (`resolveConflict_yields`), and so does a decision
  (`decideOn_yields`). Leaving a search leads back to an idle solver (`leave_yields`).
-/
import ClauseLearning.Solver.Search
import ClauseLearning.Proofs.Trail.Progress
import ClauseLearning.Proofs.Propagation.Queue
import ClauseLearning.Proofs.Solver.Refute

namespace ClauseLearning

/-- The 64-bit words of the average have no room for another term of size `n`. -/
def Average.Full (a : Average) (n : Nat) : Prop :=
  Average.bound ≤ a.sum + n ∨ Average.bound ≤ a.count + 1

theorem Average.Full.mono {a : Average} {m n : Nat} (h : a.Full m) (le : m ≤ n) : a.Full n :=
  h.imp_left fun sum => Nat.le_trans sum (Nat.add_le_add_left le _)

/-- The averages have no room for a clause of `n` literals or for `n` levels gone back. -/
def Statistics.Full (st : Statistics) (n : Nat) : Prop :=
  st.learnedLength.Full n ∨ st.backtrack.Full n

theorem Statistics.Full.mono {st : Statistics} {m n : Nat} (h : st.Full m) (le : m ≤ n) :
    st.Full n :=
  h.imp (fun full => full.mono le) fun full => full.mono le

namespace Solver

variable {s s' s'' : Solver} {c : ClauseRef}

/-- What holds of a solver while it searches, between two rounds. -/
structure Searching (s : Solver) : Prop extends Sound s where
  /-- The watch lists are right. -/
  watchful : s.propagation.Watchful none s.propagation.next
  /-- The status says that it searches. -/
  status : s.status = .searching

/-- The second solver has come from the first one in a search. -/
structure Follows (s s' : Solver) : Prop where
  /-- No clause is gone. -/
  clauses : s'.clauses.Includes s.clauses
  /-- The given clauses were there. -/
  given : ∀ r c', s'.clauses.get? r = some c' → c'.learned = false →
    ∃ c, s.clauses.get? r = some c ∧ c'.Rearranges c
  /-- The variables are the same. -/
  knows : ∀ v, s'.trail.Knows v ↔ s.trail.Knows v

namespace Follows

theorem refl (s : Solver) : s.Follows s :=
  ⟨.refl _, fun _ c h _ => ⟨c, h, .refl c⟩, fun _ => Iff.rfl⟩

theorem trans (h : s.Follows s') (h' : s'.Follows s'') : s.Follows s'' where
  clauses := h'.clauses.trans h.clauses
  given r c'' hc'' given := by
    obtain ⟨c', hc', e'⟩ := h'.given r c'' hc'' given
    obtain ⟨c, hc, e⟩ := h.given r c' hc' (e'.learned.symm.trans given)
    exact ⟨c, hc, e'.trans e⟩
  knows v := (h'.knows v).trans (h.knows v)

theorem of_rearranges (clauses : s'.clauses.Rearranges s.clauses)
    (knows : ∀ v, s'.trail.Knows v ↔ s.trail.Knows v) : s.Follows s' :=
  ⟨clauses.clauses, fun _ _ hc' _ => clauses.origin hc', knows⟩

end Follows

/-- A solver stays sound when its clauses are rearranged. -/
theorem Sound.rearranged (h : s.Sound) (grounded : s'.propagation.Grounded)
    (clauses : s'.clauses.Rearranges s.clauses) (knows : ∀ v, s'.trail.Knows v ↔ s.trail.Knows v)
    (learned : s'.learned = s.learned) : s'.Sound where
  grounded := grounded
  derived := h.derived.rearranges clauses
  learned r hr := by
    obtain ⟨c, hc, hl⟩ := h.learned r (learned ▸ hr)
    obtain ⟨c', hc', e⟩ := clauses.clauses r c hc
    exact ⟨c', hc', e.learned.trans hl⟩
  bounded v hv := h.bounded v ((knows v).1 hv)

/-! ## Propagating -/

/-- What propagation leaves behind in a search. -/
structure Propagated (s s' : Solver) : Prop where
  /-- The solver is sound. -/
  sound : s'.Sound
  /-- It has come from the first one. -/
  follows : s.Follows s'
  /-- The trail has grown on its level. -/
  trail : s.trail.Extends s'.trail
  /-- All of the trail was propagated or need not be. -/
  done : s'.propagation.next = s'.trail.length
  /-- The watch lists are right, or a clause is in conflict on the current level. -/
  outcome : s'.Searching ∨ ∃ c, s'.status = .conflicting c ∧ s'.propagation.Conflicts c ∧
    ∃ n, (∀ m ∈ s'.trail.limits, m ≤ n) ∧ s'.propagation.Watchful none n

theorem propagate_yields (h : s.Searching) : Yields s.propagate s.Propagated := by
  have sound := fun s' => @Sound.rearranged s s' h.toSound
  have searching := h.status
  obtain ⟨status, p, learned, statistics, skip⟩ := s
  obtain rfl : status = .searching := searching
  refine (Propagation.propagate_yields h.watchful).bind ?_
  rintro ⟨conflict, p'⟩ ⟨on, done, outcome⟩
  have sound' := fun status statistics =>
    sound ⟨status, p', learned, statistics, skip⟩
  dsimp only
  rw [difference_eq (show Trail.length (trail ⟨.searching, p, learned, statistics, skip⟩) ≤ _ from
    on.trail.length_le)]
  refine .ok_bind ?_
  cases conflict with
  | none =>
    have sound := sound' .searching
      { statistics with propagations := statistics.propagations +
          (p'.trail.length - p.trail.length) } outcome.toGrounded on.clauses on.trail.knows rfl
    exact .pure ⟨sound, .of_rearranges on.clauses on.trail.knows, on.trail, done,
      .inl ⟨sound, outcome, rfl⟩⟩
  | some c =>
    obtain ⟨conflict, n, current, watchful⟩ := outcome
    exact .pure ⟨sound' _ _ watchful.toGrounded on.clauses on.trail.knows rfl,
      .of_rearranges on.clauses on.trail.knows, on.trail, done,
      .inr ⟨c, rfl, conflict, n, current, watchful⟩⟩

/-- At a conflict the clause is in conflict on the current level, and the watch lists are right. -/
theorem Propagated.conflicts (after : s.Propagated s') (conflict : s'.status = .conflicting c) :
    s'.propagation.Conflicts c ∧
      ∃ n, (∀ m ∈ s'.trail.limits, m ≤ n) ∧ s'.propagation.Watchful none n := by
  rcases after.outcome with searching | ⟨c', status, conflicts⟩
  · cases searching.status.symm.trans conflict
  · cases status.symm.trans conflict
    exact conflicts

/-- What is learned from the conflict asserts a literal. -/
theorem Propagated.asserts (after : s.Propagated s') (conflict : s'.status = .conflicting c)
    {d : Learned} (analysis : s'.propagation.firstUip c = .ok d) : s'.propagation.Asserts d :=
  (Propagation.firstUip_yields after.sound.grounded (after.conflicts conflict).1).of_ok analysis

theorem level_pos (above : s.trail.atRoot = false) : 0 < s.level :=
  Nat.pos_of_ne_zero (beq_eq_false_iff_ne.1 above)

/-! ## Leaving -/

theorem cancelUntil_yields {n k : Nat} (h : s.Sound) (watchful : s.propagation.Watchful none n)
    (hk : k ≤ s.level) (reach : min s.propagation.next (s.trail.startOf k) ≤ n) :
    Yields (s.cancelUntil k) fun s' => ∃ p', s' = { s with propagation := p' } ∧ s'.Sound ∧
      p'.Watchful none p'.next ∧ s.trail.Backtracks p'.trail k ∧ p'.clauses = s.clauses ∧
      p'.next = min s.propagation.next (s.trail.startOf k) := by
  have sound := fun s' => @Sound.rearranged s s' h
  obtain ⟨status, p, learned, statistics, skip⟩ := s
  refine (watchful.cancelUntil hk reach).bind fun p' ⟨watchful', back, clauses, _, next⟩ => ?_
  have rearranges : p'.clauses.Rearranges p.clauses := clauses ▸ .refl _
  exact .pure ⟨p', rfl, sound _ watchful'.toGrounded rearranges back.knows rfl, watchful', back,
    clauses, next⟩

/-- The solver goes back to the root, with a status that leaves the problem open. -/
theorem leave_yields (h : s.Sound) (watchful : s.propagation.Watchful none s.propagation.next)
    (status : Status) (open' : status.infeasible? = none) :
    Yields (s.leave status) fun s' => s'.Idle ∧ s.Follows s' ∧ s'.clauses = s.clauses ∧
      s'.status = status := by
  have sound : Sound { s with status := status } := ⟨h.grounded, h.derived, h.learned, h.bounded⟩
  refine (cancelUntil_yields sound watchful (Nat.zero_le _) (Nat.min_le_left ..)).mono ?_
  rintro _ ⟨p', rfl, sound', watchful', back, clauses, -⟩
  have rearranges : p'.clauses.Rearranges s.clauses := clauses ▸ .refl _
  refine ⟨⟨sound', back.level (Nat.zero_le _), fun _ => watchful', fun c hc => ?_⟩,
    .of_rearranges rearranges back.knows, clauses, rfl⟩
  rw [show status.infeasible? = some c from hc] at open'
  cases open'

/-! ## Conflicts -/

/-- A term that does not fit is the only fault of an average. -/
theorem add_cases (a : Average) (n : Nat) :
    (∃ a', a.add n = .ok a') ∨ a.add n = .error .overflow ∧ a.Full n := by
  unfold Average.add Average.Full
  split
  · exact .inl ⟨_, rfl⟩
  · exact .inr ⟨rfl, by omega⟩

/-- Full words are the only fault of counting. -/
theorem countLearned_cases (st : Statistics) (level : Nat) {d : Learned}
    (below : d.backjump ≤ level) :
    (∃ st', countLearned st level d = .ok st') ∨ countLearned st level d = .error .overflow ∧
      (st.learnedLength.Full d.literals.length ∨ st.backtrack.Full (level - d.backjump)) := by
  have gone := difference_eq below
  unfold countLearned
  rcases add_cases st.learnedLength d.literals.length with ⟨a, ha⟩ | ⟨ha, full⟩
  · rcases add_cases st.backtrack (level - d.backjump) with ⟨b, hb⟩ | ⟨hb, full⟩
    · simp only [bind, Except.bind, ha, gone, hb]
      exact .inl ⟨_, rfl⟩
    · simp only [bind, Except.bind, ha, gone, hb]
      exact .inr ⟨trivial, .inr full⟩
  · rw [ha]
    exact .inr ⟨rfl, .inl full⟩

/-- What learning from a conflict leaves behind: progress. -/
structure Resolved (s s' : Solver) : Prop where
  /-- The solver is sound. -/
  sound : s'.Sound
  /-- The watch lists are right. -/
  watchful : s'.propagation.Watchful none s'.propagation.next
  /-- It has come from the first one. -/
  follows : s.Follows s'
  /-- The status is the same. -/
  status : s'.status = s.status
  /-- A literal has taken the place of some of higher levels. -/
  trail : s.trail.Progresses s'.trail
  /-- The trail has gone back to a level and grown there. -/
  back : ∃ k t, t.Decided ∧ s.trail.Backtracks t k ∧ t.Extends s'.trail

/-- Recording a learned clause that follows from its antecedents. -/
theorem record_sound (h : s.Sound) {d : Learned} (learnable : s.propagation.Learnable d)
    (kept : ∀ a ∈ d.antecedents, a < s.clauses.size)
    (entails : s.clauses.Entails d.antecedents d.literals) :
    Yields (s.record d) fun s' => s'.Sound ∧ s.Follows s' ∧ s'.status = s.status ∧
      Recorded s.propagation d s'.propagation := by
  refine (record_yields learnable).mono ?_
  rintro _ ⟨p', recorded, rfl⟩
  have clauses : p'.clauses = (s.clauses.add (learnedClause s.trail d)).2 := recorded.clauses
  have entails' : s.clauses.Entails d.antecedents (learnedClause s.trail d).literals := by
    intro m hm
    refine (entails m hm).subset fun l hl => ?_
    rw [literals_learnedClause _ learnable.nodup]
    exact (watchOrder_perm s.trail d).mem_iff.2 hl
  have includes : p'.clauses.Includes s.clauses := clauses ▸ ClauseStore.Includes.add _ _
  refine ⟨⟨recorded.watchful.toGrounded, ?_, fun r hr => ?_, fun v hv => ?_⟩,
    ⟨includes, fun r c hc given => ?_, recorded.trail.knows⟩, rfl, recorded⟩
  · change p'.clauses.Derived
    rw [clauses]
    exact h.derived.add fun _ => ⟨kept, entails'⟩
  · change ∃ c, p'.clauses.get? r = some c ∧ c.learned = true
    rw [clauses]
    rcases Array.mem_push.1 hr with hr | rfl
    · obtain ⟨c, hc, hl⟩ := h.learned r hr
      exact ⟨c, ClauseStore.get?_add_of_get? hc _, hl⟩
    · exact ⟨_, ClauseStore.get?_add_self .., rfl⟩
  · exact h.bounded v ((recorded.trail.knows v).1 hv)
  · change p'.clauses.get? r = some c at hc
    rw [clauses] at hc
    rcases ClauseStore.get?_of_add hc with ⟨-, rfl⟩ | old
    · cases given
    · exact ⟨c, old, .refl c⟩

/-- How learning goes on from a conflict: back to the state `p` on the backjump level, where the
    learned clause is recorded. -/
structure Returns (s : Solver) (d : Learned) (p : Propagation) (s' : Solver) : Prop where
  /-- The trail goes back to the backjump level. -/
  back : s.trail.Backtracks p.trail d.backjump
  /-- The clauses stay. -/
  clauses : p.clauses = s.clauses
  /-- Nothing is left to propagate there. -/
  next : p.next = p.trail.length
  /-- The learned clause can be kept. -/
  learnable : p.Learnable d
  /-- It is recorded. -/
  recorded : Recorded p d s'.propagation
  /-- The solver is sound. -/
  sound : s'.Sound
  /-- It has come from the first one. -/
  follows : s.Follows s'
  /-- The status is the same. -/
  status : s'.status = s.status

/-- Above the root a clause is learned from a conflict and recorded, where the counters have
    room. -/
theorem resolveConflict_returns {n : Nat} {d : Learned} {st : Statistics} (h : s.Sound)
    (above : 0 < s.level) (done : s.propagation.next = s.trail.length)
    (current : ∀ m ∈ s.trail.limits, m ≤ n) (watchful : s.propagation.Watchful none n)
    (analysis : s.propagation.firstUip c = .ok d) (asserts : s.propagation.Asserts d)
    (counts : countLearned s.statistics s.level d = .ok st) :
    Yields (s.resolveConflict c) fun s' => ∃ p, s.Returns d p s' := by
  have low : d.backjump < s.level := asserts.backjump_lt above
  have start : s.trail.startOf d.backjump ≤ n := current _ (Trail.Decided.startOf_mem low)
  have short : s.trail.startOf d.backjump ≤ s.trail.length := watchful.trail.startOf_le _
  unfold resolveConflict
  rw [analysis]
  refine .ok_bind ?_
  rw [counts]
  refine .ok_bind ?_
  refine (cancelUntil_yields h watchful (Nat.le_of_lt low) ?_).bind ?_
  · rw [done, Nat.min_eq_right short]
    exact start
  rintro _ ⟨p', rfl, sound, watchful', back, clauses, next⟩
  have size := back.length watchful.trail.toValid
  rw [done, Nat.min_eq_right short, ← size] at next
  have learnable : p'.Learnable d := asserts.learnable h.grounded above back watchful'
  have sound' : Sound { s with propagation := p', statistics := st } :=
    ⟨sound.grounded, sound.derived, sound.learned, sound.bounded⟩
  refine (record_sound sound' learnable ?_ ?_).mono fun s' ⟨sound'', follows, status, recorded⟩ =>
    ⟨p', back, clauses, next, learnable, recorded, sound'', ?_, status⟩
  · change ∀ a ∈ d.antecedents, a < p'.clauses.size
    rw [clauses]
    exact asserts.kept
  · change p'.clauses.Entails d.antecedents d.literals
    rw [clauses]
    exact asserts.entails
  · have rearranges : p'.clauses.Rearranges s.clauses := clauses ▸ .refl _
    have back' : s.Follows { s with propagation := p', statistics := st } :=
      .of_rearranges rearranges back.knows
    exact back'.trans follows

/-- Learning makes progress. -/
theorem Returns.resolved {d : Learned} {p : Propagation} (h : s.Returns d p s')
    (valid : s.trail.Valid) (low : d.backjump < s.level) : s.Resolved s' where
  sound := h.sound
  watchful := h.recorded.watchful
  follows := h.follows
  status := h.status
  trail := by
    refine h.back.progresses valid h.recorded.trail h.recorded.literals ?_
    exact h.recorded.level.trans (h.back.level (Nat.le_of_lt low))
  back := ⟨d.backjump, p.trail, h.learnable.watchful.trail, h.back, h.recorded.trail⟩

/-- Above the root a clause is learned from a conflict and asserts its literal, where the counters
    have room. -/
theorem resolveConflict_yields {n : Nat} {d : Learned} {st : Statistics} (h : s.Sound)
    (above : 0 < s.level) (done : s.propagation.next = s.trail.length)
    (current : ∀ m ∈ s.trail.limits, m ≤ n) (watchful : s.propagation.Watchful none n)
    (analysis : s.propagation.firstUip c = .ok d) (asserts : s.propagation.Asserts d)
    (counts : countLearned s.statistics s.level d = .ok st) :
    Yields (s.resolveConflict c) s.Resolved :=
  (resolveConflict_returns h above done current watchful analysis asserts counts).mono
    fun _ ⟨_, returns⟩ => returns.resolved watchful.trail.toValid (asserts.backjump_lt above)

theorem resolveConflict_overflow {d : Learned} (analysis : s.propagation.firstUip c = .ok d)
    (counts : countLearned s.statistics s.level d = .error .overflow) :
    s.resolveConflict c = .error .overflow := by
  unfold resolveConflict
  rw [analysis]
  simp only [bind, Except.bind, counts]

/-! ## Decisions -/

/-- Consuming the changes of the assignment changes nothing else. -/
theorem noteConsumed_searching (h : s.Searching) (consumed : Bool) :
    (s.noteConsumed consumed).Searching ∧ s.Follows (s.noteConsumed consumed) := by
  obtain ⟨status, p, learned, statistics, skip⟩ := s
  cases consumed with
  | false => exact ⟨h, .refl _⟩
  | true =>
    have widens : p.Widens { p with trail := p.trail.consume } :=
      ⟨rfl, rfl, rfl, rfl, fun _ h => h, rfl, rfl⟩
    have knows : ∀ v, p.trail.consume.Knows v ↔ p.trail.Knows v := fun _ => Iff.rfl
    have grounded := widens.grounded h.grounded h.grounded.trail.consume fun v hv =>
      h.grounded.room v ((knows v).1 hv)
    have rearranges : p.clauses.Rearranges p.clauses := .refl _
    exact ⟨⟨⟨grounded, h.derived, h.learned, fun v hv => h.bounded v ((knows v).1 hv)⟩,
      widens.watchful h.watchful grounded, h.status⟩, .of_rearranges rearranges knows⟩

theorem noteConsumed_same (s : Solver) (consumed : Bool) :
    (s.noteConsumed consumed).trail.levels = s.trail.levels ∧
      (s.noteConsumed consumed).propagation.next = s.propagation.next ∧
      (s.noteConsumed consumed).trail.length = s.trail.length ∧
      (s.noteConsumed consumed).assignment.isUnassigned = s.assignment.isUnassigned := by
  cases consumed <;> exact ⟨rfl, rfl, rfl, rfl⟩

/-- A level is opened with a literal without a value. -/
theorem assume_yields (h : s.Searching) (done : s.propagation.next = s.trail.length) {l : Lit}
    (known : s.trail.Knows l.var) (notTrue : l ∉ s.trail.literals)
    (notFalse : -l ∉ s.trail.literals) :
    Yields (s.assume l) fun s' => s'.Searching ∧ s.Follows s' ∧ s.trail.Progresses s'.trail ∧
      s.trail.Opens s'.trail l := by
  have isOpen := h.grounded.trail.isOpen_iff.2 ⟨notTrue, notFalse⟩
  obtain ⟨status, p, learned, statistics, skip⟩ := s
  unfold assume
  dsimp only
  rw [if_neg (by simp [isOpen])]
  refine (h.grounded.trail.assume known notTrue notFalse).bind ?_
  rintro ⟨agrees, trail⟩ ⟨decided, literals, limits, knows, cause⟩
  have apart : ∀ k ∈ p.trail.literals, k.var ≠ l.var := by
    intro k hk e
    rcases Lit.eq_of_var_eq e with rfl | rfl
    · exact notTrue hk
    · exact notFalse hk
  have causes : ∀ k ∈ p.trail.literals, trail.causeAt k.var = p.trail.causeAt k.var := by
    intro k hk
    rw [cause, if_neg (apart k hk)]
  have keeps : p.trail.Keeps trail := fun k hk =>
    ⟨literals ▸ List.mem_append_left _ hk, congrArg Cause.level (causes k hk)⟩
  have grounded := h.grounded.append decided notTrue notFalse literals knows cause (fun n hn => ?_)
    fun r hr => by cases hr
  · have rearranges : p.clauses.Rearranges p.clauses := .refl _
    exact .pure ⟨⟨⟨grounded, h.derived, h.learned, fun w hw => h.bounded w ((knows w).1 hw)⟩,
      h.watchful.append grounded h.grounded.next_le literals keeps, h.status⟩,
      .of_rearranges rearranges knows,
      Trail.progresses_of_append literals fun k hk => (keeps k hk).2, literals, limits, knows,
      causes⟩
  · rw [limits, List.mem_append, List.mem_singleton] at hn
    rcases hn with hn | rfl
    · exact h.grounded.limit_le n hn
    · exact Nat.le_of_eq done.symm

/-- A level is opened with a literal over an unassigned variable. -/
theorem decideOn_yields (h : s.Searching) (done : s.propagation.next = s.trail.length) {v : Var}
    (hv : s.assignment.isUnassigned v = true) (polarity : Bool) :
    Yields (s.decideOn v polarity) fun s' => s'.Searching ∧ s.Follows s' ∧
      s.trail.Progresses s'.trail ∧ s.trail.Opens s'.trail ⟨v, polarity⟩ := by
  obtain ⟨known, notTrue, notFalse⟩ :=
    h.grounded.trail.of_isUnassigned (l := ⟨v, polarity⟩) hv
  have literal : Lit.ofVar? v polarity = some ⟨v, polarity⟩ := if_pos (h.bounded v known)
  unfold decideOn
  rw [literal]
  refine (assume_yields h done known notTrue notFalse).bind
    fun s' ⟨searching, follows, progress, opens⟩ =>
      .pure ⟨⟨⟨searching.grounded, searching.derived, searching.learned, searching.bounded⟩,
        searching.watchful, searching.status⟩, ?_, progress, opens⟩
  exact ⟨follows.clauses, follows.given, follows.knows⟩

/-- It makes no difference whether the changes were consumed before. -/
theorem decideOn_noteConsumed_yields (h : s.Searching)
    (done : s.propagation.next = s.trail.length) {v : Var}
    (hv : s.assignment.isUnassigned v = true) (polarity consumed : Bool) :
    Yields ((s.noteConsumed consumed).decideOn v polarity) fun s' => s'.Searching ∧ s.Follows s' ∧
      s.trail.Progresses s'.trail ∧ s.trail.Opens s'.trail ⟨v, polarity⟩ := by
  obtain ⟨searching, follows⟩ := noteConsumed_searching h consumed
  obtain ⟨levels, next, length, same⟩ := s.noteConsumed_same consumed
  refine (decideOn_yields searching (next.trans (done.trans length.symm)) (same ▸ hv)
    polarity).mono fun s' ⟨searching', follows', progress, opens⟩ =>
      ⟨searching', follows.trans follows', ?_, ?_⟩
  · rwa [Trail.Progresses, levels] at progress
  · obtain ⟨literals, limits, knows, causes⟩ := opens
    cases consumed <;> exact ⟨literals, limits, knows, causes⟩

end Solver

end ClauseLearning
