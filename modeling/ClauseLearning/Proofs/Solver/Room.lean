/-
  Room in the counters.

  Model. The statistics keep two averages in 64-bit words: the lengths of the learned clauses and
  the levels gone back. In every moment of a run each of them has at most a term for every clause
  that is kept, and no term is greater than the number of variables that have literals
  (`Passes.averaged`).

  Rule. The words have room as long as the clauses can be named by 32-bit words
  (`Passes.not_full`). So no round of a search overflows that keeps fewer clauses than there are
  such words (`Search.FewClauses`, `Passes.not_overflows`).
-/
import ClauseLearning.Proofs.Solver.Moments

namespace ClauseLearning

open Round (Steps)

/-- As many clauses can be named by 32-bit words. -/
def ClauseRef.bound : Nat := UInt32.size

/-! ## The words -/

/-- The average has at most `k` terms, none greater than `n`. -/
structure Average.Within (a : Average) (k n : Nat) : Prop where
  /-- The sum. -/
  sum : a.sum ≤ k * n
  /-- The number of terms. -/
  count : a.count ≤ k

/-- Both averages have at most `k` terms, none greater than `n`. -/
structure Statistics.Within (st : Statistics) (k n : Nat) : Prop where
  /-- The lengths of the learned clauses. -/
  learnedLength : st.learnedLength.Within k n
  /-- The levels gone back. -/
  backtrack : st.backtrack.Within k n

variable {st st' : Statistics} {a a' : Average} {j k m n : Nat}

namespace Average

theorem Within.mono (h : a.Within j n) (le : j ≤ k) : a.Within k n where
  sum := Nat.le_trans h.sum (Nat.mul_le_mul_right n le)
  count := Nat.le_trans h.count le

theorem Within.add (h : a.Within k n) (le : m ≤ n) (e : a.add m = .ok a') :
    a'.Within (k + 1) n := by
  unfold Average.add at e
  split at e
  · cases e
    refine ⟨?_, Nat.add_le_add_right h.count 1⟩
    rw [Nat.add_mul, Nat.one_mul]
    exact Nat.add_le_add h.sum le
  · cases e

/-- Few terms leave room for another one. -/
theorem Within.not_full (h : a.Within k n) (small : (k + 1) * (n + 1) < bound) : ¬ a.Full n := by
  have := h.sum
  have := h.count
  rw [Nat.mul_add, Nat.add_mul, Nat.one_mul, Nat.mul_one] at small
  unfold Full
  omega

end Average

namespace Statistics

theorem within_zero (n : Nat) : zero.Within 0 n :=
  ⟨⟨Nat.zero_le _, Nat.le_refl _⟩, ⟨Nat.zero_le _, Nat.le_refl _⟩⟩

/-- Where no term is added, the averages are as they were. -/
theorem Within.carry (h : st.Within j n) (lengths : st'.learnedLength = st.learnedLength)
    (backtrack : st'.backtrack = st.backtrack) (le : j ≤ k) : st'.Within k n where
  learnedLength := lengths ▸ h.learnedLength.mono le
  backtrack := backtrack ▸ h.backtrack.mono le

theorem Within.not_full (h : st.Within k n) (small : (k + 1) * (n + 1) < Average.bound) :
    ¬ st.Full n := by
  rintro (lengths | backtrack)
  · exact h.learnedLength.not_full small lengths
  · exact h.backtrack.not_full small backtrack

end Statistics

/-! ## The parts of a round -/

namespace Solver

variable {s s' : Solver} {c : ClauseRef} {d : Learned}

theorem averages_of_propagate (e : s.propagate = .ok s') :
    s'.statistics.learnedLength = s.statistics.learnedLength ∧
      s'.statistics.backtrack = s.statistics.backtrack := by
  obtain ⟨_, _, same⟩ := statistics_of_propagate e
  rw [same]
  exact ⟨rfl, rfl⟩

theorem averages_of_decideOn {v : Var} {polarity : Bool} (e : s.decideOn v polarity = .ok s') :
    s'.statistics.learnedLength = s.statistics.learnedLength ∧
      s'.statistics.backtrack = s.statistics.backtrack := by
  obtain ⟨p, -, rfl⟩ := exists_of_decideOn e
  exact ⟨rfl, rfl⟩

/-- Counting what was learned adds one term to each average. -/
theorem within_of_countLearned {level : Nat} (h : st.Within k n)
    (e : countLearned st level d = .ok st') (literals : d.literals.length ≤ n)
    (levels : level ≤ n) : st'.Within (k + 1) n := by
  obtain ⟨lengths, added, e⟩ := Yields.exists_of_bind e
  obtain ⟨gone, difference, e⟩ := Yields.exists_of_bind e
  obtain ⟨backtrack, added', e⟩ := Yields.exists_of_bind e
  cases e
  refine ⟨h.learnedLength.add literals added, h.backtrack.add ?_ added'⟩
  unfold ClauseLearning.difference at difference
  split at difference
  · cases difference
    exact Nat.le_trans (Nat.sub_le ..) levels
  · cases difference

theorem statistics_of_record (e : s.record d = .ok s') : s'.statistics = s.statistics := by
  obtain ⟨status, p, learned, statistics, skip⟩ := s
  unfold record at e
  dsimp only at e
  split at e
  · cases e
  · obtain ⟨⟨r, p'⟩, -, e⟩ := Yields.exists_of_bind e
    obtain ⟨⟨agrees, p''⟩, -, e⟩ := Yields.exists_of_bind e
    dsimp only at e
    split at e
    · cases e
      rfl
    · cases e

/-- Learning counts what was learned. -/
theorem counted_of_resolveConflict (e : s.resolveConflict c = .ok s') :
    ∃ d, s.propagation.firstUip c = .ok d ∧
      countLearned s.statistics s.level d = .ok s'.statistics := by
  obtain ⟨d, analysis, e⟩ := Yields.exists_of_bind e
  obtain ⟨st, counted, e⟩ := Yields.exists_of_bind e
  obtain ⟨s'', left, e⟩ := Yields.exists_of_bind e
  refine ⟨d, analysis, ?_⟩
  rw [statistics_of_record e]
  exact counted

/-- Where there is no room for what is learned from a conflict, there is none for as much as the
    trail is long. -/
theorem Propagated.full (after : s.Propagated s') (conflict : s'.status = .conflicting c)
    (analysis : s'.propagation.firstUip c = .ok d)
    (full : s'.statistics.learnedLength.Full d.literals.length ∨
      s'.statistics.backtrack.Full (s'.level - d.backjump)) :
    s'.statistics.Full s'.trail.length := by
  have asserts := after.asserts conflict analysis
  refine full.imp (fun full => full.mono asserts.length_le) fun full => full.mono ?_
  exact Nat.le_trans (Nat.sub_le ..) after.sound.grounded.trail.level_le

end Solver

/-! ## Every moment -/

/-- Both averages have at most a term for every clause that is kept, or is about to be. -/
def Solver.Averaged (s : Solver) : Moment → Prop
  | .learning _ => s.statistics.Within (s.clauses.size + 1) Lit.varBound
  | _ => s.statistics.Within s.clauses.size Lit.varBound

section Moments

variable {skip : Bool} {g : Log} {m : Moment} {s : Solver}

open Solver

/-- In every moment of a run the averages have no more terms than there are clauses. -/
theorem Passes.averaged (run : Passes skip g m s) : s.Averaged m := by
  induction run with
  | new => exact Statistics.within_zero _
  | @register g s s' v before e ih =>
    obtain ⟨idle, -⟩ := before.fits_logged
    obtain ⟨-, ⟨p', rfl, w⟩, -⟩ := (register_yields idle (lt_of_register e)).of_ok e
    have clauses : p'.clauses = s.clauses := w.clauses
    exact Statistics.Within.carry ih rfl rfl (Nat.le_of_eq (congrArg _ clauses.symm))
  | add before e ih =>
    obtain ⟨idle, -⟩ := before.fits_logged
    obtain ⟨-, statistics, clauses, -⟩ := learned_of_add idle e
    exact Statistics.Within.carry ih (by rw [statistics]) (by rw [statistics]) clauses.size_le
  | begin _ _ ih => exact ih
  | propagate before e ih =>
    obtain ⟨searching, -⟩ := before.fits_logged
    obtain ⟨lengths, backtrack⟩ := averages_of_propagate e
    exact Statistics.Within.carry ih lengths backtrack
      (rearranges_of_propagate searching e).clauses.size_le
  | @decide g s s' v polarity consumed _ _ _ e ih =>
    obtain ⟨lengths, backtrack⟩ := averages_of_decideOn e
    have clauses := (clauses_of_decideOn e).trans (s.clauses_noteConsumed consumed)
    exact Statistics.Within.carry ih lengths backtrack (Nat.le_of_eq (by rw [clauses]))
  | @backjump g s s' c d st before conflict above analysis counts e ih =>
    obtain ⟨⟨s₀, after⟩, -⟩ := before.fits_logged
    obtain ⟨-, clauses⟩ := after.learning st conflict above analysis e
    have short := after.sound.length_le_varBound
    have length := Nat.le_trans (after.asserts conflict analysis).length_le short
    have level := Nat.le_trans after.sound.grounded.trail.level_le short
    change st.Within (s'.clauses.size + 1) Lit.varBound
    rw [clauses]
    exact within_of_countLearned ih counts length level
  | @learn g s s' d status before e starts ih =>
    obtain ⟨learning, -⟩ := before.fits_logged
    obtain ⟨p', recorded, rfl⟩ := (record_yields learning.learnable).of_ok e
    have size : p'.clauses.size = s.clauses.size + 1 := by
      rw [recorded.clauses]
      exact Table.size_push ..
    exact Statistics.Within.carry ih rfl rfl (Nat.le_of_eq size.symm)
  | refute _ _ _ _ ih => exact ih
  | @succeed g s s' status before open' _ e left ih =>
    obtain ⟨⟨s₀, after⟩, -⟩ := before.fits_logged
    have searching := after.searching open'
    rw [searching.status] at e
    cases e
    obtain ⟨-, clauses, statistics⟩ := learned_of_leave searching rfl left
    exact Statistics.Within.carry ih (by rw [statistics]) (by rw [statistics])
      (Nat.le_of_eq (by rw [clauses]))
  | @stop g s s' status before e left ih =>
    obtain ⟨searching, -⟩ := before.fits_logged
    rw [searching.status] at e
    cases e
    obtain ⟨-, clauses, statistics⟩ := learned_of_leave searching rfl left
    exact Statistics.Within.carry ih (by rw [statistics]) (by rw [statistics])
      (Nat.le_of_eq (by rw [clauses]))

/-- After propagation there is room for what can be learned, as long as the clauses are few. -/
theorem Passes.not_full (run : Passes skip g .propagated s)
    (few : s.clauses.size < ClauseRef.bound) : ¬ s.statistics.Full Lit.varBound := by
  have averaged : s.statistics.Within s.clauses.size Lit.varBound := run.averaged
  refine averaged.not_full ?_
  calc (s.clauses.size + 1) * (Lit.varBound + 1)
    _ ≤ ClauseRef.bound * (Lit.varBound + 1) := Nat.mul_le_mul_right _ few
    _ < Average.bound := by decide

end Moments

/-! ## Searches -/

section Searches

variable {π β : Type} [Policy π] [Termination β] {q q' : Search π β} {s : Solver} {skip : Bool}
  {g : Log}

omit [Policy π] [Termination β] in
/-- Where a round overflows, the statistics are full but for as much as the trail is long. -/
theorem Search.Overflows.full (h : q.solver.Searching) (overflows : q.Overflows) :
    ∃ s, q.solver.propagate = .ok s ∧ s.Sound ∧ q.solver.Follows s ∧
      s.statistics.Full s.trail.length := by
  obtain ⟨s, c, d, propagated, status, analysis, full⟩ := overflows
  have after := (Solver.propagate_yields h).of_ok propagated
  exact ⟨s, propagated, after.sound, after.follows, after.full status analysis full⟩

/-- In every round fewer clauses are kept than can be named by 32-bit words. -/
def Search.FewClauses (q : Search π β) : Prop :=
  ∀ n q', Steps round n q q' → q'.solver.clauses.size < ClauseRef.bound

/-- As long as the clauses are few, no round finds the statistics full. -/
theorem Passes.not_full_of_steps (run : Passes skip g .searching q.solver) (few : q.FewClauses)
    (steps : Steps Search.round n q q') (propagated : q'.solver.propagate = .ok s) :
    ¬ s.statistics.Full Lit.varBound := by
  obtain ⟨g', run'⟩ := run.of_steps steps
  obtain ⟨searching, -⟩ := run'.fits_logged
  refine (run'.propagate propagated).not_full ?_
  rw [(Solver.rearranges_of_propagate searching propagated).size]
  exact few n q' steps

/-- As long as the clauses are few, no round overflows. -/
theorem Passes.not_overflows (run : Passes skip g .searching q.solver) (few : q.FewClauses) :
    ∀ n q', Steps Search.round n q q' → ¬ q'.Overflows := by
  intro n q' steps overflows
  obtain ⟨g', run'⟩ := run.of_steps steps
  obtain ⟨searching, -⟩ := run'.fits_logged
  obtain ⟨s, propagated, sound, -, full⟩ := overflows.full searching
  exact run.not_full_of_steps few steps propagated (full.mono sound.length_le_varBound)

end Searches

end ClauseLearning
