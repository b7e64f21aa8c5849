/-
  Explanations of files name clauses of the file.

  Model. A file is taken in as a run of a solver. What the run has created are clauses of the file,
  in their order: the one at the place `k` with the label of `k` (`filed`). Between them there may
  be places at which nothing is kept, since a tautology was left out or the problem had no solution
  before; searches put learned clauses behind them.

  Rule. `text_of_intake`: an explanation lists labels of increasing places, and the clauses at
  these places of the file have no common solution.
-/
import Mathlib
import ClauseLearning.Proofs.Dimacs.Declared
import ClauseLearning.Proofs.Solver.Answers
import ClauseLearning.Proofs.Solver.Moments

namespace ClauseLearning

/-! ## The text of an explanation -/

/-- The text lists the rules of the requirements. -/
theorem Refutation.text_eq {w : Refutation} {refs : List ClauseRef} {rule : ClauseRef → String}
    (requirements : w.conflictRequirements = .ok refs)
    (rules : ∀ r ∈ refs, ∃ c, w.clauses.get? r = some c ∧ c.provenance = some (rule r)) :
    w.text = .ok ("\n".intercalate ("Conflicting requirements:" :: refs.map rule)) := by
  have described : (refs.mapM fun r => do return (← w.clauses.read r).describe : Except Fault _) =
      .ok (refs.map rule) := by
    refine Yields.mapM_eq fun r hr => ?_
    obtain ⟨c, hc, provenance⟩ := rules r hr
    rw [ClauseStore.read_eq hc]
    change Except.ok c.describe = _
    rw [Clause.describe, provenance]
  unfold text lines
  rw [requirements]
  change Except.bind (Except.bind (refs.mapM _) _) _ = _
  rw [described]
  rfl

namespace Solver

/-- Searches, or none, lead from the first solver to the second. -/
inductive Searched (s : Solver) : Solver → Prop
  /-- None. -/
  | none : Searched s s
  /-- One search more. -/
  | solve {s' : Solver} {π β : Type} [Policy π] [Termination β] {budget : β} {policy : π}
    {o : Outcome π} (before : Searched s s') (e : s'.solve budget policy = .ok o) :
    Searched s o.solver

theorem Searched.follows {s s' : Solver} (run : s.Searched s') (h : s.Idle) :
    s'.Idle ∧ s.Follows s' := by
  induction run with
  | none => exact ⟨h, .refl s⟩
  | solve _ e ih =>
    obtain ⟨idle, follows⟩ := ih
    obtain ⟨idle', follows', -⟩ := solve_answers idle e
    exact ⟨idle', follows.trans follows'⟩

end Solver

namespace Dimacs

variable {skip : Bool} {g : Log} {s s' : Solver} {added : List Added} {c : List Int}
  {file done clauses : List (List Int)} {ls : List Lit} {n k : Nat}

/-! ## What is kept of a file -/

/-- The literal of a number other than zero. -/
def literal (z : Int) : Lit := ⟨z.natAbs, 0 < z⟩

theorem litOf_eq_literal {z : Int} {l : Lit} (e : litOf z = .ok l) : l = literal z := by
  have small := lt_of_litOf e
  by_cases zero : z = 0
  · rw [zero] at e
    cases e
  · rw [litOf_eq zero small] at e
    exact (Except.ok.inj e).symm

theorem mapM_litOf_eq (e : c.mapM litOf = .ok ls) : ls = c.map literal := by
  induction c generalizing ls with
  | nil =>
    cases e
    rfl
  | cons z c ih =>
    rw [List.mapM_cons] at e
    obtain ⟨l, first, e⟩ := Yields.exists_of_bind e
    obtain ⟨ks, rest, e⟩ := Yields.exists_of_bind e
    cases e
    rw [litOf_eq_literal first, ih rest, List.map_cons]

/-- What is kept of the clause at the place `k` of a file, counted from 1. -/
def filed (file : List (List Int)) (k : Nat) : Clause :=
  Clause.ofList ((file[k - 1]?.getD []).map literal) false (some (label k))

/-- The clause that comes after those that were taken in. -/
theorem filed_next (split : file = done ++ c :: clauses) :
    filed file (done.length + 1) =
      Clause.ofList (c.map literal) false (some (label (done.length + 1))) := by
  have here : file[done.length]? = some c := by simp [split]
  rw [filed, Nat.add_sub_cancel, here, Option.getD_some]

/-- A valuation that fails on what is kept makes no number of the clause true. -/
theorem fails_of_filed {m : Valuation} (first : 1 ≤ k) (last : k ≤ file.length)
    (fails : ¬ m.Satisfies (filed file k).literals) :
    ∃ c, file[k - 1]? = some c ∧ ∀ z ∈ c, m z.natAbs ≠ decide (0 < z) := by
  have inside : k - 1 < file.length := by omega
  obtain ⟨c, hc⟩ : ∃ c, file[k - 1]? = some c := ⟨_, List.getElem?_eq_getElem inside⟩
  refine ⟨c, hc, fun z hz true => fails ⟨literal z, ?_, true⟩⟩
  rw [filed, hc, Option.getD_some, Clause.mem_ofList]
  exact List.mem_map_of_mem hz

/-! ## A file is taken in -/

/-- A run that goes on from the log `g` leads to the solver `s`, and creates clauses of the file at
    increasing places behind the first `n`. -/
def Files (skip : Bool) (file : List (List Int)) (n : Nat) (g : Log) (s : Solver) : Prop :=
  ∃ (g' : Log) (places : List Nat), Passes skip g' .resting s ∧
    g'.created = g.created ++ places.map (filed file) ∧ places.Pairwise (· < ·) ∧
    ∀ k ∈ places, n < k ∧ k ≤ file.length

namespace Files

/-- Nothing is kept of the clause that comes next. -/
theorem pass {g₁ : Log} (h : Files skip file (n + 1) g₁ s) (same : g₁.created = g.created) :
    Files skip file n g s := by
  obtain ⟨g', places, run, created, increasing, range⟩ := h
  exact ⟨g', places, run, same ▸ created, increasing,
    fun k hk => ⟨Nat.lt_of_succ_lt (range k hk).1, (range k hk).2⟩⟩

/-- The clause that comes next is kept. -/
theorem keep {g₁ : Log} (h : Files skip file (n + 1) g₁ s) (inside : n < file.length)
    (create : g₁.created = g.created ++ [filed file (n + 1)]) : Files skip file n g s := by
  obtain ⟨g', places, run, created, increasing, range⟩ := h
  refine ⟨g', (n + 1) :: places, run, by simp [created, create], ?_, fun k hk => ?_⟩
  · exact List.pairwise_cons.2 ⟨fun k hk => (range k hk).1, increasing⟩
  · rcases List.mem_cons.1 hk with rfl | hk
    · exact ⟨Nat.lt_succ_self n, inside⟩
    · exact ⟨Nat.lt_of_succ_lt (range k hk).1, (range k hk).2⟩

end Files

/-- Declaring variables is a run. -/
theorem passes_of_declare (e : declare skip n = .ok s) : Passes skip .empty .resting s := by
  unfold declare at e
  split at e
  · cases e
  · exact Yields.keeps_of_foldlM (fun _ _ _ run registered => run.register registered) .new e

/-- Taking in the rest of a file is a run. -/
theorem files_of_takeIn (run : Passes skip g .resting s) (split : file = done ++ clauses)
    (e : (takeIn s added (done.length + 1) clauses).solver = .ok s') :
    Files skip file done.length g s' := by
  induction clauses generalizing g s added done with
  | nil =>
    cases e
    exact ⟨g, [], run, by simp, .nil, by simp⟩
  | cons c cs ih =>
    unfold takeIn at e
    split at e
    · cases e
    · rename_i a s₁ adds
      obtain ⟨ls, literals, adds⟩ := Yields.exists_of_bind adds
      have size : (done ++ [c]).length = done.length + 1 := by simp
      have inside : done.length < file.length := by simp [split]
      have next := filed_next split
      rw [← mapM_litOf_eq literals] at next
      have rest : Files skip file (done ++ [c]).length
          (g.add ls (some (label (done.length + 1))) a) s' :=
        ih (run.add adds) (by simp [split]) (size ▸ e)
      rw [size] at rest
      cases a with
      | kept r => exact rest.keep inside (next ▸ rfl)
      | infeasible r => exact rest.keep inside (next ▸ rfl)
      | skipped d => exact rest.pass rfl
      | refused => exact rest.pass rfl

/-- The clauses that a file brings into a solver are clauses of the file, in their order. -/
theorem filed_of_intake {r : Reading} (built : (r.intake skip).solver = .ok s) :
    s.Idle ∧ ∃ places : List Nat, s.clauses.MadeOf (places.map (filed r.clauses)) ∧
      places.Pairwise (· < ·) ∧ ∀ k ∈ places, 1 ≤ k ∧ k ≤ r.clauses.length := by
  unfold Reading.intake at built
  split at built
  · cases built
  · rename_i s₀ declares
    have split : r.clauses = [] ++ r.clauses := rfl
    obtain ⟨g, places, run, created, increasing, range⟩ :=
      files_of_takeIn (passes_of_declare declares) split built
    obtain ⟨idle, logged⟩ : s.Idle ∧ s.Logged g := run.fits_logged
    rw [Log.empty, List.nil_append] at created
    exact ⟨idle, places, created ▸ logged.made, increasing, range⟩

/-! ## Explanations -/

section Explanations

variable {places : List Nat} {q q' : ClauseRef}

/-- The place from which a clause comes. -/
def placeOf (places : List Nat) (q : ClauseRef) : Nat := places[q]?.getD 0

theorem placeOf_eq (h : places[q]? = some k) : placeOf places q = k := by
  rw [placeOf, h, Option.getD_some]

/-- Clauses that are kept later come from later places. -/
theorem lt_of_places (increasing : places.Pairwise (· < ·)) {k' : Nat}
    (hk : places[q]? = some k) (hk' : places[q']? = some k') (lt : q < q') : k < k' := by
  obtain ⟨inside, rfl⟩ := List.getElem?_eq_some_iff.1 hk
  obtain ⟨inside', rfl⟩ := List.getElem?_eq_some_iff.1 hk'
  exact List.pairwise_iff_getElem.1 increasing q q' inside inside' lt

/-- A given clause comes from a place of the file, also after searches. -/
theorem exists_place (made : s.clauses.MadeOf (places.map (filed file))) (follows : s.Follows s')
    {d : Clause} (hd : s'.clauses.get? q = some d) (given : d.learned = false) :
    ∃ k, places[q]? = some k ∧ d.Rearranges (filed file k) := by
  obtain ⟨d', hd', same⟩ := follows.given q d hd given
  obtain ⟨f, hf, same'⟩ := made.clauses q d' hd'
  rw [List.getElem?_map, Option.map_eq_some_iff] at hf
  obtain ⟨k, hk, rfl⟩ := hf
  exact ⟨k, hk, same.trans same'⟩

variable {π β : Type} [Policy π] [Termination β] {budget : β} {policy : π} {o : Outcome π}
  {w : Refutation}

/-- Whatever a solver has taken in of a file, and whatever searches were made, the explanation of a
    refutation lists labels of increasing places, and no valuation satisfies the clauses there. -/
theorem text_of_intake {r : Reading} (built : (r.intake skip).solver = .ok s)
    (searched : s.Searched s') (e : s'.solve budget policy = .ok o)
    (answer : o.verdict = .unsatisfiable w) :
    ∃ ks : List Nat,
      w.text = .ok ("\n".intercalate ("Conflicting requirements:" :: ks.map label)) ∧
      ks.Pairwise (· < ·) ∧ (∀ k ∈ ks, 1 ≤ k ∧ k ≤ r.clauses.length) ∧
      ∀ m : Valuation, ∃ k ∈ ks, ∃ c, r.clauses[k - 1]? = some c ∧
        ∀ z ∈ c, m z.natAbs ≠ decide (0 < z) := by
  obtain ⟨idle, places, made, increasing, range⟩ := filed_of_intake built
  obtain ⟨idle', follows⟩ := (searched.solve e).follows idle
  have answered := (Solver.solve_answers (searched.follows idle).1 e).2.2
  rw [answer] at answered
  obtain ⟨c, infeasible, explains⟩ := answered
  obtain ⟨refs, requirements, sorted, given, unsatisfiable⟩ :=
    explains.conflictRequirements_yields idle'.grounded idle'.root (idle'.refuted c infeasible)
  have origin : ∀ q ∈ refs, ∃ k d, places[q]? = some k ∧ w.clauses.get? q = some d ∧
      d.Rearranges (filed r.clauses k) := by
    intro q hq
    obtain ⟨d, hw, hd, isGiven⟩ := given q hq
    obtain ⟨k, hk, same⟩ := exists_place made follows hd isGiven
    exact ⟨k, d, hk, hw, same⟩
  have described : ∀ q ∈ refs, ∃ d, w.clauses.get? q = some d ∧
      d.provenance = some (label (placeOf places q)) := by
    intro q hq
    obtain ⟨k, d, hk, hd, same⟩ := origin q hq
    exact ⟨d, hd, placeOf_eq hk ▸ same.provenance⟩
  refine ⟨refs.map (placeOf places), ?_, ?_, fun k hk => ?_, fun m => ?_⟩
  · rw [Refutation.text_eq requirements described, List.map_map]
    rfl
  · rw [List.pairwise_map]
    refine sorted.imp_of_mem fun {q q'} hq hq' lt => ?_
    obtain ⟨k, -, hk, -⟩ := origin q hq
    obtain ⟨k', -, hk', -⟩ := origin q' hq'
    rw [placeOf_eq hk, placeOf_eq hk']
    exact lt_of_places increasing hk hk' lt
  · obtain ⟨q, hq, rfl⟩ := List.mem_map.1 hk
    obtain ⟨k, -, hk, -⟩ := origin q hq
    rw [placeOf_eq hk]
    exact range k (List.mem_of_getElem? hk)
  · by_contra none
    refine unsatisfiable m fun q hq d hd => ?_
    obtain ⟨k, d', hk, hd', same⟩ := origin q hq
    cases hd'.symm.trans hd
    by_contra fails
    obtain ⟨first, last⟩ := range k (List.mem_of_getElem? hk)
    have fails' : ¬ m.Satisfies (filed r.clauses k).literals := fun satisfied =>
      fails (same.satisfies_iff.2 satisfied)
    exact none ⟨k, List.mem_map.2 ⟨q, hq, placeOf_eq hk⟩, fails_of_filed first last fails'⟩

/-- The explanations of an accepted file name its clauses, with tautologies left out or not: a
    heading is followed by the lines `input clause #k` for increasing places `k`, counted from 1,
    and no valuation makes a number true in each of the clauses at these places. -/
theorem text_of_read {chunks : List (List UInt8)} {breaksOff : Bool} {n? : Option Nat}
    (accepted : read chunks breaksOff = ⟨n?, clauses, none⟩)
    (built : ((read chunks breaksOff).intake skip).solver = .ok s) (searched : s.Searched s')
    (e : s'.solve budget policy = .ok o) (answer : o.verdict = .unsatisfiable w) :
    ∃ ks : List Nat,
      w.text = .ok ("\n".intercalate ("Conflicting requirements:" :: ks.map label)) ∧
      ks.Pairwise (· < ·) ∧ (∀ k ∈ ks, 1 ≤ k ∧ k ≤ clauses.length) ∧
      ∀ m : Valuation, ∃ k ∈ ks, ∃ c, clauses[k - 1]? = some c ∧
        ∀ z ∈ c, m z.natAbs ≠ decide (0 < z) := by
  rw [accepted] at built
  exact text_of_intake built searched e answer

end Explanations

theorem text_of_read_six_clauses : ∃ chunks s w, ∃ o : Outcome LowestFirst,
    chunks = [bytesOf "p cnf 2 6\n1 -1 0 1 2 0\n-1 2 0 1 -2 0 2 -2 0\n-1 -2 0\n"] ∧
    read chunks false =
      ⟨some 2, [[1, -1], [1, 2], [-1, 2], [1, -2], [2, -2], [-1, -2]], none⟩ ∧
    ((read chunks false).intake true).solver = .ok s ∧
    s.solve Budget.unlimited LowestFirst.mk = .ok o ∧ o.verdict = .unsatisfiable w ∧
    ∃ ks : List Nat,
      w.text = .ok ("\n".intercalate ("Conflicting requirements:" :: ks.map label)) ∧
      ks.Pairwise (· < ·) ∧ (∀ k ∈ ks, 1 ≤ k ∧ k ≤ 6) ∧
      ∀ m : Valuation, ∃ k ∈ ks, ∃ c,
        [[1, -1], [1, 2], [-1, 2], [1, -2], [2, -2], [-1, -2]][k - 1]? = some c ∧
          ∀ z ∈ c, m z.natAbs ≠ decide (0 < z) := by
  have accepted :
      read [bytesOf "p cnf 2 6\n1 -1 0 1 2 0\n-1 2 0 1 -2 0 2 -2 0\n-1 -2 0\n"] false =
        ⟨some 2, [[1, -1], [1, 2], [-1, 2], [1, -2], [2, -2], [-1, -2]], none⟩ := by
    decide +kernel
  have answer : ((Reading.intake ⟨some 2, [[1, -1], [1, 2], [-1, 2], [1, -2], [2, -2], [-1, -2]],
      none⟩ true).solver >>= fun s => s.solve Budget.unlimited LowestFirst.mk).map
        (·.verdict.isUnsatisfiable) = .ok true := by
    cbv
  obtain ⟨s, built, o, solved, answer⟩ := Yields.of_bind (Yields.of_map answer)
  obtain ⟨w, answer⟩ := Verdict.isUnsatisfiable_iff.1 answer
  rw [← accepted] at built
  exact ⟨_, s, w, o, rfl, accepted, built, solved, answer,
    text_of_read accepted built .none solved answer⟩

end Dimacs

end ClauseLearning
