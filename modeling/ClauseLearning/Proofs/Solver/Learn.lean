/-
  Learning a clause.

  Model. After going back to the backjump level the asserting literal of the learned clause has
  no value, and the other literals are false, one of them since that very level
  (`Learnable`). So with such a literal in second place, both watched literals are right once the
  asserting one is true.

  Rule. `record_yields`: the learned clause comes under the watch invariant and its asserting
  literal to the end of the trail, without a fault.
-/
import ClauseLearning.Solver.Resolve
import ClauseLearning.Proofs.Propagation.Admit
import ClauseLearning.Proofs.Propagation.FirstUip

namespace ClauseLearning

/-! ## The order of a learned clause -/

section PromoteMax

variable {α : Type} {key : α → Nat} {xs : List α}

theorem foldl_max_le {n : Nat} (h : ∀ x ∈ xs, key x ≤ n) {m : Nat} (hm : m ≤ n) :
    xs.foldl (fun m x => max m (key x)) m ≤ n := by
  induction xs generalizing m with
  | nil => exact hm
  | cons x xs ih =>
    rw [List.foldl_cons]
    exact ih (fun y hy => h y (.tail _ hy)) (Nat.max_le.2 ⟨hm, h x (.head _)⟩)

theorem le_foldl_max (m : Nat) :
    m ≤ xs.foldl (fun m x => max m (key x)) m ∧
      ∀ x ∈ xs, key x ≤ xs.foldl (fun m x => max m (key x)) m := by
  induction xs generalizing m with
  | nil => simp
  | cons x xs ih =>
    obtain ⟨le, all⟩ := ih (max m (key x))
    rw [List.foldl_cons]
    refine ⟨Nat.le_trans (Nat.le_max_left ..) le, fun y hy => ?_⟩
    rcases List.mem_cons.1 hy with rfl | hy
    · exact Nat.le_trans (Nat.le_max_right ..) le
    · exact all y hy

theorem promoteMax_perm (key : α → Nat) (xs : List α) : (promoteMax key xs).Perm xs := by
  unfold promoteMax
  dsimp only
  split
  · rename_i x before y behind front back
    have parts := List.takeWhile_append_dropWhile
      (p := fun x => decide (key x < xs.foldl (fun m x => max m (key x)) 0)) (l := xs)
    rw [front, back] at parts
    conv => rhs; rw [← parts]
    simp only [List.cons_append]
    exact (List.perm_middle.cons y).trans ((List.Perm.swap ..).trans (List.perm_middle.symm.cons x))
  · exact .rfl

/-- The first element has the greatest key. -/
theorem promoteMax_first {y : α} {rest : List α} (e : promoteMax key xs = y :: rest) :
    ∀ x ∈ xs, key x ≤ key y := by
  unfold promoteMax at e
  dsimp only at e
  generalize htop : xs.foldl (fun m x => max m (key x)) 0 = top at e
  have bound : ∀ x ∈ xs, key x ≤ top := htop ▸ (le_foldl_max 0).2
  suffices h : top ≤ key y from fun x hx => Nat.le_trans (bound x hx) h
  have first : ∀ {z : α} {behind : List α},
      xs.dropWhile (fun x => decide (key x < top)) = z :: behind → top ≤ key z := by
    intro z behind back
    have := List.head?_dropWhile_not (fun x => decide (key x < top)) xs
    rw [back] at this
    simpa using this
  split at e
  · rename_i x before z behind front back
    cases e
    exact first back
  · rename_i other
    subst e
    cases front : (y :: rest).takeWhile fun x => decide (key x < top) with
    | nil =>
      have parts := List.takeWhile_append_dropWhile
        (p := fun x => decide (key x < top)) (l := y :: rest)
      rw [front, List.nil_append] at parts
      exact first parts
    | cons x before =>
      cases back : (y :: rest).dropWhile fun x => decide (key x < top) with
      | cons z behind => exact absurd back (other x before z behind front)
      | nil =>
        -- then all keys would be below the greatest one
        have below := List.dropWhile_eq_nil_iff.1 back
        simp only [decide_eq_true_eq] at below
        have pos := below y (.head _)
        have bound : (y :: rest).foldl (fun m x => max m (key x)) 0 ≤ top - 1 :=
          foldl_max_le (fun x hx => by have := below x hx; omega) (Nat.zero_le _)
        omega

end PromoteMax

/-- After going back a learned clause is ready to be kept. -/
structure Propagation.Learnable (p : Propagation) (d : Learned) : Prop where
  /-- The state is watchful. -/
  watchful : p.Watchful none p.next
  /-- The asserting literal is not true. -/
  notTrue : d.asserting ∉ p.trail.literals
  /-- The asserting literal is not false. -/
  notFalse : -d.asserting ∉ p.trail.literals
  /-- Its variable is registered. -/
  known : p.trail.Knows d.asserting.var
  /-- The other literals are false. -/
  false : ∀ l ∈ d.others, -l ∈ p.trail.literals
  /-- Every literal is there once. -/
  nodup : d.literals.Nodup
  /-- One of the others is of the current level, unless there are none. -/
  level : d.others = [] ∧ p.trail.level = 0 ∨
    ∃ l ∈ d.others, p.trail.levelOf l.var = p.trail.level

namespace Propagation

variable {p p' : Propagation} {d : Learned}

theorem Asserts.nodup_literals (a : p.Asserts d) : d.literals.Nodup := by
  rw [Learned.literals, List.nodup_append]
  refine ⟨a.nodup, by simp, fun l hl k hk e => ?_⟩
  rw [List.mem_singleton.1 hk] at e
  have := (a.earlier l hl).2
  rw [e, a.current] at this
  exact Nat.lt_irrefl _ this

/-- The learned clause has at most as many literals as the trail. -/
theorem Asserts.length_le (a : p.Asserts d) : d.literals.length ≤ p.trail.length := by
  have distinct : (d.literals.map fun l => -l).Nodup :=
    a.nodup_literals.map fun _ _ => Lit.neg_inj
  have inside : (d.literals.map fun l => -l) ⊆ p.trail.literals := by
    intro k hk
    obtain ⟨l, hl, rfl⟩ := List.mem_map.1 hk
    rcases List.mem_append.1 hl with other | last
    · exact (a.earlier l other).1
    · exact List.mem_singleton.1 last ▸ a.asserting
  have := (distinct.subperm inside).length_le
  rwa [List.length_map, Trail.length_literals] at this

/-- The backjump level is below the current one. -/
theorem Asserts.backjump_lt (a : p.Asserts d) (pos : 0 < p.trail.level) :
    d.backjump < p.trail.level := by
  rcases a.level_eq with ⟨-, zero⟩ | ⟨l, hl, e⟩
  · rwa [zero]
  · exact e ▸ (a.earlier l hl).2

/-- After going back to the backjump level the learned clause can be kept. -/
theorem Asserts.learnable (a : p.Asserts d) (h : p.Grounded) (pos : 0 < p.trail.level)
    (back : p.trail.Backtracks p'.trail d.backjump) (watchful : p'.Watchful none p'.next) :
    p'.Learnable d := by
  have low := a.backjump_lt pos
  have here : p'.trail.level = d.backjump := back.level (Nat.le_of_lt low)
  have stays : ∀ l ∈ d.others, -l ∈ p'.trail.literals := fun l hl =>
    (back.mem_iff h.trail.toValid).2 ⟨(a.earlier l hl).1, a.level_le l hl⟩
  refine ⟨watchful, fun hl => ?_, fun hl => ?_, ?_, stays, a.nodup_literals, ?_⟩
  · have := ((back.mem_iff h.trail.toValid).1 hl).1
    exact h.trail.neg_not_mem this a.asserting
  · have : p.trail.levelOf d.asserting.var ≤ d.backjump :=
      ((back.mem_iff h.trail.toValid).1 hl).2
    rw [a.current] at this
    omega
  · exact (back.knows _).2 (h.trail.knows_of_mem (l := -d.asserting) a.asserting)
  · rw [here]
    refine a.level_eq.imp id fun ⟨l, hl, e⟩ => ⟨l, hl, ?_⟩
    have : p'.trail.levelOf (-l).var = p.trail.levelOf l.var :=
      back.levelOf h.trail.toValid (stays l hl)
    exact this.trans e

/-- A level is kept for each of the other literals. -/
theorem Learnable.hasLevel (h : p.Learnable d) :
    ∀ l ∈ d.others, p.trail.hasLevel l.var = true := fun l hl =>
  h.watchful.trail.hasLevel_of_mem (l := -l) (h.false l hl)

end Propagation

namespace Solver

open Propagation

variable {p p' : Propagation} {d : Learned}

theorem rotateLeft_perm (ls : List Lit) (n : Nat) : (ls.rotateLeft n).Perm ls := by
  unfold List.rotateLeft
  dsimp only
  split
  · exact .rfl
  · refine List.perm_append_comm.trans ?_
    rw [List.take_append_drop]

theorem watchOrder_perm (t : Trail) (d : Learned) : (watchOrder t d).Perm d.literals := by
  refine (((promoteMax_perm ..).trans (rotateLeft_perm ..)).cons d.asserting).trans ?_
  exact (List.perm_append_singleton ..).symm

/-- The clause that is kept for what was learned. -/
def learnedClause (t : Trail) (d : Learned) : Clause :=
  Clause.learnedFrom (watchOrder t d) d.antecedents

theorem literals_learnedClause (t : Trail) (nodup : d.literals.Nodup) :
    (learnedClause t d).literals = watchOrder t d :=
  Clause.literals_learnedFrom ((watchOrder_perm t d).nodup_iff.2 nodup) _

theorem mem_learnedClause (t : Trail) (nodup : d.literals.Nodup) {l : Lit} :
    l ∈ (learnedClause t d).literals ↔ l ∈ d.others ∨ l = d.asserting := by
  rw [literals_learnedClause t nodup, (watchOrder_perm t d).mem_iff, Learned.literals,
    List.mem_append, List.mem_singleton]

/-- The second literal of the kept clause is of the highest level among the others. -/
theorem level_second (h : p.Learnable d) {b : Lit} {rest : List Lit}
    (e : (learnedClause p.trail d).literals = d.asserting :: b :: rest) :
    p.trail.level ≤ p.trail.levelOf b.var := by
  rw [literals_learnedClause _ h.nodup, watchOrder, List.cons.injEq] at e
  rcases h.level with ⟨none, -⟩ | ⟨l, hl, level⟩
  · rw [none] at e
    cases e.2
  · rw [← level]
    exact promoteMax_first e.2 l ((rotateLeft_perm ..).mem_iff.2 hl)

/-- A learned clause with one literal is learned at the root. -/
theorem learned_alone (h : p.Learnable d) (short : (learnedClause p.trail d).length < 2) :
    (learnedClause p.trail d).literals = [d.asserting] ∧ p.trail.level = 0 := by
  have perm : (learnedClause p.trail d).literals.Perm (d.others ++ [d.asserting]) := by
    rw [literals_learnedClause _ h.nodup]
    exact watchOrder_perm p.trail d
  have size := perm.length_eq
  rw [List.length_append, List.length_singleton, ← Clause.length] at size
  have none : d.others = [] := List.length_eq_zero_iff.1 (by omega)
  rw [none] at perm
  refine ⟨List.perm_singleton.1 perm, ?_⟩
  rcases h.level with ⟨-, root⟩ | ⟨l, hl, -⟩
  · exact root
  · rw [none] at hl
    cases hl

/-- The learned clause is kept, bare at first. -/
theorem keep_learned (h : p.Learnable d) :
    (p.keep (learnedClause p.trail d)).2.Watchful (some p.clauses.size) p.next := by
  refine h.watchful.keep ?_ fun l hl => ?_
  · rw [literals_learnedClause _ h.nodup]
    exact (watchOrder_perm p.trail d).nodup_iff.2 h.nodup
  · rcases (mem_learnedClause _ h.nodup).1 hl with hl | rfl
    · exact h.watchful.trail.knows_of_mem (l := -l) (h.false l hl)
    · exact h.known

/-- A learned clause is watched if there is more than one literal to it. -/
theorem learn_yields (h : p.Learnable d) :
    Yields (p.learn (learnedClause p.trail d)) fun x => x.1 = p.clauses.size ∧
      ∃ ws, x.2 = { p with clauses := (p.clauses.add (learnedClause p.trail d)).2, watches := ws } ∧
        ws.size = p.watches.size ∧ x.2.clauses.Indexes none x.2.watchers := by
  have kept := keep_learned h
  have get := ClauseStore.get?_add_self p.clauses (learnedClause p.trail d)
  change Yields (if 2 ≤ (learnedClause p.trail d).length then _ else _) _
  match e : (learnedClause p.trail d).literals with
  | [] =>
    have := (mem_learnedClause p.trail h.nodup).2 (.inr rfl)
    simp [e] at this
  | [a] =>
    have short : (learnedClause p.trail d).length < 2 := by simp [Clause.length, e]
    rw [if_neg (Nat.not_le.2 short)]
    exact .pure ⟨rfl, p.watches, rfl, rfl, kept.indexes.short get short⟩
  | a :: b :: rest =>
    have long : 2 ≤ (learnedClause p.trail d).length := by simp [Clause.length, e]
    have distinct := kept.nodup _ _ get
    rw [e, List.nodup_cons, List.mem_cons, not_or] at distinct
    have room : ∀ l ∈ (learnedClause p.trail d).literals, (-l).code < p.watches.size :=
      fun l hl => kept.watched (kept.known _ _ get l hl) rfl
    rw [if_pos long]
    refine (attach_yields kept.indexes get e distinct.1.1 (room a (by simp [e]))
      (room b (by simp [e]))).bind ?_
    rintro _ ⟨ws, rfl, size, indexes⟩
    exact .pure ⟨rfl, ws, rfl, size, indexes⟩

/-- What a state is once a learned clause is kept and its asserting literal is true. -/
structure Recorded (p : Propagation) (d : Learned) (p' : Propagation) : Prop where
  /-- The state is watchful. -/
  watchful : p'.Watchful none p'.next
  /-- There is one clause more. -/
  clauses : p'.clauses = (p.clauses.add (learnedClause p.trail d)).2
  /-- The trail has grown on its level. -/
  trail : p.trail.Extends p'.trail
  /-- The asserting literal has become true. -/
  literals : p'.trail.literals = p.trail.literals ++ [d.asserting]
  /-- It is of the current level, forced by the new clause. -/
  cause : p'.trail.causeAt d.asserting.var = ⟨p.trail.level, some p.clauses.size⟩
  /-- The queue begins where it began. -/
  next : p'.next = p.next

theorem Recorded.level (h : Recorded p d p') :
    p'.trail.levelOf d.asserting.var = p.trail.level := by
  rw [Trail.levelOf_eq, h.cause]

/-- A learned clause is kept and its asserting literal becomes true. -/
theorem record_yields {s : Solver} (h : s.propagation.Learnable d) :
    Yields (s.record d) fun s' => ∃ p', Recorded s.propagation d p' ∧
      s' = { s with propagation := p', learned := s.learned.push s.clauses.size } := by
  have levels := h.hasLevel
  obtain ⟨status, p, learned, statistics, skip⟩ := s
  unfold record
  dsimp only
  rw [if_neg (by simpa using levels)]
  have kept := keep_learned h
  have get := ClauseStore.get?_add_self p.clauses (learnedClause p.trail d)
  have mem := fun l => mem_learnedClause p.trail h.nodup (l := l)
  refine (learn_yields h).bind ?_
  rintro ⟨_, _⟩ ⟨rfl, ws, rfl, size, indexes⟩
  have grounded : Grounded { p with
      clauses := (p.clauses.add (learnedClause p.trail d)).2, watches := ws } :=
    kept.rearranged (.refl _) rfl size rfl
  refine (grounded.enqueue get ((mem _).2 (.inr rfl)) h.notTrue (fun k hk hne => ?_)
    h.notFalse).bind ?_
  · exact h.false k (((mem k).1 hk).resolve_right hne)
  · rintro _ ⟨trail, rfl, grounded', ext, literals, cause⟩
    have true : d.asserting ∈ trail.literals := literals ▸ by simp
    have level : trail.levelOf d.asserting.var = p.trail.level := congrArg Cause.level cause
    refine .pure ⟨{ p with
      clauses := (p.clauses.add (learnedClause p.trail d)).2, watches := ws, trail := trail },
      ⟨?_, rfl, ext, literals, cause, rfl⟩, rfl⟩
    refine kept.settle h.watchful.next_le rfl ext grounded' indexes get (fun l hw hl => ?_)
      fun short => ?_
    · obtain ⟨-, c, a, b, rest, hc, e, which⟩ := hw
      cases get.symm.trans hc
      have first : a = d.asserting := by
        rw [literals_learnedClause _ h.nodup, watchOrder, List.cons.injEq] at e
        exact e.1.symm
      subst first
      rcases which with rfl | rfl
      · exact absurd hl (grounded'.trail.neg_not_mem true)
      · -- the other watched literal is false since the current level
        refine ⟨_, get, d.asserting, (mem _).2 (.inr rfl), true, ?_⟩
        have second : -l ∈ p.trail.literals := by
          refine h.false l (((mem l).1 (by simp [e])).resolve_right ?_)
          rintro rfl
          exact grounded'.trail.neg_not_mem true hl
        have same : trail.levelOf (-l).var = p.trail.levelOf l.var := ext.levelOf second
        change trail.levelOf d.asserting.var ≤ trail.levelOf (-l).var
        rw [same, level]
        exact level_second h e
    · obtain ⟨alone, root⟩ := learned_alone h short
      exact ⟨d.asserting, alone, true, level.trans root⟩

end Solver

end ClauseLearning
