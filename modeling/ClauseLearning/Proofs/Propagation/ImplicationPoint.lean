/-
  The first point through which all chains of reasons pass.

  Model. The literals of the current level and the clause in conflict are a graph. An edge leads to
  a literal from every literal whose negation its reason has, and to the conflict from every literal
  whose negation the clause in conflict has (`Path`). A literal separates the decision of the level
  from the conflict when it is on all paths from the one to the other (`Separates`).

  Rule. `Watchful.firstUip_firstPoint`: the analysis ends at the last literal of the trail that
  separates the two. Its walk traces the edges back (`Traced`): they lead from what was met and
  passed to what was met, every literal of the front has a path to the conflict along what was
  passed, and nothing that was passed separates. For the last one every literal of the level needs a
  path that leads to it from the decision. It has one since everything was propagated before the
  level began (`Watchful.exists_leads`).
-/
import ClauseLearning.Proofs.Propagation.FirstUip
import ClauseLearning.Proofs.Propagation.Watchful

namespace ClauseLearning

/-- The clause `r` has the literal `l`. -/
def ClauseStore.HasLit (s : ClauseStore) (r : ClauseRef) (l : Lit) : Prop :=
  ∃ c, s.get? r = some c ∧ l ∈ c.literals

/-- The literal with which the current level begins. -/
def Trail.decision? (t : Trail) : Option Lit := t.limits.getLast?.bind t.entry?

namespace Propagation

/-- The literal is on the trail, and it is of the current level. -/
def OnLevel (p : Propagation) (l : Lit) : Prop :=
  l ∈ p.trail.literals ∧ p.trail.levelOf l.var = p.trail.level

/-- The reason of `l` has the negation of `q`. -/
def Leads (p : Propagation) (q l : Lit) : Prop :=
  ∃ r, p.trail.reasonOf l.var = some r ∧ p.clauses.HasLit r (-q)

/-- Literals of the current level, each leading to the next one and the last one to the conflict. -/
inductive Path (p : Propagation) (conflict : ClauseRef) : List Lit → Prop
  /-- The negation of the literal is in the clause in conflict. -/
  | last {l : Lit} (on : p.OnLevel l) (false : p.clauses.HasLit conflict (-l)) :
    Path p conflict [l]
  /-- The literal leads to the first one of a path. -/
  | step {q l : Lit} {ls : List Lit} (on : p.OnLevel q) (leads : p.Leads q l)
    (rest : Path p conflict (l :: ls)) : Path p conflict (q :: l :: ls)

/-- The literal is on every path from the decision of the current level to the conflict. -/
def Separates (p : Propagation) (conflict : ClauseRef) (u : Lit) : Prop :=
  ∀ d ls, p.trail.decision? = some d → p.Path conflict (d :: ls) → u ∈ d :: ls

/-- The literal is the first point that separates, counted from the conflict. -/
structure FirstPoint (p : Propagation) (conflict : ClauseRef) (u : Lit) : Prop where
  /-- It is of the current level. -/
  on : p.OnLevel u
  /-- It is on every path. -/
  separates : p.Separates conflict u
  /-- No literal behind it on the trail is. -/
  first : ∀ i j : Nat, ∀ w, p.trail.literals[i]? = some u → i < j →
    p.trail.literals[j]? = some w → ¬ p.Separates conflict w
  /-- There is a path. -/
  path : ∃ d ls, p.trail.decision? = some d ∧ p.Path conflict (d :: ls)

variable {p : Propagation} {conflict r : ClauseRef} {n i k : Nat} {d l q u : Lit} {ls : List Lit}

theorem Path.on (path : p.Path conflict (l :: ls)) : p.OnLevel l := by
  cases path with
  | last on _ => exact on
  | step on _ _ => exact on

/-! ## The graph -/

/-- The places of the current level are those at which no level begins later. -/
theorem onLevel_iff (h : p.trail.Valid) (hi : p.trail.literals[i]? = some l) :
    p.OnLevel l ↔ ∀ m ∈ p.trail.limits, m ≤ i := by
  rw [OnLevel, and_iff_right (List.mem_of_getElem? hi), h.level_eq i l hi, Trail.levelAt,
    ← Trail.length_limits, List.countP_eq_length]
  simp

theorem decision?_of_limit (h : p.trail.Valid) (hi : p.trail.literals[i]? = some l)
    (on : p.OnLevel l) (limit : i ∈ p.trail.limits) : p.trail.decision? = some l := by
  have last : p.trail.limits.getLast? = some i := by
    obtain ⟨m, hm⟩ := Option.ne_none_iff_exists'.1
      (List.getLast?_eq_none_iff.not.2 (List.ne_nil_of_mem limit))
    obtain ⟨front, e⟩ := List.getLast?_eq_some_iff.1 hm
    have le : m ≤ i := (onLevel_iff h hi).1 on m (by simp [e])
    have sorted := h.sorted
    rw [e, List.pairwise_append] at sorted
    rw [e, List.mem_append, List.mem_singleton] at limit
    rcases limit with inside | rfl
    · have ge : i ≤ m := sorted.2.2 i inside m (by simp)
      rw [hm, Nat.le_antisymm le ge]
    · exact hm
  rw [Trail.decision?, last, Option.bind_some, Trail.entry?_eq, hi]

theorem exists_of_decision? (begins : p.trail.decision? = some d) :
    ∃ m ∈ p.trail.limits, p.trail.literals[m]? = some d := by
  obtain ⟨m, last, place⟩ := Option.bind_eq_some_iff.1 begins
  exact ⟨m, List.mem_of_getLast? last, Trail.entry?_eq .. ▸ place⟩

/-- Where everything in front of the current level was propagated, a false literal that is watched
    is of the current level, or it is covered. -/
theorem Watchful.covers_or_onLevel (h : p.Watchful none n)
    (current : ∀ m ∈ p.trail.limits, m ≤ n) (watched : p.clauses.Watches none r l)
    (false : -l ∈ p.trail.literals) : p.Covers r l ∨ p.OnLevel (-l) := by
  by_cases old : -l ∈ p.trail.literals.take n
  · exact .inl (h.guarded r l watched id old)
  · obtain ⟨j, place⟩ := List.getElem?_of_mem false
    have late : n ≤ j := by
      by_contra early
      refine old (List.mem_of_getElem? (i := j) ?_)
      rw [List.getElem?_take, if_pos (Nat.lt_of_not_le early), place]
    exact .inr ((onLevel_iff h.trail.toValid place).2 fun m hm => Nat.le_trans (current m hm) late)

/-- A literal of the current level was decided on, or another one in front of it leads to it: when
    the level began, its reason had two literals that were not false. -/
theorem Watchful.exists_leads (h : p.Watchful none n) (current : ∀ m ∈ p.trail.limits, m ≤ n)
    (above : p.trail.level ≠ 0) (hi : p.trail.literals[i]? = some l) (on : p.OnLevel l)
    (forced : i ∉ p.trail.limits) :
    ∃ q ∈ p.trail.literals.take i, p.OnLevel q ∧ p.Leads q l := by
  obtain ⟨r, reason⟩ : ∃ r, p.trail.reasonOf l.var = some r :=
    Option.ne_none_iff_exists'.1 fun none => forced ((h.trail.reason_iff i l hi).1 none)
  obtain ⟨c, hc, mem, others⟩ := h.forced i l r hi reason
  have second : ∀ x ∈ c.literals, x ≠ l → p.clauses.Watches none r x →
      ∃ q ∈ p.trail.literals.take i, p.OnLevel q ∧ p.Leads q l := by
    intro x hx ne watched
    have front := others x hx ne
    have false := List.mem_of_mem_take front
    refine ⟨-x, front, ?_, r, reason, c, hc, by rwa [Lit.neg_neg]⟩
    rcases h.covers_or_onLevel current watched false with ⟨c', hc', w, hw, true, le⟩ | late
    · -- only `l` can cover it
      cases hc.symm.trans hc'
      obtain rfl : w = l := by
        by_contra other
        exact h.trail.neg_not_mem true (List.mem_of_mem_take (others w hw other))
      exact ⟨false, Nat.le_antisymm (h.trail.levelOf_le false) (on.2 ▸ le)⟩
    · exact late
  match e : c.literals with
  | [] =>
    rw [e] at mem
    cases mem
  | [x] =>
    obtain ⟨y, alone, -, root⟩ := h.rooted r c hc (by simp) (by simp [Clause.length, e])
    rw [alone, List.mem_singleton] at mem
    exact absurd (on.2.symm.trans (mem ▸ root)) above
  | a :: b :: rest =>
    have distinct := h.nodup r c hc
    rw [e, List.nodup_cons, List.mem_cons, not_or] at distinct
    have watched : ∀ x, x = a ∨ x = b → p.clauses.Watches none r x :=
      fun x which => (ClauseStore.watches_iff hc e).2 ⟨by simp, which⟩
    by_cases ha : a = l
    · have other : b ≠ l := fun hb => distinct.1.1 (ha.trans hb.symm)
      exact second b (by simp [e]) other (watched b (.inr rfl))
    · exact second a (by simp [e]) ha (watched a (.inl rfl))

/-- A path to the conflict goes on backwards to the decision, along literals further in front. -/
theorem Watchful.exists_path (h : p.Watchful none n) (current : ∀ m ∈ p.trail.limits, m ≤ n)
    (above : p.trail.level ≠ 0) (hi : p.trail.literals[i]? = some l)
    (path : p.Path conflict (l :: ls)) : ∃ d ls', p.trail.decision? = some d ∧
      p.Path conflict (d :: ls') ∧
      ∀ x ∈ d :: ls', x ∈ l :: ls ∨ x ∈ p.trail.literals.take i := by
  induction i using Nat.strongRecOn generalizing l ls with
  | _ i ih =>
    by_cases limit : i ∈ p.trail.limits
    · exact ⟨l, ls, decision?_of_limit h.trail.toValid hi path.on limit, path, fun x => .inl⟩
    · obtain ⟨q, hq, on, leads⟩ := h.exists_leads current above hi path.on limit
      obtain ⟨j, hj, e⟩ := List.mem_take_iff_getElem.1 hq
      rw [Nat.lt_min] at hj
      have place : p.trail.literals[j]? = some q := by
        rw [List.getElem?_eq_getElem hj.2, e]
      obtain ⟨d, ls', begins, path', along⟩ := ih j hj.1 place (.step on leads path)
      refine ⟨d, ls', begins, path', fun x hx => ?_⟩
      rcases along x hx with mem | front
      · rcases List.mem_cons.1 mem with rfl | mem
        · exact .inr hq
        · exact .inl mem
      · exact .inr ((List.take_prefix_take_left (Nat.le_of_lt hj.1)).subset front)

/-- A literal behind the first one of a path, but not on the path, does not separate. -/
theorem Watchful.not_separates (h : p.Watchful none n) (current : ∀ m ∈ p.trail.limits, m ≤ n)
    (above : p.trail.level ≠ 0) (path : p.Path conflict (l :: ls))
    (front : l ∈ p.trail.literals.take k) (behind : u ∉ p.trail.literals.take k)
    (off : u ∉ ls) : ¬ p.Separates conflict u := by
  intro separates
  obtain ⟨i, hi, e⟩ := List.mem_take_iff_getElem.1 front
  rw [Nat.lt_min] at hi
  have place : p.trail.literals[i]? = some l := by
    rw [List.getElem?_eq_getElem hi.2, e]
  obtain ⟨d, ls', begins, path', along⟩ := h.exists_path current above place path
  rcases along u (separates d ls' begins path') with mem | early
  · rcases List.mem_cons.1 mem with rfl | mem
    · exact behind front
    · exact off mem
  · exact behind ((List.take_prefix_take_left (Nat.le_of_lt hi.1)).subset early)

end Propagation

/-! ## What the walk knows of the graph -/

namespace Analysis

open Propagation

variable {p : Propagation} {a a' : Analysis} {conflict r : ClauseRef} {k : Nat}
  {front front' : List Lit} {l : Lit}

theorem seen_of_meet {t : Trail} (e : meet t a l = .ok a') (v : Var) :
    a'.seen.contains v = true ↔ v = l.var ∨ a.seen.contains v = true := by
  unfold meet at e
  split at e
  · rename_i seen
    cases e
    exact (or_iff_right_of_imp fun same => same ▸ seen).symm
  · obtain ⟨cause, -, e⟩ := Yields.exists_of_bind e
    dsimp only at e
    split at e <;> cases e <;> exact NatSet.contains_add ..

theorem seen_of_meets {t : Trail} {ls : List Lit} (e : ls.foldlM (meet t) a = .ok a') (v : Var) :
    a'.seen.contains v = true ↔ a.seen.contains v = true ∨ ∃ x ∈ ls, x.var = v := by
  induction ls generalizing a with
  | nil =>
    cases e
    simp
  | cons x ls ih =>
    rw [List.foldlM_cons] at e
    obtain ⟨a₁, met, e⟩ := Yields.exists_of_bind e
    rw [ih e, seen_of_meet met, List.exists_mem_cons_iff, eq_comm, or_comm (a := x.var = v),
      or_assoc]

/-- Resolving with a clause, the variables of its literals are seen, and no others. -/
theorem seen_of_resolve {passed : Option Lit} (e : resolve p a r passed = .ok a') (v : Var) :
    a'.seen.contains v = true ↔ a.seen.contains v = true ∨
      ∃ x, p.clauses.HasLit r x ∧ some x ≠ passed ∧ x.var = v := by
  obtain ⟨c, read, e⟩ := Yields.exists_of_bind e
  have hc : p.clauses.get? r = some c := Table.read_eq_ok_iff.1 read
  rw [seen_of_meets e]
  refine or_congr Iff.rfl (exists_congr fun x => ?_)
  rw [List.mem_filter, bne_iff_ne, and_assoc, ClauseStore.HasLit]
  refine and_congr_left fun _ => ⟨fun hx => ⟨c, hc, hx⟩, ?_⟩
  rintro ⟨d, hd, hx⟩
  cases hc.symm.trans hd
  exact hx

/-- The literals from the place `k` on were passed, and the edges from them traced back. -/
structure Traced (p : Propagation) (conflict : ClauseRef) (a : Analysis) (k : Nat)
    (front : List Lit) : Prop where
  /-- What leads to the conflict was met. -/
  blamed : ∀ q, p.OnLevel q → p.clauses.HasLit conflict (-q) → a.seen.contains q.var = true
  /-- So was what leads to a literal that was met and passed. -/
  closed : ∀ q x, p.OnLevel q → p.Leads q x → x ∈ p.trail.literals →
    x ∉ p.trail.literals.take k → a.seen.contains x.var = true → a.seen.contains q.var = true
  /-- From the front there are paths to the conflict along what was passed. -/
  reaches : ∀ f ∈ front, ∃ ls, p.Path conflict (f :: ls) ∧ ∀ x ∈ ls, x ∉ p.trail.literals.take k
  /-- Nothing that was passed separates. -/
  passed : ∀ (j : Nat) w, k ≤ j → p.trail.literals[j]? = some w → ¬ p.Separates conflict w

/-- What is seen after resolving was seen before, or is a variable of the clause. -/
theorem Starts.traced (start : Starts p conflict a front) (h : p.Grounded)
    (false : ∀ x, p.clauses.HasLit conflict x → -x ∈ p.trail.literals) :
    Traced p conflict a p.trail.literals.length front where
  blamed q _ hq := (seen_of_resolve start.outcome _).2 (.inr ⟨-q, hq, by simp, rfl⟩)
  closed q x _ _ hx behind _ := absurd (by rwa [List.take_length]) behind
  reaches f hf := by
    obtain ⟨hf, seen, level⟩ := (start.met.mem_iff f).1 hf
    rw [List.take_length] at hf
    rcases (seen_of_resolve start.outcome _).1 seen with none | ⟨x, hx, -, same⟩
    · simp at none
    · obtain rfl : -x = f := h.trail.eq_of_var_eq (false x hx) hf same
      exact ⟨[], .last ⟨hf, level⟩ (by rwa [Lit.neg_neg]), by simp⟩
  passed j w le place := by
    have inside := (List.getElem?_eq_some_iff.1 place).1
    omega

variable {n : Nat}

/-- The next literal to be passed does not separate when there is another one in front: its path
    leads around. -/
theorem Traced.around (before : Traced p conflict a (k + 1) front) (h : p.Watchful none n)
    (current : ∀ m ∈ p.trail.limits, m ≤ n) (above : p.trail.level ≠ 0)
    (place : p.trail.literals[k]? = some l) {f : Lit} (hf : f ∈ front)
    (further : f ∈ p.trail.literals.take k) (j : Nat) (w : Lit) (le : k ≤ j)
    (hw : p.trail.literals[j]? = some w) : ¬ p.Separates conflict w := by
  rcases Nat.eq_or_lt_of_le le with rfl | lt
  · cases place.symm.trans hw
    obtain ⟨ls, path, behind⟩ := before.reaches f hf
    exact h.not_separates current above path further (not_mem_take h.trail.nodup place)
      fun hl => behind l hl ((mem_take_succ place).2 (.inr rfl))
  · exact before.passed j w lt hw

/-- Passing a literal that was not met. -/
theorem Traced.pass (before : Traced p conflict a (k + 1) front) (h : p.Watchful none n)
    (current : ∀ m ∈ p.trail.limits, m ≤ n) (above : p.trail.level ≠ 0)
    (met : Met p a k front) (some : front ≠ []) (place : p.trail.literals[k]? = Option.some l)
    (new : a.seen.contains l.var = false) : Traced p conflict a k front where
  blamed := before.blamed
  closed q x hq leads hx behind seen := by
    refine before.closed q x hq leads hx (fun further => ?_) seen
    rcases (mem_take_succ place).1 further with front | rfl
    · exact behind front
    · rw [new] at seen
      cases seen
  reaches f hf := by
    obtain ⟨ls, path, behind⟩ := before.reaches f hf
    exact ⟨ls, path, fun x hx further => behind x hx ((mem_take_succ place).2 (.inl further))⟩
  passed := by
    obtain ⟨f, hf⟩ := List.exists_mem_of_ne_nil _ some
    exact before.around h current above place hf ((met.mem_iff f).1 hf).1

/-- Resolving on a literal of the front. -/
theorem Traced.resolve (before : Traced p conflict a (k + 1) front) (h : p.Watchful none n)
    (current : ∀ m ∈ p.trail.limits, m ≤ n) (above : p.trail.level ≠ 0)
    (step : Resolves p a k front l r a' front') : Traced p conflict a' k front' := by
  have seen := seen_of_resolve step.outcome
  obtain ⟨c, hc, -, others⟩ := h.forced k l r step.place step.reason
  -- the variables of the reason that are seen now are those of literals in front of this place
  have met : ∀ x v, p.clauses.HasLit r x → some x ≠ some l → x.var = v →
      ∀ y ∈ p.trail.literals, y.var = v → y = -x ∧ y ∈ p.trail.literals.take k := by
    rintro x v ⟨c', hc', hx⟩ ne same y hy same'
    cases hc.symm.trans hc'
    have false := others x hx fun e => ne (congrArg some e)
    obtain rfl : y = -x := h.trail.eq_of_var_eq hy (List.mem_of_mem_take false)
      (same'.trans same.symm)
    exact ⟨rfl, false⟩
  refine ⟨fun q hq leads => (seen _).2 (.inl (before.blamed q hq leads)), ?_, fun f hf => ?_, ?_⟩
  · intro q x hq leads hx behind seen'
    refine (seen _).2 ?_
    by_cases e : x = l
    · obtain ⟨r', reason, leads⟩ := e ▸ leads
      cases step.reason.symm.trans reason
      refine .inr ⟨-q, leads, fun same => ?_, rfl⟩
      refine h.trail.neg_not_mem hq.1 ?_
      rw [Option.some.inj same, ← e]
      exact hx
    · refine .inl (before.closed q x hq leads hx (fun further => ?_) ?_)
      · exact ((mem_take_succ step.place).1 further).elim behind e
      · refine ((seen _).1 seen').resolve_right ?_
        rintro ⟨y, hy, ne, same⟩
        exact behind (met y _ hy ne same x hx rfl).2
  · obtain ⟨further, seen', level⟩ := (step.after.mem_iff f).1 hf
    rcases (seen _).1 seen' with old | ⟨x, hx, ne, same⟩
    · have further' := (mem_take_succ step.place).2 (.inl further)
      obtain ⟨ls, path, behind⟩ := before.reaches f
        ((step.before.mem_iff f).2 ⟨further', old, level⟩)
      exact ⟨ls, path, fun x hx mem => behind x hx ((mem_take_succ step.place).2 (.inl mem))⟩
    · have true := List.mem_of_mem_take further
      obtain ⟨rfl, -⟩ := met x _ hx ne same f true rfl
      obtain ⟨ls, path, behind⟩ := before.reaches l step.mem
      refine ⟨l :: ls, .step ⟨true, level⟩ ⟨r, step.reason, by rwa [Lit.neg_neg]⟩ path, ?_⟩
      intro y hy mem
      rcases List.mem_cons.1 hy with rfl | hy
      · exact not_mem_take h.trail.nodup step.place mem
      · exact behind y hy ((mem_take_succ step.place).2 (.inl mem))
  · obtain ⟨f, hf⟩ := List.exists_mem_of_ne_nil _ step.many
    have further := ((step.before.passFront h.toGrounded step.place step.mem).mem_iff f).1 hf
    exact before.around h current above step.place (List.mem_of_mem_erase hf) further.1

/-- A path backwards from the conflict meets the literal that is alone in front, or what it has met
    so far was passed. -/
theorem Traced.mem_or_passed (before : Traced p conflict a k [l]) (met : Met p a k [l])
    {ls : List Lit} (path : p.Path conflict ls) :
    l ∈ ls ∨ ∀ q ∈ ls.head?, a.seen.contains q.var = true ∧ q ∉ p.trail.literals.take k := by
  have settled : ∀ q, p.OnLevel q → a.seen.contains q.var = true →
      l = q ∨ q ∉ p.trail.literals.take k := by
    intro q on seen
    by_cases further : q ∈ p.trail.literals.take k
    · exact .inl (List.mem_singleton.1 ((met.mem_iff q).2 ⟨further, seen, on.2⟩)).symm
    · exact .inr further
  induction path with
  | @last q on false =>
    have seen := before.blamed q on false
    rcases settled q on seen with rfl | passed
    · exact .inl (.head _)
    · exact .inr (by simpa using ⟨seen, passed⟩)
  | @step q x ls on leads rest ih =>
    rcases ih with mem | passed
    · exact .inl (.tail _ mem)
    · obtain ⟨seenX, behind⟩ := passed x rfl
      have seen := before.closed q x on leads rest.on.1 behind seenX
      rcases settled q on seen with rfl | passed
      · exact .inl (.head _)
      · exact .inr (by simpa using ⟨seen, passed⟩)

end Analysis

namespace Propagation

variable {p : Propagation} {conflict : ClauseRef} {n : Nat}

/-- Above the root the analysis ends at the first point that separates the decision of the level
    from the conflict. -/
theorem Watchful.firstUip_firstPoint (h : p.Watchful none n) (current : ∀ m ∈ p.trail.limits, m ≤ n)
    (above : p.trail.level ≠ 0) (conflicts : p.Conflicts conflict) :
    Yields (p.firstUip conflict) fun d => p.FirstPoint conflict (-d.asserting) := by
  have grounded := h.toGrounded
  have false : ∀ x, p.clauses.HasLit conflict x → -x ∈ p.trail.literals := by
    obtain ⟨c, hc, false, -⟩ := conflicts
    rintro x ⟨d, hd, hx⟩
    cases hc.symm.trans hd
    exact false x hx
  refine (firstUip_keeps (Analysis.Traced p conflict) grounded conflicts ?_ ?_ ?_).mono ?_
  · exact fun a front start => start.traced grounded false
  · exact fun a k front l met some place new before =>
      before.pass h current above met some place new
  · exact fun a k front l r a' front' step before => before.resolve h current above step
  · rintro d ⟨a, k, u, ⟨met, place, rfl⟩, traced⟩
    dsimp only
    rw [Lit.neg_neg]
    have on : p.OnLevel u := ⟨List.mem_of_getElem? place,
      met.level_of_last grounded place (List.cons_ne_nil _ _)⟩
    refine ⟨on, fun d ls begins path => ?_, fun i j w hi lt hj => ?_, ?_⟩
    · refine (traced.mem_or_passed met path).resolve_right fun passed => ?_
      -- the level began with the decision, so it is not behind the literal
      obtain ⟨m, limit, hm⟩ := exists_of_decision? begins
      have le : m ≤ k := (onLevel_iff h.trail.toValid place).1 on m limit
      refine (passed d rfl).2 (List.mem_of_getElem? (i := m) ?_)
      rw [List.getElem?_take, if_pos (Nat.lt_succ_of_le le), hm]
    · have inside := (List.getElem?_eq_some_iff.1 hi).1
      have same : i = k := (List.getElem?_inj inside h.trail.nodup).1 (hi.trans place.symm)
      exact traced.passed j w (same ▸ lt) hj
    · obtain ⟨ls, path, -⟩ := traced.reaches u (List.mem_singleton.2 rfl)
      obtain ⟨d, ls', begins, path', -⟩ := h.exists_path current above place path
      exact ⟨d, ls', begins, path'⟩

end Propagation

end ClauseLearning
