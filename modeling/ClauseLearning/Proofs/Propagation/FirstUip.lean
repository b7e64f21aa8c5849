/-
  Conflict analysis is sound and complete.

  Model. `front` is what the number `pending` counts: the literals of the current level that were
  met and not yet passed. The literals met and the front make up the clause resolved so far: it
  consists of the literals met on earlier levels and the negations of the front, and it follows
  from the clauses resolved (`Analysis.Met`, `Analysis.Follows`).

  Rule. `firstUip_yields`: the analysis of a clause in conflict on the current level ends without
  a fault. The learned clause follows from its antecedents, all its literals are false, exactly
  the asserting one is of the current level, and the backjump level is the highest among the
  others (`Asserts`).
-/
import ClauseLearning.Propagation.FirstUip
import ClauseLearning.Proofs.Propagation.Grounded

namespace ClauseLearning

theorem NatSet.contains_add (s : NatSet) (k j : Nat) :
    (s.add k).contains j = true ↔ j = k ∨ s.contains j = true := by
  rw [NatSet.add, NatMap.contains_insert, Bool.or_eq_true, beq_iff_eq]

/-- What a clause learned from a conflict is. -/
structure Propagation.Asserts (p : Propagation) (d : Learned) : Prop where
  /-- The asserting literal is false. -/
  asserting : -d.asserting ∈ p.trail.literals
  /-- It is of the current level. -/
  current : p.trail.levelOf d.asserting.var = p.trail.level
  /-- The others are false, and of earlier levels. -/
  earlier : ∀ l ∈ d.others, -l ∈ p.trail.literals ∧ p.trail.levelOf l.var < p.trail.level
  /-- Each of them is there once. -/
  nodup : d.others.Nodup
  /-- The backjump level is not below the levels of the others. -/
  level_le : ∀ l ∈ d.others, p.trail.levelOf l.var ≤ d.backjump
  /-- It is one of them, or the root. -/
  level_eq : d.others = [] ∧ d.backjump = 0 ∨
    ∃ l ∈ d.others, p.trail.levelOf l.var = d.backjump
  /-- The clause was resolved from clauses that are kept. -/
  kept : ∀ r ∈ d.antecedents, r < p.clauses.size
  /-- They entail it. -/
  entails : p.clauses.Entails d.antecedents d.literals

namespace Analysis

variable {p : Propagation} {a : Analysis} {k : Nat} {front : List Lit} {l : Lit}

/-- What the analysis has met, when the literals from the place `k` on were passed. -/
structure Met (p : Propagation) (a : Analysis) (k : Nat) (front : List Lit) : Prop where
  /-- The front are the literals of the current level met and not passed. -/
  mem_iff : ∀ l, l ∈ front ↔ l ∈ p.trail.literals.take k ∧ a.seen.contains l.var = true ∧
    p.trail.levelOf l.var = p.trail.level
  /-- Each of them is there once. -/
  once : front.Nodup
  /-- They are counted. -/
  pending : a.pending = front.length
  /-- The others were met; they are false, and of earlier levels. -/
  earlier : ∀ l ∈ a.others, -l ∈ p.trail.literals ∧
    p.trail.levelOf l.var ≠ p.trail.level ∧ a.seen.contains l.var = true
  /-- Nothing that was met is forgotten. -/
  complete : ∀ l ∈ p.trail.literals, a.seen.contains l.var = true →
    p.trail.levelOf l.var ≠ p.trail.level → -l ∈ a.others
  /-- Each of the others is there once. -/
  nodup : a.others.Nodup
  /-- The backjump level is not below the levels of the others. -/
  level_le : ∀ l ∈ a.others, p.trail.levelOf l.var ≤ a.backjump
  /-- It is one of them, or the root. -/
  level_eq : a.others = [] ∧ a.backjump = 0 ∨
    ∃ l ∈ a.others, p.trail.levelOf l.var = a.backjump

/-- At first nothing was met and nothing was passed. -/
theorem Met.start (p : Propagation) :
    Met p ⟨.empty, 0, [], 0, []⟩ p.trail.literals.length [] where
  mem_iff x := by simp
  once := .nil
  pending := rfl
  earlier x hx := by cases hx
  complete x _ seen := by simp at seen
  nodup := .nil
  level_le x hx := by cases hx
  level_eq := .inl ⟨rfl, rfl⟩

/-- The analysis has gone on: it has met the literals `ls` besides what it had met. -/
def MetMore (p : Propagation) (a : Analysis) (k : Nat) (front ls : List Lit) (a' : Analysis) :
    Prop :=
  ∃ front', Met p a' k front' ∧ front ⊆ front' ∧ a.others ⊆ a'.others ∧
    (∀ l ∈ ls, l ∈ a'.others ∨ -l ∈ front') ∧ a'.antecedents = a.antecedents

/-- Meeting a new literal of the current level. -/
theorem Met.meetCurrent (met : Met p a k front) (h : p.Grounded)
    (hl : -l ∈ p.trail.literals.take k) (new : ¬ a.seen.contains l.var = true)
    (level : p.trail.levelOf l.var = p.trail.level) :
    Met p { a with seen := a.seen.add l.var, pending := a.pending + 1 } k (-l :: front) where
  mem_iff x := by
    rw [List.mem_cons, met.mem_iff, NatSet.contains_add]
    constructor
    · rintro (rfl | ⟨hx, seen, level'⟩)
      · exact ⟨hl, .inl rfl, level⟩
      · exact ⟨hx, .inr seen, level'⟩
    · rintro ⟨hx, e | seen, level'⟩
      · exact .inl (h.trail.eq_of_var_eq (List.mem_of_mem_take hx) (List.mem_of_mem_take hl) e)
      · exact .inr ⟨hx, seen, level'⟩
  once := by
    have absent : -l ∉ front := fun hmem => new ((met.mem_iff _).1 hmem).2.1
    exact List.nodup_cons.2 ⟨absent, met.once⟩
  pending := by rw [met.pending, List.length_cons]
  earlier x hx := by
    obtain ⟨hx', other, seen⟩ := met.earlier x hx
    exact ⟨hx', other, (NatSet.contains_add ..).2 (.inr seen)⟩
  complete x hx seen other := by
    rcases (NatSet.contains_add ..).1 seen with e | seen
    · exact absurd (e ▸ level) other
    · exact met.complete x hx seen other
  nodup := met.nodup
  level_le := met.level_le
  level_eq := met.level_eq

/-- Meeting a new literal of an earlier level. -/
theorem Met.meetEarlier (met : Met p a k front) (h : p.Grounded)
    (false : -l ∈ p.trail.literals) (new : ¬ a.seen.contains l.var = true)
    (level : p.trail.levelOf l.var ≠ p.trail.level) :
    Met p { a with
      seen := a.seen.add l.var
      others := l :: a.others
      backjump := max a.backjump (p.trail.levelOf l.var) } k front where
  mem_iff x := by
    rw [met.mem_iff, NatSet.contains_add]
    refine and_congr_right fun hx => and_congr_left fun level' => ?_
    exact (or_iff_right fun (e : x.var = l.var) => level (e ▸ level')).symm
  once := met.once
  pending := met.pending
  earlier x hx := by
    rcases List.mem_cons.1 hx with rfl | hx
    · exact ⟨false, level, (NatSet.contains_add ..).2 (.inl rfl)⟩
    · obtain ⟨hx', other, seen⟩ := met.earlier x hx
      exact ⟨hx', other, (NatSet.contains_add ..).2 (.inr seen)⟩
  complete x hx seen other := by
    rcases (NatSet.contains_add ..).1 seen with e | seen
    · rw [h.trail.eq_of_var_eq hx false e, Lit.neg_neg]
      exact .head _
    · exact .tail _ (met.complete x hx seen other)
  nodup := by
    have absent : l ∉ a.others := fun hmem => new (met.earlier l hmem).2.2
    exact List.nodup_cons.2 ⟨absent, met.nodup⟩
  level_le x hx := by
    rcases List.mem_cons.1 hx with rfl | hx
    · exact Nat.le_max_right ..
    · exact Nat.le_trans (met.level_le x hx) (Nat.le_max_left ..)
  level_eq := by
    refine .inr ?_
    rcases Nat.le_total a.backjump (p.trail.levelOf l.var) with le | le
    · exact ⟨l, .head _, (Nat.max_eq_right le).symm⟩
    · rcases met.level_eq with ⟨-, zero⟩ | ⟨x, hx, e⟩
      · refine ⟨l, .head _, (Nat.max_eq_right ?_).symm⟩
        rw [zero]
        exact Nat.zero_le _
      · exact ⟨x, .tail _ hx, e.trans (Nat.max_eq_left le).symm⟩

/-- A false literal of a clause is met. -/
theorem meet_yields (h : p.Grounded) (met : Met p a k front)
    (hl : -l ∈ p.trail.literals.take k) :
    Yields (meet p.trail a l) (MetMore p a k front [l]) := by
  have false := List.mem_of_mem_take hl
  have cause : p.trail.causeOf l.var = .ok (p.trail.causeAt l.var) :=
    h.trail.causeOf_mem (l := -l) false
  unfold meet
  split
  · rename_i seen
    refine .pure ⟨front, met, fun _ h => h, fun _ h => h, fun x hx => ?_, rfl⟩
    rw [List.mem_singleton.1 hx]
    by_cases level : p.trail.levelOf l.var = p.trail.level
    · exact .inr ((met.mem_iff _).2 ⟨hl, seen, level⟩)
    · have := met.complete (-l) false seen level
      exact .inl (by rwa [Lit.neg_neg] at this)
  · rename_i new
    rw [cause]
    refine .ok_bind ?_
    dsimp only
    rw [← Trail.levelOf_eq]
    split
    · rename_i level
      exact .pure ⟨-l :: front, met.meetCurrent h hl new level, fun _ h => .tail _ h,
        fun _ h => h, by simp, rfl⟩
    · rename_i level
      exact .pure ⟨front, met.meetEarlier h false new level, fun _ h => h,
        fun _ h => .tail _ h, by simp, rfl⟩

/-- The other literals of a clause are met. -/
theorem resolve_yields (h : p.Grounded) (met : Met p a k front) {r : ClauseRef} {c : Clause}
    (hc : p.clauses.get? r = some c) (passed : Option Lit)
    (false : ∀ l ∈ c.literals, some l ≠ passed → -l ∈ p.trail.literals.take k) :
    Yields (resolve p a r passed)
      (MetMore p { a with antecedents := r :: a.antecedents } k front
        (c.literals.filter fun l => some l != passed)) := by
  unfold resolve
  rw [ClauseStore.read_eq hc]
  refine .ok_bind ?_
  have start : Met p { a with antecedents := r :: a.antecedents } k front :=
    ⟨met.mem_iff, met.once, met.pending, met.earlier, met.complete, met.nodup, met.level_le,
      met.level_eq⟩
  refine Yields.foldlM (MetMore p { a with antecedents := r :: a.antecedents } k front) _
    ⟨front, start, fun _ h => h, fun _ h => h, by simp, rfl⟩ fun done l hl a₁ met₁ => ?_
  obtain ⟨front₁, met₁, sub₁, keep₁, all₁, same₁⟩ := met₁
  rw [List.mem_filter, bne_iff_ne] at hl
  refine (meet_yields h met₁ (false l hl.1 hl.2)).mono fun a₂ met₂ => ?_
  obtain ⟨front₂, met₂, sub₂, keep₂, all₂, same₂⟩ := met₂
  refine ⟨front₂, met₂, List.Subset.trans sub₁ sub₂, List.Subset.trans keep₁ keep₂,
    fun x hx => ?_, same₂.trans same₁⟩
  rcases List.mem_append.1 hx with hx | hx
  · exact (all₁ x hx).imp (fun h => keep₂ h) fun h => sub₂ h
  · exact all₂ x hx

/-! ## The walk -/

/-- The literals in front of the next place are those in front of this one, and the one here. -/
theorem mem_take_succ {ls : List Lit} (hk : ls[k]? = some l) {x : Lit} :
    x ∈ ls.take (k + 1) ↔ x ∈ ls.take k ∨ x = l := by
  rw [List.take_add_one, hk, List.mem_append, Option.toList_some, List.mem_singleton]

theorem not_mem_take {ls : List Lit} (nodup : ls.Nodup) (hk : ls[k]? = some l) :
    l ∉ ls.take k := by
  intro hl
  obtain ⟨i, hi, e⟩ := List.mem_take_iff_getElem.1 hl
  rw [Nat.lt_min] at hi
  have same : ls[i]? = ls[k]? := by rw [hk, List.getElem?_eq_getElem hi.2, e]
  exact Nat.ne_of_lt hi.1 ((List.getElem?_inj hi.2 nodup).1 same)

/-- Of the literals not yet passed the newest one is of the current level, if any of these is in
    front. -/
theorem Met.level_of_last (met : Met p a (k + 1) front) (h : p.Grounded)
    (hk : p.trail.literals[k]? = some l) (pos : front ≠ []) :
    p.trail.levelOf l.var = p.trail.level := by
  obtain ⟨f, hf⟩ := List.exists_mem_of_ne_nil _ pos
  obtain ⟨hf, -, level⟩ := (met.mem_iff f).1 hf
  obtain ⟨i, hi, rfl⟩ := List.mem_take_iff_getElem.1 hf
  have at_i := h.trail.level_eq i _ (List.getElem?_eq_getElem (by omega))
  have mono : p.trail.levelAt i ≤ p.trail.levelAt k := p.trail.levelAt_mono (by omega)
  refine Nat.le_antisymm (h.trail.levelOf_le (List.mem_of_getElem? hk)) ?_
  rw [h.trail.level_eq k l hk, ← level, at_i]
  exact mono

/-- Passing a literal that was not met. -/
theorem Met.pass (met : Met p a (k + 1) front) (hk : p.trail.literals[k]? = some l)
    (new : a.seen.contains l.var = false) : Met p a k front := by
  refine { met with mem_iff := fun x => ?_ }
  rw [met.mem_iff, mem_take_succ hk]
  refine ⟨fun ⟨hx, seen, level⟩ => ⟨hx.resolve_right fun e => ?_, seen, level⟩,
    fun ⟨hx, rest⟩ => ⟨.inl hx, rest⟩⟩
  rw [e, new] at seen
  cases seen

/-- Passing a literal of the front. -/
theorem Met.passFront (met : Met p a (k + 1) front) (h : p.Grounded)
    (hk : p.trail.literals[k]? = some l) (hl : l ∈ front) :
    Met p { a with pending := a.pending - 1 } k (front.erase l) where
  mem_iff x := by
    rw [met.once.mem_erase_iff, met.mem_iff, mem_take_succ hk]
    constructor
    · rintro ⟨hne, hx, rest⟩
      exact ⟨hx.resolve_right hne, rest⟩
    · rintro ⟨hx, rest⟩
      refine ⟨?_, .inl hx, rest⟩
      rintro rfl
      exact not_mem_take h.trail.nodup hk hx
  once := met.once.erase l
  pending := by
    rw [List.length_erase_of_mem hl, ← met.pending]
  earlier := met.earlier
  complete := met.complete
  nodup := met.nodup
  level_le := met.level_le
  level_eq := met.level_eq

/-- A literal of the front that is not alone in it was forced. -/
theorem Met.forced (met : Met p a (k + 1) front) (h : p.Grounded)
    (hk : p.trail.literals[k]? = some l) (hl : l ∈ front) (many : front.erase l ≠ []) :
    ∃ r, p.trail.reasonOf l.var = some r ∧ p.Forces r l k := by
  obtain ⟨f, hf⟩ := List.exists_mem_of_ne_nil _ many
  obtain ⟨hf, -, level⟩ := ((met.passFront h hk hl).mem_iff f).1 hf
  obtain ⟨i, hi, rfl⟩ := List.mem_take_iff_getElem.1 hf
  have at_i := h.trail.level_eq i _ (List.getElem?_eq_getElem (by omega))
  have at_k := h.trail.level_eq k l hk
  rw [((met.mem_iff l).1 hl).2.2] at at_k
  -- a decision would have opened a level between the two
  have decided : ¬ k ∈ p.trail.limits := by
    intro hmem
    have := Trail.levelAt_lt hmem (i := i) (by omega)
    omega
  have some := (h.trail.reason_iff k l hk).not.2 decided
  obtain ⟨r, hr⟩ := Option.ne_none_iff_exists'.1 some
  exact ⟨r, hr, h.forced k l r hk hr⟩

/-- With one literal left in the front, its negation is the asserting literal. -/
theorem Met.asserts (met : Met p a k [l]) (h : p.Grounded) (mem : l ∈ p.trail.literals)
    (level : p.trail.levelOf l.var = p.trail.level)
    (kept : ∀ r ∈ a.antecedents, r < p.clauses.size)
    (entails : p.clauses.Entails a.antecedents (a.others ++ [-l])) :
    p.Asserts ⟨a.others.reverse, -l, a.backjump, a.antecedents.reverse⟩ where
  asserting := by rwa [Lit.neg_neg]
  current := level
  earlier x hx := by
    obtain ⟨false, other, -⟩ := met.earlier x (List.mem_reverse.1 hx)
    exact ⟨false, Nat.lt_of_le_of_ne (h.trail.levelOf_le (l := -x) false) other⟩
  nodup := List.nodup_reverse.2 met.nodup
  level_le x hx := met.level_le x (List.mem_reverse.1 hx)
  level_eq := by simpa using met.level_eq
  kept r hr := kept r (List.mem_reverse.1 hr)
  entails m hm := by
    refine (entails m fun r hr => hm r (List.mem_reverse.2 hr)).subset fun x hx => ?_
    simpa [Learned.literals] using hx

/-- Resolving on a literal of the front: with the clause that forced it, the literals that are
    left follow. -/
theorem entails_resolve {s : ClauseStore} {refs : List ClauseRef} {r : ClauseRef} {c : Clause}
    {others others' front' : List Lit}
    (entails : s.Entails refs (others ++ front.map fun l => -l)) (hc : s.get? r = some c)
    (keep : others ⊆ others') (sub : front.erase l ⊆ front')
    (all : ∀ x ∈ c.literals, x ≠ l → x ∈ others' ∨ -x ∈ front') :
    s.Entails (r :: refs) (others' ++ front'.map fun l => -l) := by
  intro m hm
  have left : ∀ x ∈ c.literals, x ≠ l → x.Holds m →
      m.Satisfies (others' ++ front'.map fun l => -l) := by
    intro x hx ne holds
    refine ⟨x, ?_, holds⟩
    rw [List.mem_append, List.mem_map]
    exact (all x hx ne).imp id fun hn => ⟨-x, hn, Lit.neg_neg x⟩
  obtain ⟨x, hx, holds⟩ := entails m fun q hq => hm q (.tail _ hq)
  rw [List.mem_append, List.mem_map] at hx
  rcases hx with hx | ⟨f, hf, rfl⟩
  · exact ⟨x, List.mem_append_left _ (keep hx), holds⟩
  · by_cases e : f = l
    · -- the literal is false, so another one of its reason is true
      subst e
      obtain ⟨x, hx, holds'⟩ := hm r (.head _) c hc
      exact left x hx (fun e => Lit.holds_neg.1 holds (e ▸ holds')) holds'
    · refine ⟨-f, List.mem_append_right _ (List.mem_map.2 ⟨f, ?_, rfl⟩), holds⟩
      exact sub ((List.mem_erase_of_ne e).2 hf)

/-- The analysis resolves on the literal `l` of the front, at the place `k`, with the clause `r`
    that forced it. -/
structure Resolves (p : Propagation) (a : Analysis) (k : Nat) (front : List Lit) (l : Lit)
    (r : ClauseRef) (a' : Analysis) (front' : List Lit) : Prop where
  /-- What was met before. -/
  before : Met p a (k + 1) front
  /-- The literal is at this place. -/
  place : p.trail.literals[k]? = some l
  /-- It is in front. -/
  mem : l ∈ front
  /-- It is not alone there. -/
  many : front.erase l ≠ []
  /-- The clause has forced it. -/
  reason : p.trail.reasonOf l.var = some r
  /-- The literals of the clause are met. -/
  outcome : resolve p { a with pending := a.pending - 1 } r (some l) = .ok a'
  /-- What is met then. -/
  after : Met p a' k front'
  /-- The rest of the front stays. -/
  sub : front.erase l ⊆ front'
  /-- So do the literals of earlier levels. -/
  keep : a.others ⊆ a'.others
  /-- Every other literal of the clause is among them or has its negation in front. -/
  all : ∀ c, p.clauses.get? r = some c → ∀ x ∈ c.literals, x ≠ l → x ∈ a'.others ∨ -x ∈ front'
  /-- The clause is kept. -/
  kept : r < p.clauses.size
  /-- It is the last antecedent. -/
  antecedents : a'.antecedents = r :: a.antecedents

/-- A literal of the front that is not alone in it can be resolved on. -/
theorem Met.resolves (met : Met p a (k + 1) front) (h : p.Grounded)
    (hk : p.trail.literals[k]? = some l) (hl : l ∈ front) (many : front.erase l ≠ []) :
    ∃ r a' front', Resolves p a k front l r a' front' := by
  obtain ⟨r, reason, c, hc, mem, others⟩ := met.forced h hk hl many
  have false : ∀ x ∈ c.literals, some x ≠ some l → -x ∈ p.trail.literals.take k :=
    fun x hx hne => others x hx fun e => hne (congrArg some e)
  obtain ⟨a', outcome, front', met', sub, keep, all, same⟩ :=
    resolve_yields h (met.passFront h hk hl) hc _ false
  refine ⟨r, a', front', met, hk, hl, many, reason, outcome, met', sub, keep,
    fun d hd x hx ne => ?_, ClauseStore.lt_size_of_get? hc, same⟩
  cases hd.symm.trans hc
  refine all x ?_
  rw [List.mem_filter, bne_iff_ne]
  exact ⟨hx, fun e => ne (Option.some.inj e)⟩

/-- The analysis has met the literals of the clause in conflict. -/
structure Starts (p : Propagation) (conflict : ClauseRef) (a : Analysis) (front : List Lit) :
    Prop where
  /-- The literals of the clause are met. -/
  outcome : resolve p ⟨.empty, 0, [], 0, []⟩ conflict none = .ok a
  /-- What is met then. -/
  met : Met p a p.trail.literals.length front
  /-- One of them is of the current level. -/
  some : front ≠ []
  /-- Every literal of the clause is of an earlier level or has its negation in front. -/
  all : ∀ c, p.clauses.get? conflict = Option.some c → ∀ x ∈ c.literals, x ∈ a.others ∨ -x ∈ front
  /-- The clause is kept. -/
  kept : conflict < p.clauses.size
  /-- It is the only antecedent. -/
  antecedents : a.antecedents = [conflict]

theorem exists_starts {conflict : ClauseRef} (h : p.Grounded) (conflicts : p.Conflicts conflict) :
    ∃ a front, Starts p conflict a front := by
  obtain ⟨c, hc, false, l, hl, level⟩ := conflicts
  have inside : ∀ x ∈ c.literals, some x ≠ none →
      -x ∈ p.trail.literals.take p.trail.literals.length := by
    intro x hx _
    rw [List.take_length]
    exact false x hx
  obtain ⟨a, outcome, front, met, -, -, all, same⟩ := resolve_yields h (.start p) hc none inside
  have every : ∀ x ∈ c.literals, x ∈ a.others ∨ -x ∈ front := by
    intro x hx
    refine all x ?_
    rw [List.mem_filter]
    exact ⟨hx, rfl⟩
  refine ⟨a, front, outcome, met, ?_, fun d hd => ?_, ClauseStore.lt_size_of_get? hc, same⟩
  · rcases every l hl with hmem | hmem
    · exact absurd level (met.earlier l hmem).2.1
    · exact List.ne_nil_of_mem hmem
  · cases hd.symm.trans hc
    exact every

/-- The clause resolved so far consists of the literals met on earlier levels and the negations of
    the front; it follows from the antecedents. -/
structure Follows (p : Propagation) (a : Analysis) (front : List Lit) : Prop where
  /-- The antecedents are kept. -/
  kept : ∀ r ∈ a.antecedents, r < p.clauses.size
  /-- They entail the clause. -/
  entails : p.clauses.Entails a.antecedents (a.others ++ front.map fun l => -l)

theorem Starts.follows {conflict : ClauseRef} (start : Starts p conflict a front) :
    a.Follows p front := by
  obtain ⟨c, hc⟩ := ClauseStore.get?_isSome_of_lt start.kept
  constructor <;> rw [start.antecedents]
  · exact fun q hq => List.mem_singleton.1 hq ▸ start.kept
  · intro m hm
    obtain ⟨x, hx, holds⟩ := hm conflict (.head _) c hc
    refine ⟨x, ?_, holds⟩
    rw [List.mem_append, List.mem_map]
    exact (start.all c hc x hx).imp id fun h => ⟨-x, h, Lit.neg_neg x⟩

theorem Follows.resolve {r : ClauseRef} {a' : Analysis} {front' : List Lit}
    (before : a.Follows p front) (step : Resolves p a k front l r a' front') :
    a'.Follows p front' := by
  obtain ⟨c, hc⟩ := ClauseStore.get?_isSome_of_lt step.kept
  constructor <;> rw [step.antecedents]
  · intro q hq
    rcases List.mem_cons.1 hq with rfl | hq
    · exact step.kept
    · exact before.kept q hq
  · exact entails_resolve before.entails hc step.keep step.sub (step.all c hc)

/-- With the literal `l` alone in front, at the place `k`, the analysis ends with `d`. -/
structure Stops (p : Propagation) (a : Analysis) (k : Nat) (l : Lit) (d : Learned) : Prop where
  /-- What was met. -/
  met : Met p a (k + 1) [l]
  /-- The literal is at this place. -/
  place : p.trail.literals[k]? = some l
  /-- Its negation is the asserting literal. -/
  result : d = ⟨a.others.reverse, -l, a.backjump, a.antecedents.reverse⟩

/-- The walk comes to a place where one literal is in front. It keeps what passing a literal that
    was not met keeps, and resolving on one that was met. -/
theorem walk_keeps (inv : Analysis → Nat → List Lit → Prop) (h : p.Grounded)
    (passes : ∀ a k front l, Met p a k front → front ≠ [] → p.trail.literals[k]? = some l →
      a.seen.contains l.var = false → inv a (k + 1) front → inv a k front)
    (resolves : ∀ a k front l r a' front', Resolves p a k front l r a' front' →
      inv a (k + 1) front → inv a' k front')
    (older : List Lit) {a : Analysis} {front : List Lit}
    (met : Met p a older.length front) (before : older.reverse <+: p.trail.literals)
    (some : front ≠ []) (start : inv a older.length front) :
    Yields (walk p a older) fun d => ∃ a k l, Stops p a k l d ∧ inv a (k + 1) [l] := by
  induction older generalizing a front with
  | nil =>
    obtain ⟨f, hf⟩ := List.exists_mem_of_ne_nil _ some
    have := ((met.mem_iff f).1 hf).1
    simp at this
  | cons l older ih =>
    rw [List.length_cons] at met start
    rw [List.reverse_cons] at before
    have before' : older.reverse <+: p.trail.literals := (List.prefix_append ..).trans before
    have hk : p.trail.literals[older.length]? = Option.some l := by
      obtain ⟨passed, e⟩ := before
      rw [← e, List.append_assoc, List.getElem?_append_right (by simp)]
      simp
    unfold walk
    split
    · rename_i new
      have new : a.seen.contains l.var = false := by simpa using new
      have passed := met.pass hk new
      exact ih passed before' some (passes a _ front l passed some hk new start)
    · rename_i seen
      have last : l ∈ p.trail.literals.take (older.length + 1) := (mem_take_succ hk).2 (.inr rfl)
      have hl : l ∈ front :=
        (met.mem_iff l).2 ⟨last, by simpa using seen, met.level_of_last h hk some⟩
      split
      · rename_i one
        rw [met.pending] at one
        obtain ⟨f, rfl⟩ := List.length_eq_one_iff.1 one
        obtain rfl := List.mem_singleton.1 hl
        exact .pure ⟨a, older.length, l, ⟨met, hk, rfl⟩, start⟩
      · rename_i several
        have counted : 1 ≤ a.pending := met.pending ▸ List.length_pos_of_mem hl
        have many : front.erase l ≠ [] := by
          intro e
          have := List.length_erase_of_mem hl
          rw [e, ← met.pending, List.length_nil] at this
          omega
        obtain ⟨r, a', front', step⟩ := met.resolves h hk hl many
        have reason := step.reason
        rw [Trail.reasonOf] at reason
        rw [difference_eq counted]
        refine .ok_bind ?_
        rw [h.trail.causeOf_mem (List.mem_of_getElem? hk)]
        refine .ok_bind ?_
        rw [reason]
        dsimp only
        rw [step.outcome]
        refine ih step.after before' (fun e => many ?_) (resolves _ _ _ _ _ _ _ step start)
        exact List.subset_nil.1 (e ▸ step.sub)

end Analysis

/-- The analysis of a conflict comes to a place where one literal is in front, with what the
    literals of the clause in conflict start with and the walk keeps. -/
theorem Propagation.firstUip_keeps {p : Propagation} {conflict : ClauseRef}
    (inv : Analysis → Nat → List Lit → Prop) (h : p.Grounded) (conflicts : p.Conflicts conflict)
    (starts : ∀ a front, Analysis.Starts p conflict a front →
      inv a p.trail.literals.length front)
    (passes : ∀ a k front l, Analysis.Met p a k front → front ≠ [] →
      p.trail.literals[k]? = some l → a.seen.contains l.var = false →
      inv a (k + 1) front → inv a k front)
    (resolves : ∀ a k front l r a' front', Analysis.Resolves p a k front l r a' front' →
      inv a (k + 1) front → inv a' k front') :
    Yields (p.firstUip conflict) fun d =>
      ∃ a k l, Analysis.Stops p a k l d ∧ inv a (k + 1) [l] := by
  obtain ⟨a, front, start⟩ := Analysis.exists_starts h conflicts
  unfold Propagation.firstUip
  rw [start.outcome]
  refine .ok_bind ?_
  split
  · rename_i zero
    rw [start.met.pending] at zero
    exact absurd (List.length_eq_zero_iff.1 zero) start.some
  · have met := start.met
    have begins := starts a front start
    rw [← List.length_reverse] at met begins
    exact Analysis.walk_keeps inv h passes resolves _ met ⟨[], by simp⟩ start.some begins

/-- The analysis of a conflict ends without a fault. -/
theorem Propagation.firstUip_yields {p : Propagation} {r : ClauseRef} (h : p.Grounded)
    (conflict : p.Conflicts r) : Yields (p.firstUip r) p.Asserts := by
  refine (firstUip_keeps (fun a _ front => a.Follows p front) h conflict ?_ ?_ ?_).mono ?_
  · exact fun a front start => start.follows
  · exact fun a k front l _ _ _ _ before => before
  · exact fun a k front l r a' front' step before => before.resolve step
  · rintro d ⟨a, k, l, ⟨met, place, rfl⟩, follows⟩
    have level := met.level_of_last h place (List.cons_ne_nil _ _)
    exact met.asserts h (List.mem_of_getElem? place) level follows.kept follows.entails

end ClauseLearning
