/-
  What the check of the watches finds once everything was propagated.

  Model. The check asks for one watcher for each of the first two literals of a clause, and that a
  false one of the two stands next to a true one (`Stands`). The first holds always. The second
  may fail: a watcher whose cached literal is true is not visited, and the cached literal need not
  be watched any more, since going back leaves the watchers as they are. Then the clause has
  another true literal, of no higher level than the false one (`Stale`).

  Rule. `Watchful.check_ends`: the check succeeds when all clauses stand, and the only fault it can
  meet is a stale watch.
-/
import ClauseLearning.Propagation.Check
import ClauseLearning.Proofs.Propagation.Watchful

namespace ClauseLearning.Propagation

variable {p : Propagation} {r : ClauseRef} {c : Clause} {a b l : Lit} {rest : List Lit} {n : Nat}

/-- Each of the first two literals is true if the other one is false. -/
def Stands (p : Propagation) (ls : List Lit) : Prop :=
  ∀ a b rest, ls = a :: b :: rest → (p.trail.isFalse a = true → p.trail.isTrue b = true) ∧
    (p.trail.isFalse b = true → p.trail.isTrue a = true)

/-- The fault is about a clause with the watched literals `a` and `b`, of which `a` is false and
    `b` is not true, while another literal is true and was so since the level of `a` or before. -/
inductive Stale (p : Propagation) : Fault → Prop
  /-- The clause with the two literals. -/
  | watch {r : ClauseRef} {c : Clause} {a b : Lit} (stored : p.clauses.get? r = some c)
    (first : ∃ rest, c.literals = a :: b :: rest ∨ c.literals = b :: a :: rest)
    (stale : p.trail.isFalse a = true) (beside : p.trail.isTrue b = false)
    (covered : ∃ u ∈ c.literals, p.trail.isTrue u = true ∧
      p.trail.levelOf u.var ≤ p.trail.levelOf a.var) : Stale p (.falseWatch c.literals a b)

namespace Watchful

/-- The list of the negation of a watched literal has one watcher of its clause. -/
theorem countP_watchers (h : p.Watchful none n) (watched : p.clauses.Watches none r l) :
    (p.watchers (-l)).countP (fun w => w.clause == r) = 1 := by
  have mem : r ∈ (p.watchers (-l)).map Watcher.clause :=
    (h.indexes.mem_iff (-l) r).2 (by rwa [Lit.neg_neg])
  have once := List.count_eq_one_of_mem (h.indexes.once (-l)) mem
  rwa [List.count_eq_countP, List.countP_map] at once

/-- There is a list for the negation of a literal of a clause. -/
theorem read_watches (h : p.Watchful none n) (hc : p.clauses.get? r = some c)
    (hl : l ∈ c.literals) :
    ∃ list, p.watches.read (-l).code = .ok list ∧ list.toList = p.watchers (-l) := by
  have room : (-l).code < p.watches.size := h.watched (h.known r c hc l hl) rfl
  obtain ⟨list, get⟩ := Table.get?_isSome_of_lt room
  refine ⟨list, Table.read_eq_ok_iff.2 get, ?_⟩
  rw [watchers, get]
  rfl

theorem isWatched_eq (h : p.Watchful none n) (watched : p.clauses.Watches none r l) :
    p.isWatched r = true := by
  have mem : r ∈ (p.watchers (-l)).map Watcher.clause :=
    (h.indexes.mem_iff (-l) r).2 (by rwa [Lit.neg_neg])
  obtain ⟨w, hw, rfl⟩ := List.mem_map.1 mem
  cases get : p.watches.get? (-l).code with
  | none =>
    rw [watchers, get] at hw
    cases hw
  | some list =>
    rw [watchers, get, Option.getD_some, Array.mem_toList_iff] at hw
    rw [isWatched, List.any_eq_true]
    refine ⟨list, ?_, ?_⟩
    · rw [Table.toList, Array.mem_toList_iff]
      exact Array.mem_of_getElem? get
    · rw [Array.any_eq_true']
      exact ⟨w, hw, by simp⟩

/-- One watch of a clause is right, or it is stale. -/
theorem checkWatch_ends (h : p.Watchful none p.trail.length) (hc : p.clauses.get? r = some c)
    (first : ∃ rest, c.literals = a :: b :: rest ∨ c.literals = b :: a :: rest) :
    Ends (p.checkWatch r c a b) (fun _ => p.trail.isFalse a = true → p.trail.isTrue b = true)
      p.Stale := by
  have watched : p.clauses.Watches none r a := by
    obtain ⟨rest, e | e⟩ := first
    · exact (ClauseStore.watches_iff hc e).2 ⟨by simp, .inl rfl⟩
    · exact (ClauseStore.watches_iff hc e).2 ⟨by simp, .inr rfl⟩
  obtain ⟨list, read, same⟩ := h.read_watches hc (watched.mem hc)
  have once : list.countP (fun w => w.clause == r) = 1 := by
    rw [← Array.countP_toList, same]
    exact h.countP_watchers watched
  unfold checkWatch
  rw [read]
  refine .ok_bind ?_
  rw [if_neg (not_not_intro once)]
  split
  · rename_i stale
    rw [Bool.and_eq_true, Bool.not_eq_true'] at stale
    obtain ⟨d, hd, u, hu, true, le⟩ := h.covers watched (h.trail.isFalse_iff.1 stale.1)
    cases hc.symm.trans hd
    exact .watch hc first stale.1 stale.2 ⟨u, hu, h.trail.isTrue_iff.2 true, le⟩
  · rename_i right
    intro false
    simpa [false] using right

/-- The two watches of a clause are right, or one of them is stale. -/
theorem checkClause_ends (h : p.Watchful none p.trail.length) (hc : p.clauses.get? r = some c) :
    Ends (p.checkClause r) (fun _ => p.Stands c.literals) p.Stale := by
  unfold checkClause
  rw [ClauseStore.read_eq hc]
  refine .ok_bind ?_
  split
  · rename_i a b rest e
    have watched : p.clauses.Watches none r a :=
      (ClauseStore.watches_iff hc e).2 ⟨by simp, .inl rfl⟩
    rw [if_pos (h.isWatched_eq watched)]
    refine (h.checkWatch_ends hc ⟨rest, .inl e⟩).bind fun _ forth => ?_
    refine (h.checkWatch_ends hc ⟨rest, .inr e⟩).mono (fun _ back => ?_) fun _ => id
    intro a' b' rest' e'
    cases e.symm.trans e'
    exact ⟨forth, back⟩
  · rename_i short
    intro a b rest e
    exact absurd e (short a b rest)

/-- The check finds that all clauses stand, or it finds a stale watch. -/
theorem check_ends (h : p.Watchful none p.trail.length) :
    Ends p.check (fun _ => ∀ r c, p.clauses.get? r = some c → p.Stands c.literals) p.Stale := by
  have each : ∀ r ∈ p.clauses.refs, Ends (p.checkClause r)
      (fun _ => ∀ c, p.clauses.get? r = some c → p.Stands c.literals) p.Stale := by
    intro r hr
    obtain ⟨c, hc⟩ := ClauseStore.get?_isSome_of_lt (List.mem_range.1 hr)
    refine (h.checkClause_ends hc).mono (fun _ stands d hd => ?_) fun _ => id
    cases hc.symm.trans hd
    exact stands
  refine (Ends.forM each).mono (fun _ all r c hc => ?_) fun _ => id
  exact all r (List.mem_range.2 (ClauseStore.lt_size_of_get? hc)) c hc

end Watchful

end ClauseLearning.Propagation
