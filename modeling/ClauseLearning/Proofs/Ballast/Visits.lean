/-
  Visits of the clauses that are always true.

  Model. Of the visits on the laden side some are visits of clauses without a name. These hold a
  literal and its negation, so in the rest of such a clause a literal is found that is not false,
  unless the other watched one is true: nothing is forced, nothing is in conflict, and only the
  order of its literals and the places of its watchers change (`Stirs`).

  Rule. The visits of a list on the one side and those of the interleaved list on the other leave
  interleaved lists and a laden state (`Laden.visitAll`). So propagation is alike on both sides
  (`Laden.propagate`), in step on the trail but not in the number of visits.
-/
import ClauseLearning.Proofs.Ballast.Watches
import ClauseLearning.Proofs.Propagation.Queue

namespace ClauseLearning

namespace Clause.HoldsAlways

variable {c : Clause} {t : Trail} {a : Lit}

/-- A literal and its negation are not both false. -/
theorem not_falsified (h : c.HoldsAlways) (coherent : t.Coherent) :
    ¬ ∀ k ∈ c.literals, -k ∈ t.literals := by
  obtain ⟨l, hl, hn⟩ := h
  exact fun false => coherent.neg_not_mem (false l hl) (false (-l) hn)

/-- Where all literals but one are false, that one is true already. -/
theorem mem_of_others (h : c.HoldsAlways) (coherent : t.Coherent)
    (others : ∀ k ∈ c.literals, k ≠ a → -k ∈ t.literals) : a ∈ t.literals := by
  obtain ⟨l, hl, hn⟩ := h
  by_cases first : l = a
  · have true := others (-l) hn fun e => Lit.neg_ne_self l (e.trans first.symm)
    rwa [Lit.neg_neg, first] at true
  · by_cases second : -l = a
    · exact second ▸ others l hl first
    · exact absurd (others (-l) hn second) (coherent.neg_not_mem (others l hl first))

end Clause.HoldsAlways

namespace Propagation

variable {f : ClauseRef → ClauseRef} {p p' p'' : Propagation} {r : ClauseRef} {t a : Lit} {n : Nat}
  {w : Watcher} {front behind : List Watcher} {rest : List Lit}

/-! ## A clause without a name -/

/-- Of the second state only the order of the literals of the clause `r` is another one, and it has
    further watchers of this clause. -/
structure Stirs (r : ClauseRef) (p p' : Propagation) : Prop where
  /-- The trail. -/
  trail : p'.trail = p.trail
  /-- The clauses. -/
  clauses : p'.clauses.Rearranges p.clauses
  /-- The other clauses. -/
  same : ∀ q, q ≠ r → p'.clauses.get? q = p.clauses.get? q
  /-- The number of watch lists. -/
  size : p'.watches.size = p.watches.size
  /-- The watch lists. -/
  lists : ∀ l, ∃ more, p'.watchers l = p.watchers l ++ more ∧ ∀ w ∈ more, w.clause = r
  /-- The place of the queue on the trail. -/
  next : p'.next = p.next

theorem Stirs.refl (r : ClauseRef) (p : Propagation) : Stirs r p p where
  trail := rfl
  clauses := .refl _
  same _ _ := rfl
  size := rfl
  lists l := ⟨[], (List.append_nil _).symm, by simp⟩
  next := rfl

theorem Stirs.trans (h : Stirs r p p') (h' : Stirs r p' p'') : Stirs r p p'' where
  trail := h'.trail.trans h.trail
  clauses := h'.clauses.trans h.clauses
  same q hq := (h'.same q hq).trans (h.same q hq)
  size := h'.size.trans h.size
  lists l := by
    obtain ⟨more, e, all⟩ := h.lists l
    obtain ⟨more', e', all'⟩ := h'.lists l
    refine ⟨more ++ more', by rw [e', e, List.append_assoc], fun w hw => ?_⟩
    exact (List.mem_append.1 hw).elim (all w) (all' w)
  next := h'.next.trans h.next

theorem arrange_stirs {c : Clause} (hc : p.clauses.get? r = some c) {ls : List Lit}
    (perm : ls.Perm c.literals) :
    Yields (p.arrange r ls) fun p' =>
      Stirs r p p' ∧ p'.clauses.get? r = some { c with literals := ls } := by
  refine (Propagation.arrange_yields hc perm).mono ?_
  rintro _ ⟨s, rfl, rearranges, here, others⟩
  exact ⟨⟨rfl, rearranges, others, rfl, (Stirs.refl r p).lists, rfl⟩, here⟩

theorem addWatcher_stirs {l : Lit} (room : l.code < p.watches.size) (w : Watcher) :
    Yields (p.addWatcher l w) (Stirs w.clause p) := by
  refine (addWatcher_yields room w).mono ?_
  rintro _ ⟨ws, rfl, size, lists⟩
  refine ⟨rfl, .refl _, fun _ _ => rfl, size, fun k => ?_, rfl⟩
  by_cases e : k = l
  · exact ⟨[w], (lists k).trans ((if_pos e).trans (e ▸ rfl)), by simp⟩
  · exact ⟨[], (lists k).trans ((if_neg e).trans (List.append_nil _).symm), by simp⟩

theorem Laden.stir (h : p.Laden f p') (stirs : Stirs r p' p'') (new : ∀ q, f q ≠ r) :
    p.Laden f p'' where
  trail := stirs.trail ▸ h.trail
  clauses := h.clauses.stir stirs.clauses fun q => stirs.same (f q) (new q)
  size := stirs.size.trans h.size
  lists l := by
    obtain ⟨more, e, all⟩ := stirs.lists l
    rw [e, ← List.append_nil (p.watchers l)]
    exact (h.lists l).append (.extras fun w hw => all w hw ▸ new)
  next := stirs.next.trans h.next

/-- The watcher stays in the list, or it leaves the list; there is no conflict. -/
def Visit.Passes (r : ClauseRef) : Visit → Prop
  | .stays w => w.clause = r
  | .moved => True
  | .conflict _ => False

/-- If the other watched literal of a clause that is always true is not true, some literal of the
    rest is not false. -/
theorem Attends.open_of_holdsAlways {c : Clause} (d : p.Attends r t a rest) (h : p.Grounded)
    (mem : t ∈ p.trail.literals) (hc : p.clauses.get? r = some c) (always : c.HoldsAlways)
    (notTrue : a ∉ p.trail.literals) : ∃ k ∈ rest, -k ∉ p.trail.literals := by
  refine Classical.by_contradiction fun none => notTrue ?_
  obtain ⟨d, hd, perm⟩ := d.kept
  cases hc.symm.trans hd
  refine always.mem_of_others h.trail.toCoherent fun k hk ne => ?_
  rcases List.mem_cons.1 (perm.mem_iff.2 hk) with e | hk
  · exact absurd e ne
  · rcases List.mem_cons.1 hk with rfl | hk
    · rwa [Lit.neg_neg]
    · exact Classical.by_contradiction fun notFalse => none ⟨k, hk, notFalse⟩

theorem visitClause_stirs {c : Clause} (h : p.Grounded) (mem : t ∈ p.trail.literals)
    (d : p.Attends r t a rest) (hc : p.clauses.get? r = some c) (always : c.HoldsAlways) :
    Yields (p.visitClause r a (-t) rest) fun x => Stirs r p x.2 ∧ x.1.Passes r := by
  obtain ⟨_, hc', perm⟩ := d.kept
  cases hc.symm.trans hc'
  unfold visitClause
  split
  · exact (arrange_stirs hc perm).bind fun _ ⟨stirs, _⟩ => .pure ⟨stirs, rfl⟩
  · rename_i notTrue
    rw [h.trail.isTrue_iff] at notTrue
    rcases span_cases p.trail.isFalse rest with ⟨before, k, after, e, rfl, -⟩ | ⟨before, -, all⟩
    · rw [e]
      have front : (a :: k :: before ++ -t :: after).Perm (a :: -t :: (before ++ k :: after)) :=
        .cons a (.trans List.perm_middle (.cons _ List.perm_middle.symm))
      refine (arrange_stirs hc (front.trans perm)).bind fun q ⟨stirs, _⟩ => ?_
      have known := h.known r c hc k (d.mem hc (by simp))
      have room : (-k).code < q.watches.size := stirs.size ▸ h.watched known rfl
      refine (addWatcher_stirs room ⟨a, r⟩).bind fun q' stirs' => ?_
      exact .pure ⟨stirs.trans stirs', trivial⟩
    · obtain ⟨k, hk, notFalse⟩ := d.open_of_holdsAlways h mem hc always notTrue
      exact absurd (h.trail.isFalse_iff.1 (all k hk)) notFalse

/-- A visit of a clause that is always true forces nothing. -/
theorem Visiting.visit_stirs {c : Clause} (h : p.Visiting t n (front ++ w :: behind) (w :: behind))
    (hc : p.clauses.get? w.clause = some c) (always : c.HoldsAlways) :
    Yields (p.visit t w) fun x =>
      (Stirs w.clause p x.2 ∧ x.1.Passes w.clause) ∧ p.Visited t n front behind w x := by
  obtain ⟨x, e, visited⟩ := visit_yields h
  refine .of_eq e ⟨?_, visited⟩
  rcases h.visit_cases with ⟨e', -⟩ | ⟨a, rest, d, e'⟩
  · cases e.symm.trans e'
    exact ⟨.refl _ _, rfl⟩
  · exact (visitClause_stirs h.toGrounded h.mem d hc always).of_ok (e' ▸ e)

/-! ## A clause with a name -/

/-- The visit with a new name for the clause. -/
def Visit.rename (f : ClauseRef → ClauseRef) : Visit → Visit
  | .stays w => .stays (w.rename f)
  | .moved => .moved
  | .conflict w => .conflict (w.rename f)

/-- The second result has the visit of the first one under its new name, and a laden state. -/
def LadenVisit (f : ClauseRef → ClauseRef) (x x' : Visit × Propagation) : Prop :=
  x'.1 = x.1.rename f ∧ x.2.Laden f x'.2

namespace Laden

theorem visitClause (h : p.Laden f p') (r : ClauseRef) (a b : Lit) (rest : List Lit) :
    Alike (LadenVisit f) (p.visitClause r a b rest) (p'.visitClause (f r) a b rest) := by
  unfold Propagation.visitClause
  rw [h.trail.isTrue_eq, h.trail.isFalse_eq]
  split
  · exact (h.arrange r _).bind fun _ _ h => ⟨rfl, h⟩
  · split
    · exact (h.arrange r _).bind fun _ _ h => (h.addWatcher _ ⟨a, r⟩).bind fun _ _ h => ⟨rfl, h⟩
    · refine (h.arrange r _).bind fun q q' h => ?_
      rw [h.trail.isFalse_eq]
      split
      · exact ⟨rfl, h⟩
      · exact (h.enqueue a (some r)).bind fun _ _ ⟨_, h⟩ => ⟨rfl, h⟩

theorem visit (h : p.Laden f p') (t : Lit) (w : Watcher) :
    Alike (LadenVisit f) (p.visit t w) (p'.visit t (w.rename f)) := by
  unfold Propagation.visit
  rw [h.trail.isTrue_eq]
  by_cases holds : p.trail.isTrue w.cached = true
  · rw [if_pos holds, if_pos (show p.trail.isTrue (w.rename f).cached = true from holds)]
    exact ⟨rfl, h⟩
  · rw [if_neg holds, if_neg (show ¬ p.trail.isTrue (w.rename f).cached = true from holds)]
    refine (h.clauses.read w.clause).bind fun c c' hc => ?_
    obtain ⟨-, rfl⟩ := hc
    rw [Clause.literals_rename]
    rcases c.literals with _ | ⟨a, _ | ⟨b, rest⟩⟩
    · rfl
    · rfl
    · dsimp only
      split
      · exact h.visitClause w.clause b a rest
      · exact h.visitClause w.clause a b rest

/-! ## A list, and the queue -/

/-- What the visits of a list leave: the clause in conflict under its new name, an interleaved
    list and a laden state. -/
def LadenVisits (f : ClauseRef → ClauseRef)
    (x x' : Option ClauseRef × Array Watcher × Propagation) : Prop :=
  x'.1 = x.1.map f ∧ Interleaved f x.2.1.toList x'.2.1.toList ∧ x.2.2.Laden f x'.2.2

theorem visitAll {todo todo' : List Watcher} (more : Interleaved f todo todo') (h : p.Laden f p')
    {kept kept' : Array Watcher} (done : Interleaved f kept.toList kept'.toList)
    (visiting : p'.Visiting t n (kept'.toList ++ todo') todo') :
    Alike (LadenVisits f) (visitAll t todo kept p) (visitAll t todo' kept' p') := by
  induction more generalizing p p' kept kept' with
  | nil => exact ⟨rfl, done, h⟩
  | both w rest ih =>
    rename_i ws ws'
    refine ((h.visit t w).and_yields (visit_yields visiting)).bind ?_
    rintro ⟨v, q⟩ ⟨v', q'⟩ ⟨⟨e, h⟩, visited⟩
    obtain rfl : v' = v.rename f := e
    cases v with
    | stays x =>
      refine ih h ?_ ?_
      · rw [Array.toList_push, Array.toList_push]
        exact done.append (.single x)
      · rw [Array.toList_push, List.append_assoc]
        exact visited.2.2
    | moved => exact ih h done visited.2.2
    | conflict x =>
      refine And.intro rfl (And.intro ?_ h)
      rw [Array.toList_append, Array.toList_append, Array.toList_push, Array.toList_push]
      exact (done.append (.single x)).append rest
  | extra w new rest ih =>
    rename_i ws ws'
    obtain ⟨-, c, _, _, _, hc, -⟩ := visiting.indexes.watched (l := t) (w := w) (by simp [listing])
    have always := h.clauses.others w.clause c hc new
    refine Alike.yields_bind (visiting.visit_stirs hc always) ?_
    rintro ⟨v, q'⟩ ⟨⟨stirs, passes⟩, visited⟩
    have h := h.stir stirs new
    cases v with
    | stays x =>
      refine ih h ?_ ?_
      · rw [Array.toList_push, ← List.append_nil kept.toList]
        refine done.append (.extra x ?_ .nil)
        exact fun r e => new r (e.trans passes)
      · rw [Array.toList_push, List.append_assoc]
        exact visited.2.2
    | moved => exact ih h done visited.2.2
    | conflict x => exact passes.elim

theorem propagateLit (h : p.Laden f p') (watchful : p'.Watchful none n)
    (place : p'.trail.literals[n]? = some t) (current : ∀ m ∈ p'.trail.limits, m ≤ n) :
    Alike (LadenWith f) (p.propagateLit t) (p'.propagateLit t) := by
  have known := watchful.trail.knows_of_mem (List.mem_of_getElem? place)
  have room : t.code < p'.watches.size := watchful.watched known rfl
  refine ((h.takeWatchers t).and_yields (takeWatchers_yields room)).bind ?_
  rintro ⟨list, q⟩ ⟨list', q'⟩ ⟨⟨more, h⟩, taken, ws, e, size, lists⟩
  obtain rfl : q' = { p' with watches := ws } := e
  have visiting := watchful.visiting place current size lists
  have none : Interleaved f (#[] : Array Watcher).toList (#[] : Array Watcher).toList := .nil
  rw [← show list'.toList = p'.watchers t from taken] at visiting
  refine Alike.bind (visitAll more h none visiting) ?_
  rintro ⟨conflict, list, q⟩ ⟨_, list', q'⟩ ⟨rfl, left, h⟩
  exact (h.putWatchers t left).bind fun _ _ h => ⟨rfl, h⟩

theorem propagateMany (h : p.Laden f p') (watchful : p'.Watchful none p'.next) (rounds : Nat) :
    Alike (LadenWith f) (propagateMany rounds p) (propagateMany rounds p') := by
  induction rounds generalizing p p' with
  | zero => rfl
  | succ rounds ih =>
    unfold Propagation.propagateMany
    rw [h.next, Trail.entry?_eq, Trail.entry?_eq, h.trail.literals_eq]
    cases place : p.trail.literals[p.next]? with
    | none => exact ⟨rfl, h⟩
    | some t =>
      rw [h.next] at watchful
      rw [← h.trail.literals_eq] at place
      have inside := (List.getElem?_eq_some_iff.1 place).1
      rw [Trail.length_literals] at inside
      have current : ∀ m ∈ p'.trail.limits, m ≤ p.next := h.next ▸ watchful.limit_le
      have start := watchful.advance (n := p.next + 1) inside fun m hm =>
        Nat.le_succ_of_le (current m hm)
      refine (((h.withNext (p.next + 1)).propagateLit start place current).and_yields
        (propagateLit_yields start place current)).bind ?_
      rintro ⟨conflict, q⟩ ⟨_, q'⟩ ⟨⟨rfl, h'⟩, on, next, outcome⟩
      cases conflict with
      | none =>
        have watchful' : q'.Watchful none (p.next + 1) := outcome
        exact ih h' (next ▸ watchful')
      | some r =>
        have length := h'.trail.length_eq
        refine And.intro rfl ?_
        change Laden f { q with next := q.trail.length } { q' with next := q'.trail.length }
        rw [length]
        exact h'.withNext _

/-- Propagation is in step on the trail: the same literals are forced, and the conflict has its
    name. -/
theorem propagate (h : p.Laden f p') (watchful : p'.Watchful none p'.next) :
    Alike (LadenWith f) p.propagate p'.propagate := by
  unfold Propagation.propagate
  rw [h.size]
  exact h.propagateMany watchful _

end Laden

end Propagation

end ClauseLearning
