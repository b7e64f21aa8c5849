/-
  Visiting the watchers of a literal.

  Model. While the list of `t` is visited it is out of the table: what was visited and kept, then
  what is still to be visited. The literal `-t` is false now, and the clauses it watches are
  covered but for those still to be visited (`Visiting`).

  Rule. A visit takes a clause off the ones still to be visited (`visit_yields`): it is covered,
  by a literal that is true already or is forced, or it is watched through another literal. Or
  the clause is in conflict, and the visits end.
-/
import Mathlib.Data.List.TakeDrop
import Mathlib.Data.List.TakeWhile
import ClauseLearning.Proofs.Propagation.Watchful

namespace ClauseLearning.Propagation

variable {p p' : Propagation} {t a : Lit} {n : Nat} {list front behind todo todo' : List Watcher}
  {w w' : Watcher} {c : Clause} {rest : List Lit}

/-- The watch lists with that of `t` given apart. -/
def listing (p : Propagation) (t : Lit) (list : List Watcher) (l : Lit) : List Watcher :=
  if l = t then list else p.watchers l

/-- The list of the literal `t` at the place `n` is being visited, with `todo` to come. -/
structure Visiting (p : Propagation) (t : Lit) (n : Nat) (list todo : List Watcher) : Prop
    extends Grounded p where
  /-- The literal was taken off the queue. -/
  place : p.trail.literals[n]? = some t
  /-- It is of the current level. -/
  current : ∀ m ∈ p.trail.limits, m ≤ n
  /-- The lists index the clauses. -/
  indexes : p.clauses.Indexes none (p.listing t list)
  /-- Only the clauses still to be visited are not covered. -/
  guarded : p.Guarded none (n + 1) fun r l => l = -t ∧ r ∈ todo.map Watcher.clause
  /-- The clauses without watchers are true. -/
  rooted : p.Rooted none

namespace Visiting

theorem mem (h : p.Visiting t n list todo) : t ∈ p.trail.literals := List.mem_of_getElem? h.place

theorem level (h : p.Visiting t n list todo) : p.trail.levelOf t.var = p.trail.level := by
  rw [h.trail.level_eq n t h.place, Trail.levelAt_of_le h.current]

theorem place_lt (h : p.Visiting t n list todo) : n < p.trail.length := by
  rw [← Trail.length_literals]
  exact (List.getElem?_eq_some_iff.1 h.place).1

/-- A true literal of a clause covers the watched literal that has become false. -/
theorem covers (h : p.Visiting t n list todo) {r : ClauseRef} (hc : p.clauses.get? r = some c)
    (mem : a ∈ c.literals) (true : a ∈ p.trail.literals) : p.Covers r (-t) := by
  refine ⟨c, hc, a, mem, true, ?_⟩
  rw [Lit.neg_var, h.level]
  exact h.trail.levelOf_le true

/-- A watcher stays in the list. -/
theorem keep (h : p.Visiting t n (front ++ w :: behind) todo) (on : p.Continues p')
    (grounded : p'.Grounded) (watchers : ∀ l, p'.watchers l = p.watchers l)
    (watches : ∀ r l, p'.clauses.Watches none r l ↔ p.clauses.Watches none r l)
    (same : w'.clause = w.clause)
    (cached : w' = w ∨ ∀ c, p.clauses.get? w.clause = some c →
      w'.cached ∈ c.literals ∧ w'.cached ≠ -t)
    (done : ∀ r ∈ todo.map Watcher.clause,
      r ∈ todo'.map Watcher.clause ∨ p'.Covers r (-t)) :
    p'.Visiting t n (front ++ w' :: behind) todo' where
  toGrounded := grounded
  place := on.trail.getElem? h.place
  current m hm := h.current m (on.trail.limits ▸ hm)
  indexes := by
    refine h.indexes.congr on.clauses watches (fun l => ?_) fun l x hx => ?_
    · unfold listing
      split
      · simp [same]
      · rw [watchers]
    · unfold listing at hx ⊢
      split at hx
      · rename_i e
        rw [if_pos e]
        simp only [List.mem_append, List.mem_cons] at hx ⊢
        rcases hx with hx | rfl | hx
        · exact .inl (.inl hx)
        · rcases cached with rfl | cached
          · exact .inl (.inr (.inl rfl))
          · exact .inr fun c hc => e ▸ cached c (same ▸ hc)
        · exact .inl (.inr (.inr hx))
      · rename_i e
        rw [if_neg e]
        exact .inl (watchers l ▸ hx)
  guarded := by
    refine h.guarded.continues h.place_lt on fun r l hw he _ => ?_
    by_cases hr : l = -t ∧ r ∈ todo.map Watcher.clause
    · rcases done r hr.2 with hr' | covers
      · exact absurd ⟨hr.1, hr'⟩ he
      · exact .inr (hr.1 ▸ covers)
    · exact .inl ⟨(watches r l).1 hw, hr⟩
  rooted := h.rooted.continues on

/-- A watcher leaves the list, and its clause is watched through another literal. -/
theorem move {k : Lit} (h : p.Visiting t n (front ++ w :: behind) (w :: behind))
    (on : p.Continues p') (grounded : p'.Grounded)
    (others : ∀ q, q ≠ w.clause → p'.clauses.get? q = p.clauses.get? q)
    (old : ∀ l, p.clauses.Watches none w.clause l ↔ l = a ∨ l = -t)
    (new : ∀ l, p'.clauses.Watches none w.clause l ↔ l = a ∨ l = k)
    (hat : a ≠ -t) (hka : k ≠ a) (hkt : k ≠ -t) (open' : -k ∉ p'.trail.literals)
    (watchers : ∀ l, p'.watchers l =
      if l = -k then p.watchers l ++ [⟨a, w.clause⟩] else p.watchers l) :
    p'.Visiting t n (front ++ behind) behind where
  toGrounded := grounded
  place := on.trail.getElem? h.place
  current m hm := h.current m (on.trail.limits ▸ hm)
  indexes := by
    have split : p.listing t (front ++ w :: behind) (- -t) = front ++ w :: behind := by
      rw [Lit.neg_neg, listing, if_pos rfl]
    refine h.indexes.move on.clauses others old new hat hka hkt rfl split fun l => ?_
    rw [Lit.neg_neg, listing, listing]
    split
    · rfl
    · rw [watchers]
  guarded := by
    refine h.guarded.continues h.place_lt on fun r l hw he hl => ?_
    by_cases hr : r = w.clause
    · subst hr
      rcases (new l).1 hw with rfl | rfl
      · exact .inl ⟨(old l).2 (.inl rfl), fun e => hat e.1⟩
      · exact absurd hl open'
    · refine .inl ⟨(ClauseStore.watches_congr (others r hr)).1 hw, fun e => ?_⟩
      rcases List.mem_cons.1 e.2 with e' | e'
      · exact hr e'
      · exact he ⟨e.1, e'⟩
  rooted := h.rooted.continues on

end Visiting

/-! ## One visit -/

theorem arrange_yields {r : ClauseRef} (hc : p.clauses.get? r = some c) {ls : List Lit}
    (perm : ls.Perm c.literals) :
    Yields (p.arrange r ls) fun p' => ∃ s, p' = { p with clauses := s } ∧
      s.Rearranges p.clauses ∧ s.get? r = some { c with literals := ls } ∧
      ∀ q, q ≠ r → s.get? q = p.clauses.get? q := by
  obtain ⟨trail, clauses, watches, next⟩ := p
  exact (ClauseStore.arrange_yields hc perm).bind fun s h => .pure ⟨s, rfl, h⟩

/-- The search for a literal without the property finds the first one, or there is none. -/
theorem span_cases (has : Lit → Bool) (ls : List Lit) :
    (∃ before k after, ls.span has = (before, k :: after) ∧ ls = before ++ k :: after ∧
        has k = false) ∨
      ∃ before, ls.span has = (before, []) ∧ ∀ k ∈ ls, has k = true := by
  rw [List.span_eq_takeWhile_dropWhile]
  have parts := List.takeWhile_append_dropWhile (p := has) (l := ls)
  cases e : ls.dropWhile has with
  | nil => exact .inr ⟨_, rfl, List.dropWhile_eq_nil_iff.1 e⟩
  | cons k after =>
    have first := List.head?_dropWhile_not has ls
    rw [e] at first parts
    exact .inl ⟨_, k, after, rfl, parts.symm, by simpa using first⟩

/-- What a visit leaves behind: the watcher stays and is covered, or it has left the list, or its
    clause is in conflict. -/
def Visited (p : Propagation) (t : Lit) (n : Nat) (front behind : List Watcher) (w : Watcher) :
    Visit × Propagation → Prop
  | (.stays w', p') => p.Continues p' ∧ p'.next = p.next ∧
      p'.Visiting t n (front ++ w' :: behind) behind
  | (.moved, p') => p.Continues p' ∧ p'.next = p.next ∧ p'.Visiting t n (front ++ behind) behind
  | (.conflict w', p') => p.Continues p' ∧ p'.next = p.next ∧
      p'.Visiting t n (front ++ w' :: behind) (w :: behind) ∧ p'.Conflicts w'.clause

/-- The clause `r` watches `-t`; it has the literals `a`, `-t` and `rest`, and the other one it
    watches is `a`. -/
structure Attends (p : Propagation) (r : ClauseRef) (t a : Lit) (rest : List Lit) : Prop where
  /-- The clause is kept, with its literals in some order. -/
  kept : ∃ c, p.clauses.get? r = some c ∧ (a :: -t :: rest).Perm c.literals
  /-- Its watched literals. -/
  watched : ∀ l, p.clauses.Watches none r l ↔ l = a ∨ l = -t

namespace Attends

variable {r : ClauseRef} {k : Lit} {before after : List Lit}

theorem mem (d : p.Attends r t a rest) (hc : p.clauses.get? r = some c) {l : Lit}
    (hl : l ∈ a :: -t :: rest) : l ∈ c.literals := by
  obtain ⟨d, hd, perm⟩ := d.kept
  cases hc.symm.trans hd
  exact perm.mem_iff.1 hl

theorem nodup (d : p.Attends r t a rest) (h : p.Grounded) : (a :: -t :: rest).Nodup := by
  obtain ⟨c, hc, perm⟩ := d.kept
  exact perm.nodup_iff.2 (h.nodup r c hc)

theorem ne (d : p.Attends r t a rest) (h : p.Grounded) : a ≠ -t := by
  have := (List.nodup_cons.1 (d.nodup h)).1
  exact fun e => this (e ▸ .head _)

/-- What the clause has in the cache of its watcher. -/
theorem cached (d : p.Attends r t a rest) (h : p.Grounded) :
    ∀ c, p.clauses.get? r = some c → a ∈ c.literals ∧ a ≠ -t :=
  fun _ hc => ⟨d.mem hc (.head _), d.ne h⟩

/-- The literals are put in the order in which they are visited; the watches stay. -/
theorem arrange_yields (d : p.Attends r t a rest) (h : p.Grounded) :
    Yields (p.arrange r (a :: -t :: rest)) fun p' => p.Continues p' ∧ p'.Grounded ∧
      (∃ s, p' = { p with clauses := s }) ∧
      (∃ c, p'.clauses.get? r = some c ∧ c.literals = a :: -t :: rest) ∧
      ∀ q l, p'.clauses.Watches none q l ↔ p.clauses.Watches none q l := by
  obtain ⟨c, hc, perm⟩ := d.kept
  refine (Propagation.arrange_yields hc perm).mono ?_
  rintro _ ⟨s, rfl, rearranges, hs, others⟩
  refine ⟨⟨rearranges, .refl _, rfl⟩, h.rearranged rearranges rfl rfl rfl, ⟨s, rfl⟩,
    ⟨_, hs, rfl⟩, fun q l => ?_⟩
  by_cases hq : q = r
  · rw [hq, d.watched, ClauseStore.watches_iff hs rfl]
    simp
  · exact ClauseStore.watches_congr (others q hq)

/-- Another literal comes in the second place and is watched instead. -/
theorem rearrange_yields (d : p.Attends r t a (before ++ k :: after)) (h : p.Grounded) :
    Yields (p.arrange r (a :: k :: before ++ -t :: after)) fun p' => p.Continues p' ∧
      p'.Grounded ∧ (∃ s, p' = { p with clauses := s }) ∧
      (∀ q, q ≠ r → p'.clauses.get? q = p.clauses.get? q) ∧
      ∀ l, p'.clauses.Watches none r l ↔ l = a ∨ l = k := by
  obtain ⟨c, hc, perm⟩ := d.kept
  have toFront : (k :: before ++ -t :: after).Perm (-t :: (k :: before ++ after)) :=
    List.perm_middle
  have perm' : (a :: k :: before ++ -t :: after).Perm c.literals :=
    .trans (.cons a (toFront.trans (.cons _ List.perm_middle.symm))) perm
  refine (Propagation.arrange_yields hc perm').mono ?_
  rintro _ ⟨s, rfl, rearranges, hs, others⟩
  refine ⟨⟨rearranges, .refl _, rfl⟩, h.rearranged rearranges rfl rfl rfl, ⟨s, rfl⟩, others,
    fun l => ?_⟩
  rw [ClauseStore.watches_iff hs rfl]
  simp

end Attends

section Cases

variable (h : p.Visiting t n (front ++ w :: behind) (w :: behind))

include h

/-- A clause with a true literal stays. -/
theorem visit_true_yields (d : p.Attends w.clause t a rest) (true : a ∈ p.trail.literals) :
    Yields (do return (.stays ⟨a, w.clause⟩, ← p.arrange w.clause (a :: -t :: rest)))
      (p.Visited t n front behind w) := by
  refine (d.arrange_yields h.toGrounded).bind ?_
  rintro _ ⟨on, grounded, ⟨s, rfl⟩, -, watches⟩
  refine .pure ⟨on, rfl, h.keep on grounded (fun _ => rfl) watches rfl
    (.inr (d.cached h.toGrounded)) fun r hr => ?_⟩
  rcases List.mem_cons.1 hr with rfl | hr
  · obtain ⟨c, hc, -⟩ := d.kept
    exact .inr ((h.covers hc (d.mem hc (.head _)) true).mono (by simpa using h.mem)
      on.clauses.clauses fun l hl => ⟨hl, rfl⟩)
  · exact .inl hr

/-- A clause with another literal that is not false is watched through that one. -/
theorem visit_open_yields {k : Lit} {before after : List Lit}
    (d : p.Attends w.clause t a (before ++ k :: after)) (hk : -k ∉ p.trail.literals) :
    Yields (do
        let p ← p.arrange w.clause (a :: k :: before ++ -t :: after)
        return (.moved, ← p.addWatcher (-k) ⟨a, w.clause⟩))
      (p.Visited t n front behind w) := by
  obtain ⟨c, hc, -⟩ := d.kept
  have known := h.known _ c hc k (d.mem hc (by simp))
  have distinct := d.nodup h.toGrounded
  have hka : k ≠ a := by
    rintro rfl
    simp at distinct
  have hkt : k ≠ -t := by
    rintro rfl
    simp at distinct
  refine (d.rearrange_yields h.toGrounded).bind ?_
  rintro _ ⟨on, grounded, ⟨s, rfl⟩, others, watches⟩
  have roomK : (-k).code < p.watches.size := h.watched known rfl
  refine (addWatcher_yields (p := { p with clauses := s }) roomK ⟨a, w.clause⟩).bind ?_
  rintro _ ⟨ws, rfl, size, lists⟩
  have on' : p.Continues { p with clauses := s, watches := ws } := ⟨on.clauses, .refl _, size⟩
  refine .pure ⟨on', rfl, h.move on' (h.rearranged on.clauses rfl size rfl) others d.watched
    watches (d.ne h.toGrounded) hka hkt hk fun l => ?_⟩
  rw [lists]
  split
  · rename_i e
    rw [e]
    rfl
  · rfl

/-- A clause whose other literals are false forces the one that is left, or is in conflict. -/
theorem visit_closed_yields (d : p.Attends w.clause t a rest) (notTrue : a ∉ p.trail.literals)
    (closed : ∀ k ∈ rest, -k ∈ p.trail.literals) :
    Yields (do
        let p ← p.arrange w.clause (a :: -t :: rest)
        if p.trail.isFalse a then return (.conflict ⟨a, w.clause⟩, p)
        else
          let (_, p) ← p.enqueue a (some w.clause)
          return (.stays ⟨a, w.clause⟩, p))
      (p.Visited t n front behind w) := by
  have falseT : - -t ∈ p.trail.literals := by simpa using h.mem
  refine (d.arrange_yields h.toGrounded).bind ?_
  rintro _ ⟨on, grounded, ⟨s, rfl⟩, ⟨c, hc, literals⟩, watches⟩
  have memA : a ∈ c.literals := literals ▸ .head _
  have others : ∀ k ∈ c.literals, k ≠ a → -k ∈ p.trail.literals := by
    intro k hk ne
    rw [literals] at hk
    rcases List.mem_cons.1 hk with rfl | hk
    · exact absurd rfl ne
    · rcases List.mem_cons.1 hk with rfl | hk
      · exact falseT
      · exact closed k hk
  have cached := d.cached h.toGrounded
  split
  · rename_i falseA
    rw [h.trail.isFalse_iff] at falseA
    refine .pure ⟨on, rfl, h.keep on grounded (fun _ => rfl) watches rfl (.inr cached)
      fun r hr => .inl hr, c, hc, fun l hl => ?_, -t, literals ▸ by simp, h.level⟩
    by_cases e : l = a
    · exact e ▸ falseA
    · exact others l hl e
  · rename_i notFalseA
    rw [h.trail.isFalse_iff] at notFalseA
    refine (grounded.enqueue hc memA notTrue others notFalseA).bind ?_
    rintro _ ⟨trail, rfl, grounded', ext, appended, -⟩
    have on' : p.Continues { p with clauses := s, trail := trail } := ⟨on.clauses, ext, rfl⟩
    have stays : Visiting { p with clauses := s, trail := trail } t n
        (front ++ ⟨a, w.clause⟩ :: behind) (w :: behind) :=
      h.keep on' grounded' (fun _ => rfl) watches rfl (.inr cached) fun r hr => .inl hr
    refine .pure ⟨on', rfl, stays.keep (.refl _) grounded' (fun _ => rfl)
      (fun _ _ => Iff.rfl) rfl (.inl rfl) fun r hr => ?_⟩
    rcases List.mem_cons.1 hr with rfl | hr
    · exact .inr (stays.covers hc memA (appended ▸ by simp))
    · exact .inl hr

/-- The clause of a watcher is visited whose cached literal is not true. -/
theorem visitClause_yields (d : p.Attends w.clause t a rest) :
    Yields (p.visitClause w.clause a (-t) rest) (p.Visited t n front behind w) := by
  unfold visitClause
  split
  · rename_i true
    exact visit_true_yields h d (h.trail.isTrue_iff.1 true)
  · rename_i notTrue
    rw [h.trail.isTrue_iff] at notTrue
    rcases span_cases p.trail.isFalse rest with ⟨before, k, after, e, rfl, openK⟩ |
      ⟨before, e, allFalse⟩
    · rw [e]
      refine visit_open_yields h d ?_
      rw [← h.trail.isFalse_iff, openK]
      simp
    · rw [e]
      exact visit_closed_yields h d notTrue fun k hk => h.trail.isFalse_iff.1 (allFalse k hk)

end Cases

/-- A visit leaves everything as it is when the cached literal is true; or else it is one of the
    clause, which watches `-t`. -/
theorem Visiting.visit_cases (h : p.Visiting t n (front ++ w :: behind) todo) :
    p.visit t w = .ok (.stays w, p) ∧ (∃ c, p.clauses.get? w.clause = some c ∧
        w.cached ∈ c.literals ∧ w.cached ∈ p.trail.literals) ∨
      ∃ a rest, p.Attends w.clause t a rest ∧
        p.visit t w = p.visitClause w.clause a (-t) rest := by
  have here : w ∈ p.listing t (front ++ w :: behind) t := by simp [listing]
  obtain ⟨-, c, x, y, rest, hc, e, hl⟩ := h.indexes.watched here
  have watched : ∀ l, p.clauses.Watches none w.clause l ↔ l = x ∨ l = y := by
    intro l
    rw [ClauseStore.watches_iff hc e]
    simp
  unfold visit
  split
  · rename_i true
    rw [h.trail.isTrue_iff] at true
    exact .inl ⟨rfl, c, hc, (h.indexes.cached t w here c hc).1, true⟩
  · refine .inr ?_
    rw [ClauseStore.read_eq hc]
    by_cases first : x = -t
    · subst first
      refine ⟨y, rest, ⟨⟨c, hc, e ▸ .swap ..⟩, fun l => (watched l).trans or_comm⟩, ?_⟩
      simp only [bind, Except.bind, e, if_true]
    · obtain rfl : -t = y := hl.resolve_left fun e => first e.symm
      refine ⟨x, rest, ⟨⟨c, hc, e ▸ .rfl⟩, watched⟩, ?_⟩
      simp only [bind, Except.bind, e, if_neg first]

theorem visit_yields (h : p.Visiting t n (front ++ w :: behind) (w :: behind)) :
    Yields (p.visit t w) (p.Visited t n front behind w) := by
  rcases h.visit_cases with ⟨e, c, hc, mem, true⟩ | ⟨a, rest, d, e⟩
  · refine .of_eq e ⟨.refl _, rfl, h.keep (.refl _) h.toGrounded (fun _ => rfl)
      (fun _ _ => Iff.rfl) rfl (.inl rfl) fun r hr => ?_⟩
    rcases List.mem_cons.1 hr with rfl | hr
    · exact .inr (h.covers hc mem true)
    · exact .inl hr
  · rw [e]
    exact visitClause_yields h d

end ClauseLearning.Propagation
