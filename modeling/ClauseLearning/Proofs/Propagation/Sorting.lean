/-
  Clauses are sorted when they are added.

  Model. A clause is taken into account by `addKept` on any assignment, on which its literals may
  be true, false or open in any pattern; it may hold a literal and its negation, and variables
  that are not registered. Of the state only the trail has to be coherent: nothing is asked of
  the other clauses, the watch lists or the queue, the clause may hold a literal twice, and the
  trail may be on any level, which is then that of the literal forced.

  Rule. What becomes of the order of the literals, of the trail and of the watch lists depends on
  the literals that are not false (`addKept_sorts`). With none of them the clause is given and
  nothing else happens; a single one that is open is forced; and in every other case the trail
  stays as it is (`addKept_exact`).
-/
import ClauseLearning.Proofs.Propagation.Admit

namespace ClauseLearning

/-- The second trail is the first one with the literal `l` at its end, for the given reason. -/
structure Trail.Appends (t : Trail) (l : Lit) (reason : Option ClauseRef) (t' : Trail) :
    Prop where
  /-- The literals. -/
  literals : t'.literals = t.literals ++ [l]
  /-- The literal has the reason, and is of the current level; the others keep their causes. -/
  causes : ∀ v, t'.causeAt v = if v = l.var then ⟨t.level, reason⟩ else t.causeAt v
  /-- No level begins or ends. -/
  limits : t'.limits = t.limits
  /-- The variable of the literal is part of the problem, and no other one becomes so. -/
  knows : ∀ v, t'.Knows v ↔ v = l.var ∨ t.Knows v

namespace Trail

variable {t : Trail} {l : Lit}

/-- A literal that is open is made true. -/
theorem enqueue_of_isOpen (h : t.Coherent) (hl : t.isOpen l = true) (reason : Option ClauseRef) :
    Yields (t.enqueue l reason) fun x =>
      x.1 = true ∧ x.2.Coherent ∧ t.Appends l reason x.2 := by
  obtain ⟨absent, absent'⟩ := h.isOpen_iff.1 hl
  rw [enqueue, h.litValue?_eq_none absent absent']
  refine (assign_appends h absent absent' reason).bind ?_
  rintro t' ⟨coherent, literals, limits, knows, causes⟩
  exact .pure ⟨rfl, coherent, literals, causes, limits, knows⟩

/-- A literal that has a value keeps it. -/
theorem enqueue_of_not_isOpen (h : t.Coherent) (hl : t.isOpen l = false)
    (reason : Option ClauseRef) : t.enqueue l reason = .ok (!t.isFalse l, t) := by
  have assigned : l ∈ t.literals ∨ -l ∈ t.literals := by
    refine Classical.byContradiction fun absent => ?_
    rw [h.isOpen_iff.2 (not_or.1 absent)] at hl
    cases hl
  rcases assigned with mem | mem
  · have notFalse : t.isFalse l = false :=
      Bool.eq_false_iff.2 fun false => h.neg_not_mem mem (h.isFalse_iff.1 false)
    rw [enqueue_of_mem h mem, notFalse]
    rfl
  · rw [enqueue_of_neg_mem h mem, h.isFalse_iff.2 mem]
    rfl

theorem not_isFalse_of_isOpen (h : t.Coherent) (hl : t.isOpen l = true) : t.isFalse l = false :=
  Bool.eq_false_iff.2 fun false => (h.isOpen_iff.1 hl).2 (h.isFalse_iff.1 false)

end Trail

namespace Propagation

/-- The literals of the clause that are not false, in their order. -/
def nonFalse (p : Propagation) (c : Clause) : List Lit :=
  c.literals.filter fun l => !p.trail.isFalse l

/-- What becomes of a state when the clause `c`, kept as `r`, is taken into account, and what is
    given then. -/
structure Sorts (p : Propagation) (r : ClauseRef) (c : Clause) (conflict : Option ClauseRef)
    (p' : Propagation) : Prop where
  /-- The clause is given exactly when all its literals are false. -/
  given : conflict = if ∀ l ∈ c.literals, p.trail.isFalse l = true then some r else none
  /-- The literals of the clause are put in another order. From two on, those that are not false
      come first, as they stood, and those that are false come behind. -/
  order : ∃ ls, p'.clauses.get? r = some { c with literals := ls } ∧ ls.Perm c.literals ∧
    (2 ≤ c.length → ∃ back, ls = p.nonFalse c ++ back ∧
      back.Perm (c.literals.filter p.trail.isFalse))
  /-- No clause comes or goes. -/
  size : p'.clauses.size = p.clauses.size
  /-- The other clauses stay as they are. -/
  others : ∀ q, q ≠ r → p'.clauses.get? q = p.clauses.get? q
  /-- A literal that is open while all others are false is put on the trail, for this reason. -/
  forces : ∀ a, p.nonFalse c = [a] → p.trail.isOpen a = true →
    p'.trail.Coherent ∧ p.trail.Appends a (some r) p'.trail
  /-- In all other cases the trail stays as it is. -/
  rests : (∀ a, p.nonFalse c = [a] → p.trail.isOpen a = false) → p'.trail = p.trail
  /-- From two literals on, a clause that is not given is watched through the first two. -/
  watched : 2 ≤ c.length → conflict = none → ∃ c' a b rest, p'.clauses.get? r = some c' ∧
    c'.literals = a :: b :: rest ∧
    ∀ l, p'.watchers l = p.watchers l ++ ClauseStore.pairWatchers r a b l
  /-- A clause that is given or too short is not watched. -/
  unwatched : c.length < 2 ∨ conflict = some r → p'.watchers = p.watchers
  /-- The queue does not move. -/
  next : p'.next = p.next

variable {p : Propagation} {r : ClauseRef} {c : Clause} {l a b : Lit} {rest : List Lit}
  {ws : Table (Array Watcher)}

theorem mem_nonFalse : l ∈ p.nonFalse c ↔ l ∈ c.literals ∧ p.trail.isFalse l = false := by
  simp [nonFalse]

theorem nonFalse_eq_nil_iff :
    p.nonFalse c = [] ↔ ∀ l ∈ c.literals, p.trail.isFalse l = true := by
  simp [nonFalse]

/-! ## Short clauses -/

/-- The clause without literals is given. -/
theorem sorts_empty (hc : p.clauses.get? r = some c) (e : c.literals = [])
    (widens : p.Widens { p with watches := ws }) :
    p.Sorts r c (some r) { p with watches := ws } where
  given := by simp [e]
  order := ⟨c.literals, hc, .rfl, by simp [Clause.length, e]⟩
  size := rfl
  others _ _ := rfl
  forces a single := by simp [nonFalse, e] at single
  rests _ := rfl
  watched long := by simp [Clause.length, e] at long
  unwatched _ := widens.watchers
  next := rfl

/-- The only literal of a clause is forced if it is open, and the clause is given if it is
    false. -/
theorem enqueue_sorts (h : p.trail.Coherent) (hc : p.clauses.get? r = some c)
    (e : c.literals = [l]) (widens : p.Widens { p with watches := ws }) :
    Yields (do
      let (agrees, p') ← enqueue { p with watches := ws } l (some r)
      return (if agrees then none else some r, p'))
      fun x => p.Sorts r c x.1 x.2 := by
  have order : ∃ ls, p.clauses.get? r = some { c with literals := ls } ∧ ls.Perm c.literals ∧
      (2 ≤ c.length → ∃ back, ls = p.nonFalse c ++ back ∧
        back.Perm (c.literals.filter p.trail.isFalse)) :=
    ⟨c.literals, hc, .rfl, by simp [Clause.length, e]⟩
  have short : ¬ 2 ≤ c.length := by simp [Clause.length, e]
  have single : ∀ a, p.nonFalse c = [a] → a = l := by
    intro a ha
    have mem : a ∈ p.nonFalse c := by simp [ha]
    simpa [e] using (mem_nonFalse.1 mem).1
  cases hl : p.trail.isOpen l with
  | true =>
    have notFalse := Trail.not_isFalse_of_isOpen h hl
    obtain ⟨⟨_, t⟩, enqueued, rfl, coherent, appends⟩ := Trail.enqueue_of_isOpen h hl (some r)
    refine .of_eq (a := (none, { p with trail := t, watches := ws })) ?_ ?_
    · simp only [enqueue, enqueued]
      rfl
    · refine ⟨by simp [e, notFalse], order, rfl, fun _ _ => rfl, fun a ha _ => ?_, fun none => ?_,
        fun long => absurd long short, fun _ => widens.watchers, rfl⟩
      · exact single a ha ▸ ⟨coherent, appends⟩
      · have := none l (by simp [nonFalse, e, notFalse])
        rw [hl] at this
        cases this
  | false =>
    have enqueued := Trail.enqueue_of_not_isOpen h hl (some r)
    refine .of_eq (a := (if !p.trail.isFalse l then none else some r, { p with watches := ws }))
      ?_ ?_
    · simp only [enqueue, enqueued]
      rfl
    · refine ⟨by cases hf : p.trail.isFalse l <;> simp [e, hf], order, rfl, fun _ _ => rfl,
        fun a ha open' => ?_, fun _ => rfl, fun long => absurd long short,
        fun _ => widens.watchers, rfl⟩
      rw [single a ha, hl] at open'
      cases open'

/-! ## Clauses with two literals -/

/-- The clause `c`, kept as `r`, has its literals in the order `ls` in the clauses `s`, and the
    watch lists `ws` have room for them. -/
structure Arranged (p : Propagation) (r : ClauseRef) (c : Clause) (s : ClauseStore)
    (ws : Table (Array Watcher)) (ls : List Lit) : Prop where
  /-- The clause has two literals. -/
  long : 2 ≤ c.length
  /-- It is there with its literals in the order. -/
  stored : s.get? r = some { c with literals := ls }
  /-- No literal comes or goes. -/
  perm : ls.Perm c.literals
  /-- Those that are not false come first. -/
  order : ∃ back, ls = p.nonFalse c ++ back ∧ back.Perm (c.literals.filter p.trail.isFalse)
  /-- No clause comes or goes. -/
  size : s.size = p.clauses.size
  /-- The other clauses stay as they are. -/
  others : ∀ q, q ≠ r → s.get? q = p.clauses.get? q
  /-- The lists have the watchers that they had. -/
  widens : p.Widens { p with watches := ws }
  /-- There is a list for every literal. -/
  room : ∀ l ∈ c.literals, Lit.code ⟨l.var, true⟩ < ws.size

/-- A clause with a literal that is not false is watched through the first two in the new
    order. -/
theorem attach_sorts {s : ClauseStore} {t : Trail} (h : p.Arranged r c s ws (a :: b :: rest))
    (ne : p.nonFalse c ≠ [])
    (forces : ∀ a, p.nonFalse c = [a] → p.trail.isOpen a = true →
      t.Coherent ∧ p.trail.Appends a (some r) t)
    (rests : (∀ a, p.nonFalse c = [a] → p.trail.isOpen a = false) → t = p.trail) :
    Yields (attach ⟨t, s, ws, p.next⟩ r) (p.Sorts r c none) := by
  have fits : ∀ l ∈ a :: b :: rest, (-l).code < ws.size := fun l hl =>
    Nat.lt_of_le_of_lt (-l).code_le (h.room l (h.perm.mem_iff.1 hl))
  refine (attach_appends (p := ⟨t, s, ws, p.next⟩) h.stored rfl (fits a (by simp))
    (fits b (by simp))).mono ?_
  rintro _ ⟨ws', rfl, -, attached⟩
  have notFalse : ¬ ∀ l ∈ c.literals, p.trail.isFalse l = true :=
    fun all => ne (nonFalse_eq_nil_iff.2 all)
  refine ⟨by rw [if_neg notFalse], ⟨_, h.stored, h.perm, fun _ => h.order⟩, h.size, h.others,
    forces, rests, fun _ _ => ⟨_, a, b, rest, h.stored, rfl, fun l => ?_⟩, ?_, rfl⟩
  · rw [attached, ← h.widens.watchers]
    rfl
  · rintro (short | none)
    · exact absurd h.long (Nat.not_le.2 short)
    · cases none

/-- Once a clause is in the new order, its first two literals tell what is to be done. -/
theorem arranged_sorts {s : ClauseStore} (coherent : p.trail.Coherent)
    (h : p.Arranged r c s ws (a :: b :: rest)) :
    Yields (do
      let p' : Propagation := ⟨p.trail, s, ws, p.next⟩
      if p'.trail.isFalse a then return (some r, p')
      else if p'.trail.isFalse b && p'.trail.isOpen a then
        let (_, p') ← p'.enqueue a (some r)
        return (none, ← p'.attach r)
      else return (none, ← p'.attach r))
      fun x => p.Sorts r c x.1 x.2 := by
  have attaches := fun t => attach_sorts (t := t) h
  obtain ⟨back, split, falses⟩ := h.order
  have behind : ∀ k ∈ back, p.trail.isFalse k = true := fun k hk =>
    (List.mem_filter.1 (falses.mem_iff.1 hk)).2
  have front : ∀ k ∈ p.nonFalse c, p.trail.isFalse k = false := fun k hk => (mem_nonFalse.1 hk).2
  -- the first two literals are not false as far as there are such literals
  rcases e : p.nonFalse c with _ | ⟨x, _ | ⟨y, more⟩⟩
  · rw [e, List.nil_append] at split
    have all := nonFalse_eq_nil_iff.1 e
    dsimp only
    rw [if_pos (behind a (by simp [← split]))]
    refine .pure ⟨by rw [if_pos all], ⟨_, h.stored, h.perm, fun _ => h.order⟩, h.size, h.others,
      ?_, fun _ => rfl, fun _ none => ?_, fun _ => h.widens.watchers, rfl⟩
    · rw [e]
      intro k single
      cases single
    · cases none
  · rw [e] at split front attaches
    obtain ⟨rfl, rfl⟩ := List.cons.inj split
    dsimp only
    rw [if_neg (by simp [front a]), behind b (by simp), Bool.true_and]
    have only : ∀ k, [a] = [k] → k = a := fun k ek => (List.cons.inj ek).1.symm
    split
    · rename_i open'
      obtain ⟨⟨_, t⟩, enqueued, -, coherent', appends⟩ :=
        Trail.enqueue_of_isOpen coherent open' (some r)
      simp only [enqueue, enqueued]
      refine .ok_bind ((attaches t (List.cons_ne_nil _ _) (fun k ek _ => ?_) fun closed => ?_).bind
        fun p' sorts => .pure sorts)
      · exact only k ek ▸ ⟨coherent', appends⟩
      · have := closed a rfl
        rw [open'] at this
        cases this
    · rename_i closed
      refine (attaches p.trail (List.cons_ne_nil _ _) (fun k ek open' => ?_) fun _ => rfl).bind
        fun p' sorts => .pure sorts
      exact absurd (only k ek ▸ open') closed
  · rw [e] at split front attaches
    obtain ⟨rfl, tail⟩ := List.cons.inj split
    obtain ⟨rfl, -⟩ := List.cons.inj tail
    dsimp only
    rw [if_neg (by simp [front a]), front b (by simp), Bool.false_and, if_neg Bool.false_ne_true]
    refine (attaches p.trail (List.cons_ne_nil _ _) (fun k ek _ => ?_) fun _ => rfl).bind
      fun p' sorts => .pure sorts
    cases ek

/-- A clause is put in order and classified, on a coherent trail and whatever else there is. -/
theorem addKept_sorts (h : p.trail.Coherent) (hc : p.clauses.get? r = some c) :
    Yields (p.addKept r) fun x => p.Sorts r c x.1 x.2 := by
  obtain ⟨ws, grow, widens, -, room⟩ := p.exists_watches_of_grow c.literals
  unfold addKept
  rw [ClauseStore.read_eq hc]
  refine .ok_bind ?_
  dsimp only
  rw [grow]
  rcases e : c.literals with _ | ⟨x, _ | ⟨y, more⟩⟩
  · exact .pure (sorts_empty hc e widens)
  · exact enqueue_sorts h hc e widens
  · have perm := Clause.nonFalseFirst_perm p.trail.isFalse c.literals
    have order := Clause.nonFalseFirst_eq p.trail.isFalse c.literals
    have long : 2 ≤ c.length := by simp [Clause.length, e]
    have many : 2 ≤ (Clause.nonFalseFirst p.trail.isFalse c.literals).length :=
      perm.length_eq ▸ long
    obtain ⟨a, b, rest, front⟩ : ∃ a b rest,
        Clause.nonFalseFirst p.trail.isFalse c.literals = a :: b :: rest := by
      rcases front : Clause.nonFalseFirst p.trail.isFalse c.literals with _ | ⟨a, _ | ⟨b, rest⟩⟩
      · simp [front] at many
      · simp [front] at many
      · exact ⟨a, b, rest, rfl⟩
    rw [front] at perm order
    rw [e] at front
    dsimp only
    rw [front]
    refine (arrange_yields (p := { p with watches := ws }) hc perm).bind ?_
    rintro _ ⟨s, rfl, rearranges, hs, others⟩
    exact arranged_sorts h ⟨long, hs, perm, order, rearranges.size, others, widens, room⟩

/-- What becomes of the clause, with nothing left open: it is given exactly when all its literals
    are false, the trail changes exactly when a single one is not false and this one is open, and
    the watch lists change exactly when the clause is not given and has two literals. -/
theorem addKept_exact (h : p.trail.Coherent) (hc : p.clauses.get? r = some c) :
    Yields (p.addKept r) fun x => p.Sorts r c x.1 x.2 ∧
      (x.1 = some r ↔ ∀ l ∈ c.literals, p.trail.isFalse l = true) ∧
      (x.2.trail ≠ p.trail ↔ ∃ a, p.nonFalse c = [a] ∧ p.trail.isOpen a = true) ∧
      (x.2.watchers ≠ p.watchers ↔ 2 ≤ c.length ∧ x.1 = none) := by
  refine (addKept_sorts h hc).mono ?_
  rintro ⟨conflict, p'⟩ sorts
  have given : conflict = some r ↔ ∀ l ∈ c.literals, p.trail.isFalse l = true := by
    by_cases all : ∀ l ∈ c.literals, p.trail.isFalse l = true
    · exact iff_of_true (sorts.given.trans (if_pos all)) all
    · refine iff_of_false (fun conflict => ?_) all
      cases conflict.symm.trans (sorts.given.trans (if_neg all))
  refine ⟨sorts, given, ⟨fun differ => ?_, ?_⟩, ⟨fun differ => ?_, ?_⟩⟩
  · refine Classical.byContradiction fun none => differ (sorts.rests fun a single => ?_)
    exact Bool.eq_false_iff.2 fun open' => none ⟨a, single, open'⟩
  · rintro ⟨a, single, open'⟩ same
    obtain ⟨-, appends⟩ := sorts.forces a single open'
    have longer := congrArg List.length appends.literals
    rw [show p'.trail = p.trail from same, List.length_append] at longer
    exact Nat.ne_of_lt (Nat.lt_succ_self _) longer
  · have watched : ¬ (c.length < 2 ∨ conflict = some r) := fun no => differ (sorts.unwatched no)
    obtain ⟨long, fine⟩ := not_or.1 watched
    exact ⟨Nat.not_lt.1 long, sorts.given.trans (if_neg fun all => fine (given.2 all))⟩
  · rintro ⟨long, none⟩ same
    obtain ⟨c', a, b, rest, -, -, attached⟩ := sorts.watched long none
    have longer := congrArg List.length (attached (-a))
    rw [show p'.watchers = p.watchers from same, ClauseStore.pairWatchers, if_pos rfl] at longer
    simp at longer

/-- A clause over 1 and 2, on a trail on which 1 is false: 2 comes to the front and is forced. -/
theorem addKept_exact_forced : ∃ (p : Propagation) (c : Clause),
    c.literals = [⟨1, true⟩, ⟨2, true⟩] ∧ p.trail.literals = [⟨1, false⟩] ∧ p.trail.limits = [] ∧
      p.trail.Coherent ∧ p.clauses.get? 0 = some c ∧
      Yields (p.addKept 0) fun x => p.Sorts 0 c x.1 x.2 ∧
        (x.1 = some 0 ↔ ∀ l ∈ c.literals, p.trail.isFalse l = true) ∧
        (x.2.trail ≠ p.trail ↔ ∃ a, p.nonFalse c = [a] ∧ p.trail.isOpen a = true) ∧
        (x.2.watchers ≠ p.watchers ↔ 2 ≤ c.length ∧ x.1 = none) := by
  obtain ⟨t, -, coherent, literals, limits, -⟩ :=
    Trail.assign_appends Trail.coherent_empty (l := ⟨1, false⟩) (by decide) (by decide) none
  exact ⟨⟨t, (ClauseStore.empty.add _).2, .empty, 0⟩, ⟨[⟨1, true⟩, ⟨2, true⟩], false, none, []⟩,
    rfl, literals, limits, coherent, rfl, addKept_exact coherent rfl⟩

end Propagation

end ClauseLearning
