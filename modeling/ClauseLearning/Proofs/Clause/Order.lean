/-
  The literals of a clause, and their order.

  Model. A clause made from a list has the literals of the list, each once (`mem_ofList`,
  `nodup_ofList`). After that only the order changes: two clauses are rearrangements of each other
  when they agree but for the order of their literals.

  Rule. `nonFalseFirst_eq`: adding a clause puts the literals that are not false in front, in the
  order they had, and the false ones behind them in some order. It is the order that the exchanges
  make in place, which go over the clause once (`exchanges_eq`).
-/
import Mathlib.Data.List.Rotate
import ClauseLearning.Clause
import ClauseLearning.Proofs.Valuation

namespace ClauseLearning

theorem nodup_eraseDups {α : Type} [BEq α] [LawfulBEq α] (xs : List α) :
    xs.eraseDups.Nodup := by
  -- the recursion of `eraseDups` is on the list without the copies of its first element
  induction n : xs.length using Nat.strongRecOn generalizing xs with
  | _ n ih =>
    subst n
    cases xs with
    | nil => simp
    | cons x xs =>
      rw [List.eraseDups_cons, List.nodup_cons]
      refine ⟨?_, ih _ (Nat.lt_succ_of_le (List.length_filter_le ..)) _ rfl⟩
      rw [List.mem_eraseDups]
      simp

theorem NatSet.contains_ofList (ks : List Nat) (k : Nat) :
    (NatSet.ofList ks).contains k = true ↔ k ∈ ks := by
  have loop : ∀ (s : NatSet), (ks.foldl NatSet.add s).contains k = true ↔
      s.contains k = true ∨ k ∈ ks := by
    induction ks with
    | nil => simp
    | cons j ks ih =>
      intro s
      rw [List.foldl_cons, ih, NatSet.add, NatMap.contains_insert]
      simp only [Bool.or_eq_true, beq_iff_eq, List.mem_cons]
      rw [or_assoc, or_left_comm]
  refine (loop .empty).trans ?_
  simp

namespace Clause

theorem firsts_code (ls : List Lit) : firsts Lit.code ls = ls.eraseDups :=
  firsts_eq_eraseDups (fun _ _ => Lit.code_inj) ls

theorem mem_ofList {ls : List Lit} {learned : Bool} {provenance : Option String} {l : Lit} :
    l ∈ (ofList ls learned provenance).literals ↔ l ∈ ls := by
  rw [ofList, firsts_code, List.mem_eraseDups]

theorem nodup_ofList (ls : List Lit) (learned : Bool) (provenance : Option String) :
    (ofList ls learned provenance).literals.Nodup := by
  rw [ofList, firsts_code]
  exact nodup_eraseDups ls

/-- A list without repetitions is the list of literals of the clause learned from it. -/
theorem literals_learnedFrom {ls : List Lit} (h : ls.Nodup) (antecedents : List ClauseRef) :
    (learnedFrom ls antecedents).literals = ls := by
  change firsts Lit.code ls = ls
  rw [firsts_code]
  induction ls with
  | nil => rfl
  | cons l ls ih =>
    rw [List.nodup_cons] at h
    have others : ls.filter (fun k => !k == l) = ls := by
      refine List.filter_eq_self.2 fun k hk => ?_
      have : k ≠ l := fun e => h.1 (e ▸ hk)
      simpa using this
    rw [List.eraseDups_cons, others, ih h.2]

/-- A clause that is always true holds a literal and its negation. -/
theorem exists_of_isTautology {c : Clause} (h : c.isTautology = true) :
    ∃ l ∈ c.literals, -l ∈ c.literals := by
  simp only [isTautology, List.any_eq_true, NatSet.contains_ofList, List.mem_map] at h
  obtain ⟨l, hl, k, hk, e⟩ := h
  exact ⟨l, hl, Lit.code_inj e ▸ hk⟩

/-! ## The order when a clause is added -/

section Passing

variable {isFalse : Lit → Bool} {p : Passed} {l : Lit}

/-- The false literals passed, the one that has waited longest first. -/
def Passed.falses (p : Passed) : List Lit := p.waiting ++ p.behind.reverse

theorem Passed.toList_eq (p : Passed) : p.toList = p.front.reverse ++ p.falses := rfl

/-- A false literal waits behind the others. -/
theorem Passed.pass_of_false (hl : isFalse l = true) :
    (p.pass isFalse l).front = p.front ∧ (p.pass isFalse l).falses = p.falses ++ [l] := by
  simp [pass, hl, falses]

/-- A literal that is not false moves the one that has waited longest behind the others. -/
theorem Passed.pass_of_not_false (hl : isFalse l = false) :
    (p.pass isFalse l).front = l :: p.front ∧
      (p.pass isFalse l).falses = p.falses.rotate 1 := by
  obtain ⟨front, waiting, behind⟩ := p
  cases waiting with
  | cons m waiting => simp [pass, hl, falses]
  | nil => cases e : behind.reverse <;> simp [pass, hl, falses, e]

theorem Passed.toList_pass (isFalse : Lit → Bool) (p : Passed) (l : Lit) :
    (p.pass isFalse l).toList = if isFalse l then p.toList ++ [l]
      else p.front.reverse ++ [l] ++ p.falses.rotate 1 := by
  rw [toList_eq, toList_eq]
  split
  · rename_i hl
    obtain ⟨front, falses⟩ := pass_of_false (p := p) hl
    rw [front, falses, List.append_assoc]
  · rename_i hl
    obtain ⟨front, falses⟩ := pass_of_not_false (p := p) (Bool.eq_false_iff.2 hl)
    rw [front, falses, List.reverse_cons]

theorem Passed.length_toList_pass (isFalse : Lit → Bool) (p : Passed) (l : Lit) :
    (p.pass isFalse l).toList.length = p.toList.length + 1 := by
  rw [toList_pass]
  split
  · exact List.length_append
  · rw [List.length_append, List.length_append, List.length_rotate, toList_eq, List.length_append]
    exact Nat.add_right_comm ..

theorem passed_eq (isFalse : Lit → Bool) (ls : List Lit) (p : Passed) :
    let q := ls.foldl (Passed.pass isFalse) p
    q.front.reverse = p.front.reverse ++ ls.filter (fun l => !isFalse l) ∧
      q.falses.Perm (p.falses ++ ls.filter isFalse) := by
  induction ls generalizing p with
  | nil => simp
  | cons l ls ih =>
    obtain ⟨front, falses⟩ := ih (p.pass isFalse l)
    cases hl : isFalse l with
    | true =>
      obtain ⟨front', falses'⟩ := Passed.pass_of_false (p := p) hl
      rw [front'] at front
      rw [falses'] at falses
      exact ⟨by simpa [hl] using front, by simpa [hl] using falses⟩
    | false =>
      obtain ⟨front', falses'⟩ := Passed.pass_of_not_false (p := p) hl
      rw [front'] at front
      rw [falses'] at falses
      have turned := falses.trans (.append_right _ (p.falses.rotate_perm 1))
      exact ⟨by simpa [hl] using front, by simpa [hl] using turned⟩

end Passing

/-- The literals that are not false come first, in their order. -/
theorem nonFalseFirst_eq (isFalse : Lit → Bool) (ls : List Lit) :
    ∃ back, nonFalseFirst isFalse ls = ls.filter (fun l => !isFalse l) ++ back ∧
      back.Perm (ls.filter isFalse) := by
  obtain ⟨front, back⟩ := passed_eq isFalse ls ⟨[], [], []⟩
  refine ⟨_, ?_, by simpa [Passed.falses] using back⟩
  rw [nonFalseFirst, Passed.toList_eq, front]
  rfl

theorem nonFalseFirst_perm (isFalse : Lit → Bool) (ls : List Lit) :
    (nonFalseFirst isFalse ls).Perm ls := by
  obtain ⟨back, e, perm⟩ := nonFalseFirst_eq isFalse ls
  rw [e]
  refine (List.Perm.append_left _ perm).trans ?_
  have := List.filter_append_perm (fun l => !isFalse l) ls
  simpa using this

/-- When a literal of the new order is false, so are all behind it. -/
theorem nonFalseFirst_sorted {isFalse : Lit → Bool} {ls front back : List Lit} {l k : Lit}
    (e : nonFalseFirst isFalse ls = front ++ l :: back) (hl : isFalse l = true)
    (hk : k ∈ back) : isFalse k = true := by
  obtain ⟨falses, split, perm⟩ := nonFalseFirst_eq isFalse ls
  have order : (nonFalseFirst isFalse ls).Pairwise
      fun x y => isFalse x = true → isFalse y = true := by
    rw [split, List.pairwise_append]
    refine ⟨?_, ?_, ?_⟩
    · refine List.pairwise_of_forall_mem_list fun x hx y _ hf => ?_
      simp [hf] at hx
    · refine List.pairwise_of_forall_mem_list fun x _ y hy _ => ?_
      exact (List.mem_filter.1 (perm.mem_iff.1 hy)).2
    · intro x hx y _ hf
      simp [hf] at hx
  rw [e, List.pairwise_append, List.pairwise_cons] at order
  exact order.2.1.1 k hk hl

/-! The same order in place. Going over the places of a clause once, a literal that is not false
    changes places with the one at the first place that none of them has taken yet. -/

/-- What is done at a place, where `taken` is the number of places taken. -/
def exchange (isFalse : Lit → Bool) : Nat × Clause → Nat → Except Fault (Nat × Clause)
  | (taken, c), i => do
    if isFalse (← c.read i) then return (taken, c) else return (taken + 1, ← c.swap taken i)

theorem swap_passed {p : Passed} {c : Clause} {l : Lit} {rest : List Lit}
    (e : c.literals = p.toList ++ l :: rest) :
    c.swap p.front.length p.toList.length =
      .ok { c with literals := p.front.reverse ++ [l] ++ p.falses.rotate 1 ++ rest } := by
  unfold swap
  rw [e, Passed.toList_eq]
  cases p.falses <;> simp

/-- The places taken hold the literals in front, and those behind them the false ones. -/
theorem exchange_eq (isFalse : Lit → Bool) {p : Passed} {c : Clause} {l : Lit} {rest : List Lit}
    (e : c.literals = p.toList ++ l :: rest) :
    exchange isFalse (p.front.length, c) p.toList.length =
      .ok ((p.pass isFalse l).front.length,
        { c with literals := (p.pass isFalse l).toList ++ rest }) := by
  have here : c.read p.toList.length = .ok l := by
    unfold read
    rw [e]
    simp
  unfold exchange
  dsimp only
  rw [here, Passed.toList_pass]
  change (if isFalse l = true then _ else _) = _
  split
  · rename_i hl
    rw [(Passed.pass_of_false hl).1, List.append_assoc, List.singleton_append, ← e]
    rfl
  · rename_i hl
    rw [(Passed.pass_of_not_false (Bool.eq_false_iff.2 hl)).1, swap_passed e]
    rfl

/-- The exchanges at the places of `ls` pass the literals of `ls`. -/
theorem foldlM_exchange (isFalse : Lit → Bool) (ls : List Lit) {p : Passed} {c : Clause}
    (e : c.literals = p.toList ++ ls) :
    (List.range' p.toList.length ls.length).foldlM (exchange isFalse) (p.front.length, c) =
      .ok ((ls.foldl (Passed.pass isFalse) p).front.length,
        { c with literals := (ls.foldl (Passed.pass isFalse) p).toList }) := by
  induction ls generalizing p c with
  | nil =>
    rw [List.append_nil] at e
    rw [List.foldl_nil, ← e]
    rfl
  | cons l ls ih =>
    rw [List.length_cons, List.range'_succ, List.foldlM_cons, exchange_eq isFalse e,
      ← Passed.length_toList_pass]
    exact ih rfl

/-- The exchanges over all places give the order of `nonFalseFirst`. -/
theorem exchanges_eq (isFalse : Lit → Bool) (c : Clause) :
    (List.range c.length).foldlM (exchange isFalse) (0, c) =
      .ok ((c.literals.filter fun l => !isFalse l).length,
        { c with literals := nonFalseFirst isFalse c.literals }) := by
  have taken : (c.literals.foldl (Passed.pass isFalse) ⟨[], [], []⟩).front.length =
      (c.literals.filter fun l => !isFalse l).length := by
    rw [← List.length_reverse, (passed_eq isFalse c.literals ⟨[], [], []⟩).1]
    rfl
  rw [List.range_eq_range', ← taken]
  exact foldlM_exchange isFalse c.literals (p := ⟨[], [], []⟩) rfl

/-! ## Rearranging -/

/-- The first clause is the second one with its literals in some order. -/
structure Rearranges (c' c : Clause) : Prop where
  /-- The literals are the same. -/
  literals : c'.literals.Perm c.literals
  /-- Both are learned or neither is. -/
  learned : c'.learned = c.learned
  /-- The rule they come from is the same. -/
  provenance : c'.provenance = c.provenance
  /-- The clauses they were resolved from are the same. -/
  antecedents : c'.antecedents = c.antecedents

namespace Rearranges

variable {c c' c'' : Clause}

theorem refl (c : Clause) : c.Rearranges c := ⟨.rfl, rfl, rfl, rfl⟩

theorem trans (h : c''.Rearranges c') (h' : c'.Rearranges c) : c''.Rearranges c :=
  ⟨h.literals.trans h'.literals, h.learned.trans h'.learned, h.provenance.trans h'.provenance,
    h.antecedents.trans h'.antecedents⟩

theorem mem_iff (h : c'.Rearranges c) {l : Lit} : l ∈ c'.literals ↔ l ∈ c.literals :=
  h.literals.mem_iff

theorem satisfies_iff (h : c'.Rearranges c) {m : Valuation} :
    m.Satisfies c'.literals ↔ m.Satisfies c.literals :=
  Valuation.satisfies_congr fun _ => h.mem_iff

end Rearranges

end Clause

end ClauseLearning
