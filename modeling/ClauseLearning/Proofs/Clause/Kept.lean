/-
  The clauses that are kept.

  Model. A clause that is kept is there for good, and all that changes in it is the order of its
  literals (`ClauseStore.Rearranges`). A learned clause is derived when it was resolved from
  clauses kept before it and follows from them. Where every learned clause is derived, whatever
  satisfies the given clauses satisfies all (`Derived.satisfies`).
-/
import ClauseLearning.Clause.Store
import ClauseLearning.Proofs.Clause.Order
import ClauseLearning.Proofs.Assignment.Counted

namespace ClauseLearning.ClauseStore

variable {s s' s'' : ClauseStore} {r q : ClauseRef} {c c' : Clause}

theorem lt_size_of_get? (h : s.get? r = some c) : r < s.size := Table.lt_size_of_get? h

theorem get?_isSome_of_lt (h : r < s.size) : ∃ c, s.get? r = some c := Table.get?_isSome_of_lt h

theorem read_eq (h : s.get? r = some c) : s.read r = .ok c := Table.read_eq_ok_iff.2 h

theorem mem_toList : c ∈ s.toList ↔ ∃ r, s.get? r = some c := by
  simp only [toList, Table.toList, Array.mem_toList_iff]
  constructor
  · exact Array.getElem?_of_mem
  · rintro ⟨r, h⟩
    exact Array.mem_of_getElem? h

theorem get?_add (s : ClauseStore) (c : Clause) (r : ClauseRef) :
    (s.add c).2.get? r = if r = s.size then some c else s.get? r := Table.get?_push ..

theorem get?_add_self (s : ClauseStore) (c : Clause) : (s.add c).2.get? s.size = some c := by
  rw [get?_add, if_pos rfl]

theorem get?_add_of_get? (h : s.get? r = some c) (c' : Clause) :
    (s.add c').2.get? r = some c := by
  rw [get?_add, if_neg (Nat.ne_of_lt (lt_size_of_get? h)), h]

/-- A clause of the grown store is the new one or was there. -/
theorem get?_of_add (h : (s.add c').2.get? r = some c) :
    r = s.size ∧ c = c' ∨ s.get? r = some c := by
  rw [get?_add] at h
  split at h
  · exact .inl ⟨‹_›, (Option.some.inj h).symm⟩
  · exact .inr h

/-- The first store has the clauses of the second one, and maybe more, with the literals in some
    order. -/
def Includes (s' s : ClauseStore) : Prop :=
  ∀ r c, s.get? r = some c → ∃ c', s'.get? r = some c' ∧ c'.Rearranges c

namespace Includes

theorem refl (s : ClauseStore) : s.Includes s := fun _ c h => ⟨c, h, .refl c⟩

theorem trans (h : s''.Includes s') (h' : s'.Includes s) : s''.Includes s := by
  intro r c hc
  obtain ⟨c', hc', e'⟩ := h' r c hc
  obtain ⟨c'', hc'', e''⟩ := h r c' hc'
  exact ⟨c'', hc'', e''.trans e'⟩

theorem add (s : ClauseStore) (c : Clause) : (s.add c).2.Includes s :=
  fun _ d hd => ⟨d, get?_add_of_get? hd c, .refl d⟩

theorem size_le (h : s'.Includes s) : s.size ≤ s'.size := by
  refine Nat.le_of_not_lt fun fewer => ?_
  obtain ⟨c, hc⟩ := get?_isSome_of_lt fewer
  obtain ⟨c', hc', -⟩ := h _ c hc
  exact Nat.lt_irrefl _ (lt_size_of_get? hc')

end Includes

/-- The first store has the clauses of the second one with their literals in some order. -/
structure Rearranges (s' s : ClauseStore) : Prop where
  /-- No clause comes or goes. -/
  size : s'.size = s.size
  /-- Every clause is there in some order. -/
  clauses : s'.Includes s

namespace Rearranges

theorem refl (s : ClauseStore) : s.Rearranges s := ⟨rfl, .refl s⟩

theorem trans (h : s''.Rearranges s') (h' : s'.Rearranges s) : s''.Rearranges s :=
  ⟨h.size.trans h'.size, h.clauses.trans h'.clauses⟩

/-- Every clause there is one that was there. -/
theorem origin (h : s'.Rearranges s) (hc : s'.get? r = some c') :
    ∃ c, s.get? r = some c ∧ c'.Rearranges c := by
  obtain ⟨c, hold⟩ := get?_isSome_of_lt (h.size ▸ lt_size_of_get? hc)
  obtain ⟨d, hd, e⟩ := h.clauses r c hold
  cases hd.symm.trans hc
  exact ⟨c, hold, e⟩

end Rearranges

/-- The literals of a clause are put in another order. -/
theorem arrange_yields (h : s.get? r = some c) {ls : List Lit} (perm : ls.Perm c.literals) :
    Yields (s.arrange r ls) fun s' =>
      s'.Rearranges s ∧ s'.get? r = some { c with literals := ls } ∧
        ∀ q, q ≠ r → s'.get? q = s.get? q := by
  refine (Table.update_yields (lt_size_of_get? h) _).bind fun clauses ⟨size, get⟩ => .pure ?_
  have here : get? ⟨clauses, s.numLearned⟩ r = some { c with literals := ls } := by
    have := get r
    rw [if_pos rfl] at this
    exact this.trans (by rw [show s.clauses.get? r = some c from h]; rfl)
  have there : ∀ q, q ≠ r → get? ⟨clauses, s.numLearned⟩ q = s.get? q := by
    intro q hq
    have := get q
    rwa [if_neg hq] at this
  refine ⟨⟨size, fun q d hd => ?_⟩, here, there⟩
  by_cases e : q = r
  · subst e
    cases h.symm.trans hd
    exact ⟨_, here, perm, rfl, rfl, rfl⟩
  · exact ⟨d, (there q e).trans hd, .refl d⟩

/-! ## Derived clauses -/

/-- The clauses of some references entail the clause of the given literals. -/
def Entails (s : ClauseStore) (refs : List ClauseRef) (ls : List Lit) : Prop :=
  ∀ m : Valuation, (∀ a ∈ refs, ∀ d, s.get? a = some d → m.Satisfies d.literals) →
    m.Satisfies ls

/-- Every learned clause was resolved from clauses before it and follows from them. -/
def Derived (s : ClauseStore) : Prop :=
  ∀ r c, s.get? r = some c → c.learned = true →
    (∀ a ∈ c.antecedents, a < r) ∧ s.Entails c.antecedents c.literals

/-- The given clauses among some that lead to each other's antecedents entail them all. -/
theorem Derived.satisfies_of_closed (h : s.Derived) (among : ClauseRef → Prop) {m : Valuation}
    (closed : ∀ r c, among r → s.get? r = some c → c.learned = true →
      ∀ a ∈ c.antecedents, among a)
    (given : ∀ r c, among r → s.get? r = some c → c.learned = false → m.Satisfies c.literals)
    (hr : among r) (hc : s.get? r = some c) : m.Satisfies c.literals := by
  -- antecedents come before what is learned from them
  induction r using Nat.strongRecOn generalizing c with
  | _ r ih =>
    cases learned : c.learned with
    | false => exact given r c hr hc learned
    | true =>
      obtain ⟨before, follows⟩ := h r c hc learned
      exact follows m fun a ha d hd => ih a (before a ha) (closed r c hr hc learned a ha) hd

/-- What satisfies the given clauses satisfies the learned ones. -/
theorem Derived.satisfies (h : s.Derived) {m : Valuation}
    (given : ∀ r c, s.get? r = some c → c.learned = false → m.Satisfies c.literals)
    (hc : s.get? r = some c) : m.Satisfies c.literals :=
  h.satisfies_of_closed (fun _ => True) (fun _ _ _ _ _ _ _ => trivial)
    (fun r c _ => given r c) trivial hc

theorem derived_empty : empty.Derived := by
  intro r c h
  simp [empty, get?] at h

theorem Derived.rearranges (h : s.Derived) (e : s'.Rearranges s) : s'.Derived := by
  intro r c' hc' learned
  obtain ⟨c, hc, same⟩ := e.origin hc'
  obtain ⟨before, follows⟩ := h r c hc (same.learned ▸ learned)
  rw [same.antecedents]
  refine ⟨before, fun m hm => same.satisfies_iff.2 (follows m fun a ha d hd => ?_)⟩
  obtain ⟨d', hd', same'⟩ := e.clauses a d hd
  exact same'.satisfies_iff.1 (hm a ha d' hd')

/-- A new clause is given, or it was resolved from clauses of the store and follows from them. -/
theorem Derived.add (h : s.Derived)
    (new : c.learned = true →
      (∀ a ∈ c.antecedents, a < s.size) ∧ s.Entails c.antecedents c.literals) :
    (s.add c).2.Derived := by
  intro r d hd learned
  rcases get?_of_add hd with ⟨rfl, rfl⟩ | old
  · obtain ⟨before, follows⟩ := new learned
    exact ⟨before, fun m hm => follows m fun a ha d hd =>
      hm a ha d (get?_add_of_get? hd _)⟩
  · obtain ⟨before, follows⟩ := h r d old learned
    exact ⟨before, fun m hm => follows m fun a ha d hd =>
      hm a ha d (get?_add_of_get? hd _)⟩

end ClauseLearning.ClauseStore
