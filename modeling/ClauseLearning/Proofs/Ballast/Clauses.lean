/-
  Stores laden with clauses that are always true.

  Model. A store is laden when it has the clauses of another one under new names, and besides them
  only clauses that hold a literal and its negation (`ClauseStore.Laden`). The names grow with the
  references, and the clauses to come are kept under the next ones on both sides.

  Rule. A clause that is kept on both sides has the names as they are (`Laden.add`); one that is
  always true and kept on the second side only moves those of the clauses to come (`Laden.ballast`).
-/
import Mathlib.Order.Monotone.Basic
import ClauseLearning.Proofs.Alike
import ClauseLearning.Proofs.Clause.Kept

namespace ClauseLearning

/-- The clause holds a literal and its negation. -/
def Clause.HoldsAlways (c : Clause) : Prop := ∃ l ∈ c.literals, -l ∈ c.literals

theorem Clause.Rearranges.holdsAlways {c c' : Clause} (e : c'.Rearranges c) (h : c.HoldsAlways) :
    c'.HoldsAlways := by
  obtain ⟨l, hl, hn⟩ := h
  exact ⟨l, e.mem_iff.2 hl, e.mem_iff.2 hn⟩

/-- The clause with new names for the clauses it was resolved from. -/
def Clause.rename (f : ClauseRef → ClauseRef) (c : Clause) : Clause :=
  { c with antecedents := if c.learned then c.antecedents.map f else [] }

@[simp] theorem Clause.literals_rename (f : ClauseRef → ClauseRef) (c : Clause) :
    (c.rename f).literals = c.literals := rfl

/-- The names when those from `n` on have moved by one. -/
def ClauseRef.skipping (n : Nat) (f : ClauseRef → ClauseRef) (r : ClauseRef) : ClauseRef :=
  if r < n then f r else f r + 1

namespace ClauseStore

/-- The second store has the clauses of the first one under the names `f`, and besides them only
    clauses that are always true. -/
structure Laden (f : ClauseRef → ClauseRef) (s s' : ClauseStore) : Prop where
  /-- The names are in the order of the references. -/
  mono : StrictMono f
  /-- The names of the clauses to come. -/
  next : ∀ i, f (s.size + i) = s'.size + i
  /-- The clauses of the first store. -/
  clause : ∀ r, s'.get? (f r) = (s.get? r).map (Clause.rename f)
  /-- The others. -/
  others : ∀ q c, s'.get? q = some c → (∀ r, f r ≠ q) → c.HoldsAlways

theorem laden_empty : empty.Laden id empty where
  mono := strictMono_id
  next _ := rfl
  clause r := by simp [empty, get?]
  others q c h := by simp [empty, get?] at h

namespace Laden

variable {f : ClauseRef → ClauseRef} {s s' : ClauseStore} {r q : ClauseRef} {c : Clause}

theorem name_size (h : s.Laden f s') : f s.size = s'.size := h.next 0

theorem name_lt_iff (h : s.Laden f s') : f r < s'.size ↔ r < s.size := by
  rw [← h.name_size, h.mono.lt_iff_lt]

theorem name_eq_size_iff (h : s.Laden f s') : f r = s'.size ↔ r = s.size := by
  rw [← h.name_size, h.mono.injective.eq_iff]

/-- A name that is given to a clause of either side is left as it is. -/
theorem eq_of_skipping (h : s.Laden f s') (e : ClauseRef.skipping s.size f r = q)
    (le : q ≤ s'.size) : r < s.size ∧ f r = q := by
  rw [ClauseRef.skipping] at e
  split at e
  · exact ⟨‹_›, e⟩
  · rename_i new
    have ge : s'.size ≤ f r := Nat.le_of_not_lt (mt h.name_lt_iff.1 new)
    rw [← e] at le
    exact absurd le (Nat.not_le.2 (Nat.lt_succ_of_le ge))

theorem get? (h : s.Laden f s') (hc : s.get? r = some c) : s'.get? (f r) = some (c.rename f) := by
  rw [h.clause, hc]
  rfl

theorem read (h : s.Laden f s') (r : ClauseRef) :
    Alike (fun c c' => s.get? r = some c ∧ c' = c.rename f) (s.read r) (s'.read (f r)) := by
  have same := h.clause r
  rw [ClauseStore.get?, ClauseStore.get?] at same
  rw [ClauseStore.read, ClauseStore.read, Table.read, Table.read, same, ClauseStore.get?]
  cases s.clauses.get? r with
  | none => rfl
  | some c => exact ⟨rfl, rfl⟩

/-- A clause is kept on both sides. -/
theorem add (h : s.Laden f s') (c : Clause) : (s.add c).2.Laden f (s'.add (c.rename f)).2 where
  mono := h.mono
  next i := by
    change f ((s.clauses.push c).size + i) = (s'.clauses.push (c.rename f)).size + i
    rw [Table.size_push, Table.size_push, Nat.add_assoc, Nat.add_assoc]
    exact h.next (1 + i)
  clause r := by
    rw [get?_add, get?_add, h.clause]
    by_cases e : r = s.size
    · rw [if_pos e, if_pos (h.name_eq_size_iff.2 e)]
      rfl
    · rw [if_neg e, if_neg (mt h.name_eq_size_iff.1 e)]
  others q d hd new := by
    rcases get?_of_add hd with ⟨e, -⟩ | old
    · exact absurd (h.name_size.trans e.symm) (new s.size)
    · exact h.others q d old new

/-- A clause that is always true is kept on the second side only. Of the names only those of the
    clauses to come change. -/
theorem ballast (h : s.Laden f s') (holds : c.HoldsAlways)
    (before : ∀ r c, s.get? r = some c → c.learned = true → ∀ a ∈ c.antecedents, a < s.size) :
    s.Laden (ClauseRef.skipping s.size f) (s'.add c).2 where
  mono q r lt := by
    have := h.mono lt
    simp only [ClauseRef.skipping]
    grind
  next i := by
    change _ = (s'.clauses.push c).size + i
    rw [ClauseRef.skipping, if_neg (Nat.not_lt.2 (Nat.le_add_right ..)), h.next, Table.size_push]
    exact Nat.add_right_comm ..
  clause r := by
    rw [ClauseRef.skipping, get?_add]
    split
    · rename_i old
      have ne : f r ≠ s'.size := fun e => Nat.ne_of_lt old (h.name_eq_size_iff.1 e)
      rw [if_neg ne, h.clause]
      cases hd : s.get? r with
      | none => rfl
      | some d =>
        refine congrArg some ?_
        rw [Clause.rename, Clause.rename]
        split
        · rename_i learned
          refine congrArg (fun as => { d with antecedents := as }) ?_
          refine List.map_congr_left fun a ha => ?_
          rw [ClauseRef.skipping, if_pos (before r d hd learned a ha)]
        · rfl
    · rename_i new
      have ge : s'.size ≤ f r := Nat.le_of_not_lt (mt h.name_lt_iff.1 new)
      have none : s.get? r = none := Table.get?_eq_none_iff.2 (Nat.le_of_not_lt new)
      rw [if_neg (Nat.ne_of_gt (Nat.lt_succ_of_le ge)), none]
      exact Table.get?_eq_none_iff.2 (Nat.le_succ_of_le ge)
  others q d hd new := by
    rcases get?_of_add hd with ⟨-, rfl⟩ | old
    · exact holds
    · refine h.others q d old fun r e => new r ?_
      have lt : r < s.size := h.name_lt_iff.1 (e ▸ lt_size_of_get? old)
      rw [ClauseRef.skipping, if_pos lt, e]

theorem arrange (h : s.Laden f s') (r : ClauseRef) (ls : List Lit) :
    Alike (Laden f) (s.arrange r ls) (s'.arrange (f r) ls) := by
  by_cases room : r < s.clauses.size
  · have room' : f r < s'.clauses.size := h.name_lt_iff.2 room
    obtain ⟨t, e, size, get⟩ := Table.update_yields room fun c => { c with literals := ls }
    obtain ⟨t', e', size', get'⟩ := Table.update_yields room' fun c => { c with literals := ls }
    rw [ClauseStore.arrange, ClauseStore.arrange, e, e']
    refine Laden.mk h.mono (fun i => ?_) (fun q => ?_) fun q d hd new => ?_
    · change f (t.size + i) = t'.size + i
      rw [size, size']
      exact h.next i
    · have same := h.clause
      simp only [ClauseStore.get?] at same
      rw [ClauseStore.get?, ClauseStore.get?, get, get', same, same]
      by_cases eq : q = r
      · rw [if_pos eq, if_pos (congrArg f eq)]
        cases s.clauses.get? r <;> rfl
      · rw [if_neg eq, if_neg fun e => eq (h.mono.injective e)]
    · rw [ClauseStore.get?, get', if_neg fun e => new r e.symm] at hd
      exact h.others q d hd new
  · have room' : ¬ f r < s'.clauses.size := mt h.name_lt_iff.1 room
    rw [ClauseStore.arrange, ClauseStore.arrange, Table.update, Table.update, if_neg room,
      if_neg room']
    rfl

/-- The literals of a clause without a name are put in another order. -/
theorem stir {s'' : ClauseStore} (h : s.Laden f s') (rearranges : s''.Rearranges s')
    (same : ∀ r, s''.get? (f r) = s'.get? (f r)) : s.Laden f s'' where
  mono := h.mono
  next i := by rw [h.next, rearranges.size]
  clause r := by rw [same, h.clause]
  others q d hd new := by
    obtain ⟨c, hc, e⟩ := rearranges.origin hd
    exact e.holdsAlways (h.others q c hc new)

end Laden

end ClauseStore

end ClauseLearning
