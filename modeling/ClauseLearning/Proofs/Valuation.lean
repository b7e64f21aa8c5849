/-
  What clauses mean.

  Model. A valuation gives every variable a truth value. It satisfies a clause when it makes one
  of the literals true; the order of the literals and repetitions do not matter. A clause is
  entailed by others when every valuation that satisfies those satisfies it.
-/
import ClauseLearning.Lit

namespace ClauseLearning

/-- A truth value for every variable. -/
abbrev Valuation := Var → Bool

/-- The valuation makes the literal true. -/
def Lit.Holds (m : Valuation) (l : Lit) : Prop := m l.var = l.positive

/-- The valuation makes one of the literals true. -/
def Valuation.Satisfies (m : Valuation) (ls : List Lit) : Prop := ∃ l ∈ ls, l.Holds m

theorem Lit.holds_neg {m : Valuation} {l : Lit} : (-l).Holds m ↔ ¬ l.Holds m := by
  simp only [Lit.Holds, Lit.neg_var, Lit.neg_positive]
  cases m l.var <;> cases l.positive <;> simp

theorem Lit.eq_of_var_eq {l k : Lit} (h : l.var = k.var) : l = k ∨ l = -k := by
  obtain ⟨v, b⟩ := l
  obtain ⟨w, c⟩ := k
  obtain rfl : v = w := h
  by_cases hbc : b = c
  · exact .inl (hbc ▸ rfl)
  · exact .inr (by cases b <;> cases c <;> simp_all [Neg.neg, Lit.neg])

theorem Lit.neg_inj {l k : Lit} (h : -l = -k) : l = k := by
  rw [← Lit.neg_neg l, h, Lit.neg_neg]

namespace Valuation

variable {m : Valuation} {ls ks : List Lit}

theorem Satisfies.subset (h : m.Satisfies ls) (sub : ∀ l ∈ ls, l ∈ ks) : m.Satisfies ks := by
  obtain ⟨l, hl, holds⟩ := h
  exact ⟨l, sub l hl, holds⟩

theorem satisfies_congr (h : ∀ l, l ∈ ls ↔ l ∈ ks) : m.Satisfies ls ↔ m.Satisfies ks :=
  ⟨fun s => s.subset fun l => (h l).1, fun s => s.subset fun l => (h l).2⟩

/-- A clause with all literals false but one makes that one true. -/
theorem Satisfies.forced {l : Lit} (h : m.Satisfies ls)
    (others : ∀ k ∈ ls, k ≠ l → ¬ k.Holds m) : l.Holds m := by
  obtain ⟨k, hk, holds⟩ := h
  by_cases e : k = l
  · exact e ▸ holds
  · exact absurd holds (others k hk e)

end Valuation

end ClauseLearning
