/-
  Operations that are alike.

  Model. Two operations are alike when both give results, related ones, or both meet the same
  fault. In the results of an operation that gives a value and a state, the values are the same
  and the states are related (`Beside`).

  Rule. Operations one after the other are alike when each two are, under what the ones before
  have left (`Alike.bind`). The second one may do more in between, if that succeeds
  (`Alike.yields_bind`). Where the second one may succeed in spite of a fault of the first, only
  results are compared (`Grants`).
-/
import ClauseLearning.Proofs.Success

namespace ClauseLearning

/-- The operations give related results or meet the same fault. -/
def Alike {α α' : Type} (same : α → α' → Prop) : Except Fault α → Except Fault α' → Prop
  | .ok a, .ok a' => same a a'
  | .error e, .error e' => e = e'
  | _, _ => False

/-- The values are the same, and the states with them are related. -/
def Beside {α σ σ' : Type} (same : σ → σ' → Prop) (x : α × σ) (x' : α × σ') : Prop :=
  x.1 = x'.1 ∧ same x.2 x'.2

namespace Alike

variable {α α' β β' : Type} {same : α → α' → Prop} {x : Except Fault α} {x' : Except Fault α'}
  {f : α → Except Fault β} {f' : α' → Except Fault β'} {after : β → β' → Prop}

theorem bind (h : Alike same x x') (hf : ∀ a a', same a a' → Alike after (f a) (f' a')) :
    Alike after (x >>= f) (x' >>= f') := by
  cases x <;> cases x'
  · exact h
  · exact h.elim
  · exact h.elim
  · exact hf _ _ h

theorem eq_iff {y : Except Fault α} : Alike Eq x y ↔ x = y := by
  constructor
  · intro h
    cases x <;> cases y
    · exact congrArg Except.error h
    · exact h.elim
    · exact h.elim
    · exact congrArg Except.ok h
  · rintro rfl
    cases x <;> rfl

/-- The first operation may be the same. -/
theorem bind_same {g : α → Except Fault β'} (hf : ∀ a, Alike after (f a) (g a)) :
    Alike after (x >>= f) (x >>= g) :=
  (eq_iff.2 rfl).bind fun a _ e => e ▸ hf a

theorem bind_eq {g : α → Except Fault β} {g' : α' → Except Fault β} (h : Alike same x x')
    (hg : ∀ a a', same a a' → g a = g' a') : x >>= g = x' >>= g' :=
  eq_iff.1 (h.bind fun a a' ha => eq_iff.2 (hg a a' ha))

theorem map_eq {g : α → α'} (h : Alike (fun a a' => g a = a') x x') : g <$> x = x' := by
  cases x <;> cases x'
  · exact congrArg Except.error h
  · exact h.elim
  · exact h.elim
  · exact congrArg Except.ok h

theorem mono {same' : α → α' → Prop} (h : Alike same x x') (hs : ∀ a a', same a a' → same' a a') :
    Alike same' x x' := by
  cases x <;> cases x'
  · exact h
  · exact h.elim
  · exact h.elim
  · exact hs _ _ h

/-- What is known of the second result may be added. -/
theorem and_yields {post : α' → Prop} (h : Alike same x x') (hx : Yields x' post) :
    Alike (fun a a' => same a a' ∧ post a') x x' := by
  obtain ⟨a', rfl, ha'⟩ := hx
  cases x
  · exact h.elim
  · exact ⟨h, ha'⟩

/-- There are related results, or the same fault. -/
theorem results (h : Alike same x x') :
    (∃ e, x = .error e ∧ x' = .error e) ∨ ∃ a a', x = .ok a ∧ x' = .ok a' ∧ same a a' := by
  cases x <;> cases x'
  · exact .inl ⟨_, rfl, congrArg Except.error h.symm⟩
  · exact h.elim
  · exact h.elim
  · exact .inr ⟨_, _, rfl, rfl, h⟩

/-- The results may be named. -/
theorem and_eq (h : Alike same x x') :
    Alike (fun a a' => same a a' ∧ x = .ok a ∧ x' = .ok a') x x' := by
  cases x <;> cases x'
  · exact h
  · exact h.elim
  · exact h.elim
  · exact ⟨h, rfl, rfl⟩

/-- The first operation may have nothing to do, when the second one succeeds. -/
theorem of_yields {a : α} (h : Yields x' (same a)) : Alike same (.ok a) x' := by
  obtain ⟨a', rfl, ha'⟩ := h
  exact ha'

/-- The second operation may do something more, before it goes on, that succeeds. -/
theorem yields_bind {y : Except Fault β} {post : α' → Prop} (hx : Yields x' post)
    (hf : ∀ a', post a' → Alike after y (f' a')) : Alike after y (x' >>= f') := by
  obtain ⟨a', rfl, ha'⟩ := hx
  exact hf a' ha'

/-- Loops over the same list are alike when their steps are. -/
theorem foldlM {σ σ' ι : Type} {kept : σ → σ' → Prop} {step : σ → ι → Except Fault σ}
    {step' : σ' → ι → Except Fault σ'} {todo : List ι}
    (h : ∀ s s', ∀ i ∈ todo, kept s s' → Alike kept (step s i) (step' s' i)) {s : σ} {s' : σ'}
    (start : kept s s') : Alike kept (todo.foldlM step s) (todo.foldlM step' s') := by
  induction todo generalizing s s' with
  | nil => exact start
  | cons i todo ih =>
    rw [List.foldlM_cons, List.foldlM_cons]
    refine (h s s' i (.head _) start).bind fun s s' start => ?_
    exact ih (fun s s' j hj => h s s' j (.tail _ hj)) start

end Alike

/-- The second operation gives the result of the first one, if that has one. -/
def Grants {α : Type} (x x' : Except Fault α) : Prop := ∀ a, x = .ok a → x' = .ok a

namespace Grants

variable {α β : Type} {x x' : Except Fault α}

theorem refl (x : Except Fault α) : Grants x x := fun _ => id

theorem bind {f f' : α → Except Fault β} (h : Grants x x') (hf : ∀ a, Grants (f a) (f' a)) :
    Grants (x >>= f) (x' >>= f') := by
  intro b e
  obtain ⟨a, ha, e⟩ := Yields.exists_of_bind e
  rw [h a ha]
  exact hf a b e

theorem foldlM {σ ι : Type} {step step' : σ → ι → Except Fault σ}
    (h : ∀ s i, Grants (step s i) (step' s i)) (todo : List ι) (s : σ) :
    Grants (todo.foldlM step s) (todo.foldlM step' s) := by
  induction todo generalizing s with
  | nil => exact .refl _
  | cons i todo ih =>
    rw [List.foldlM_cons, List.foldlM_cons]
    exact (h s i).bind ih

theorem mapM {ι : Type} {f f' : ι → Except Fault α} (h : ∀ i, Grants (f i) (f' i))
    (is : List ι) : Grants (is.mapM f) (is.mapM f') := by
  induction is with
  | nil => exact .refl _
  | cons i is ih =>
    rw [List.mapM_cons, List.mapM_cons]
    exact (h i).bind fun a => ih.bind fun as => .refl _

end Grants

end ClauseLearning
