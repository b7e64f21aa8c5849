/-
  Operations that succeed.

  Model. An operation that can meet a fault succeeds with a property when it gives a result, no
  fault, and the result has the property. What an operation does is stated in this form, once for
  each operation; a sequence of operations succeeds when each one does under what the ones
  before it have left (`Yields.bind`). Where a fault is possible, `Ends` says which.
-/
import ClauseLearning.Fault

namespace ClauseLearning

/-- The operation gives a result, and the result has the property `post`. -/
def Yields {α : Type} (x : Except Fault α) (post : α → Prop) : Prop := ∃ a, x = .ok a ∧ post a

namespace Yields

variable {α β : Type} {x : Except Fault α} {post mid : α → Prop}

theorem ok {a : α} (h : post a) : Yields (.ok a) post := ⟨a, rfl, h⟩

theorem pure {a : α} (h : post a) : Yields (Pure.pure a) post := ⟨a, rfl, h⟩

theorem of_eq {a : α} (e : x = .ok a) (h : post a) : Yields x post := ⟨a, e, h⟩

theorem bind {f : α → Except Fault β} {after : β → Prop} (hx : Yields x mid)
    (hf : ∀ a, mid a → Yields (f a) after) : Yields (x >>= f) after := by
  obtain ⟨a, e, ha⟩ := hx
  obtain ⟨b, e', hb⟩ := hf a ha
  refine ⟨b, ?_, hb⟩
  rw [e]
  exact e'

theorem ok_bind {a : α} {f : α → Except Fault β} {after : β → Prop} (h : Yields (f a) after) :
    Yields (.ok a >>= f) after := h

theorem mono (hx : Yields x mid) (h : ∀ a, mid a → post a) : Yields x post := by
  obtain ⟨a, e, ha⟩ := hx
  exact ⟨a, e, h a ha⟩

/-- What holds of the result holds of the value the operation is known to give. -/
theorem of_ok (hx : Yields x post) {a : α} (e : x = .ok a) : post a := by
  obtain ⟨b, e', hb⟩ := hx
  cases e.symm.trans e'
  exact hb

theorem of_bind {f : α → Except Fault β} {after : β → Prop} (h : Yields (x >>= f) after) :
    ∃ a, x = .ok a ∧ Yields (f a) after := by
  cases x with
  | ok a => exact ⟨a, rfl, h⟩
  | error e =>
    obtain ⟨_, e', -⟩ := h
    cases e'

/-- A result comes from those of the operations before. -/
theorem exists_of_bind {f : α → Except Fault β} {b : β} (e : x >>= f = .ok b) :
    ∃ a, x = .ok a ∧ f a = .ok b := by
  cases x with
  | ok a => exact ⟨a, rfl, e⟩
  | error f => cases e

/-- Operations that go on alike from the result of another one give the same. -/
theorem bind_congr {f g : α → Except Fault β} (same : ∀ a, x = .ok a → f a = g a) :
    x >>= f = x >>= g := by
  cases x with
  | ok a => exact same a rfl
  | error f => rfl

/-- What is computed of the result is known. -/
theorem of_map {f : α → β} {b : β} (e : x.map f = .ok b) : Yields x (f · = b) := by
  cases x with
  | ok a =>
    cases e
    exact .ok rfl
  | error e' => cases e

/-- A loop over a list keeps what every step keeps. -/
theorem foldlM {σ ι : Type} {step : σ → ι → Except Fault σ} (inv : List ι → σ → Prop)
    (todo : List ι) {s : σ} (start : inv [] s)
    (h : ∀ done, ∀ i ∈ todo, ∀ s, inv done s → Yields (step s i) (inv (done ++ [i]))) :
    Yields (todo.foldlM step s) (inv todo) := by
  -- what was done so far grows in front of what is left
  have rest : ∀ done s, inv done s → Yields (todo.foldlM step s) (inv (done ++ todo)) := by
    induction todo with
    | nil => exact fun done s hs => .ok (by simpa using hs)
    | cons i todo ih =>
      intro done s hs
      rw [List.foldlM_cons]
      refine bind (h done i (by simp) s hs) fun s' hs' => ?_
      simpa using ih (fun done j hj => h done j (by simp [hj])) (done ++ [i]) s' hs'
  exact rest [] s start

/-- What every step keeps is kept by a loop that meets no fault. -/
theorem keeps_of_foldlM {σ : Type} {ι : Type u} {step : σ → ι → Except Fault σ} {inv : σ → Prop}
    (keeps : ∀ s i s', inv s → step s i = .ok s' → inv s') {todo : List ι} {s s' : σ}
    (start : inv s) (e : todo.foldlM step s = .ok s') : inv s' := by
  induction todo generalizing s with
  | nil =>
    cases e
    exact start
  | cons i todo ih =>
    rw [List.foldlM_cons] at e
    obtain ⟨s₁, first, e⟩ := exists_of_bind e
    exact ih (keeps s i s₁ start first) e

/-- A loop over a list that gives the result `g` for every element. -/
theorem mapM_eq {ι : Type} {f : ι → Except Fault α} {g : ι → α} {is : List ι}
    (h : ∀ i ∈ is, f i = .ok (g i)) : is.mapM f = .ok (is.map g) := by
  induction is with
  | nil => rfl
  | cons i is ih =>
    rw [List.mapM_cons, h i (by simp), ih fun j hj => h j (by simp [hj])]
    rfl

end Yields

/-- The operation gives a result with the property `post`, or one of the faults `fault`. -/
def Ends {α : Type} (x : Except Fault α) (post : α → Prop) (fault : Fault → Prop) : Prop :=
  match x with
  | .ok a => post a
  | .error e => fault e

section Ends

variable {α β : Type} {x : Except Fault α} {post mid : α → Prop} {fault : Fault → Prop}

theorem Yields.ends (h : Yields x post) : Ends x post fault := by
  obtain ⟨a, e, ha⟩ := h
  rw [e]
  exact ha

theorem Ends.bind {f : α → Except Fault β} {after : β → Prop} (hx : Ends x mid fault)
    (hf : ∀ a, mid a → Ends (f a) after fault) : Ends (x >>= f) after fault := by
  cases x with
  | ok a => exact hf a hx
  | error e => exact hx

theorem Ends.ok_bind {a : α} {f : α → Except Fault β} {after : β → Prop}
    (h : Ends (f a) after fault) : Ends (.ok a >>= f) after fault := h

theorem Ends.mono (h : Ends x mid fault) {fault' : Fault → Prop} (hp : ∀ a, mid a → post a)
    (hf : ∀ e, fault e → fault' e) : Ends x post fault' := by
  cases x with
  | ok a => exact hp a h
  | error e => exact hf e h

/-- What holds of the result holds of the value the operation is known to give. -/
theorem Ends.of_ok (h : Ends x post fault) {a : α} (e : x = .ok a) : post a := by
  rw [e] at h
  exact h

/-- Checks of the elements of a list, one after the other, find what each of them finds. -/
theorem Ends.forM {ι : Type} {check : ι → Except Fault Unit} {passes : ι → Prop} {is : List ι}
    (h : ∀ i ∈ is, Ends (check i) (fun _ => passes i) fault) :
    Ends (is.forM check) (fun _ => ∀ i ∈ is, passes i) fault := by
  induction is with
  | nil => exact fun _ mem => nomatch mem
  | cons i is ih =>
    change Ends (check i >>= fun _ => is.forM check) _ _
    refine (h i (by simp)).bind fun _ first => ?_
    refine (ih fun j hj => h j (.tail _ hj)).mono (fun _ rest j hj => ?_) fun _ => id
    rcases List.mem_cons.1 hj with rfl | hj
    · exact first
    · exact rest j hj

end Ends

end ClauseLearning
