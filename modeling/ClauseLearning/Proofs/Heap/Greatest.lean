/-
  What stands in front of a heap.

  Model. Keys are added, taken out, put back and popped, and the heap is cleared, in any sequence
  (`Heap.run`). The sequence is proper if keys are added in the order 0, 1, 2, … since the last
  clearing and no others are put back (`Heap.Proper`). It is calm if no key was taken out since the
  last clearing whose place went to a value greater than the one above (`Heap.calmAfter`).

  Rule. A proper sequence succeeds, and every key has the value it was added with
  (`Holds.run_yields`). There is a key in front as long as one is present, it is a present one, and
  after a calm sequence no present key has a greater value (`peek?_of_run`). After others one may,
  since a value that takes the place of another is never moved up (`peek?_not_greatest`).
-/
import Mathlib
import ClauseLearning.Proofs.Heap.Order

namespace ClauseLearning

namespace Heap

variable {α : Type} {h h' : Heap α} {k : Nat} {vs : List α}

/-! ## Sequences of steps -/

/-- What is done to a heap. -/
inductive Step (α : Type)
  /-- A key is added with its value. -/
  | grow (k : Nat) (a : α)
  /-- A key is taken out. -/
  | delete (k : Nat)
  /-- A key is put back. -/
  | restore (k : Nat)
  /-- The key in front is taken out. -/
  | pop
  /-- All keys are given up. -/
  | clear

namespace Step

/-- The values of the keys after the step. -/
def values (vs : List α) : Step α → List α
  | grow _ a => vs ++ [a]
  | clear => []
  | _ => vs

/-- The next key is added, or one of the keys is put back. -/
def Proper (vs : List α) : Step α → Prop
  | grow k _ => k = vs.length
  | restore k => k < vs.length
  | _ => True

variable [LT α] [DecidableLT α]

/-- The heap after the step. -/
def apply (h : Heap α) : Step α → Except Fault (Heap α)
  | grow k a => h.grow k a
  | delete k => h.delete k
  | restore k => h.restore k
  | pop => do return (← h.pop).2
  | clear => .ok empty

/-- Whether no value is displaced after the step, if `calm` says so for before. -/
def calm (calm : Bool) (h : Heap α) : Step α → Bool
  | delete k => calm && !h.displaces k
  | clear => true
  | _ => calm

end Step

/-- The values of the keys after the steps. -/
def valuesAfter (vs : List α) (steps : List (Step α)) : List α := steps.foldl Step.values vs

/-- Every step is proper. -/
def Proper (vs : List α) : List (Step α) → Prop
  | [] => True
  | s :: steps => s.Proper vs ∧ Proper (s.values vs) steps

section Run

variable [LT α] [DecidableLT α]

/-- The heap after the steps. -/
def run (h : Heap α) (steps : List (Step α)) : Except Fault (Heap α) := steps.foldlM Step.apply h

/-- Whether no value is displaced after the steps, if `calm` says so for before. -/
def calmAfter (calm : Bool) (h : Heap α) : List (Step α) → Bool
  | [] => calm
  | s :: steps =>
    match s.apply h with
    | .ok h' => calmAfter (s.calm calm h) h' steps
    | .error _ => false

end Run

/-! ## Values -/

/-- The heap has the keys below the number of the values, with these. -/
structure Holds (h : Heap α) (vs : List α) : Prop where
  /-- The books are in order. -/
  kept : h.Kept
  /-- The number of keys. -/
  size : h.size = vs.length
  /-- The values. -/
  valueOf? : ∀ k, h.valueOf? k = vs[k]?

theorem holds_empty : (empty : Heap α).Holds [] := ⟨kept_empty, rfl, fun _ => rfl⟩

theorem Holds.turns (holds : h.Holds vs) {now : Bool} (turns : h.Turns k now h') : h'.Holds vs :=
  ⟨turns.kept, turns.size.trans holds.size, fun l => (turns.valueOf? l).trans (holds.valueOf? l)⟩

theorem valueOf?_behind (kept : h.Kept) (a : α) (k : Nat) :
    (h.behind a).valueOf? k = if k = h.size then some a else h.valueOf? k := by
  rw [valueOf?, valueOf?, behind, Table.get?_push, kept.places]
  split
  · exact (Table.get?_push ..).trans (if_pos rfl)
  · cases place : h.places.get? k with
    | none => rfl
    | some i =>
      have inside : i < h.size := kept.keys ▸ Table.lt_size_of_get? ((kept.inverse k i).1 place)
      exact (Table.get?_push ..).trans (if_neg (Nat.ne_of_lt inside))

theorem Holds.behind (holds : h.Holds vs) (a : α) : (h.behind a).Holds (vs ++ [a]) := by
  refine ⟨holds.kept.behind a, ?_, fun k => ?_⟩
  · rw [size_behind, holds.size, List.length_append, List.length_singleton]
  · rw [valueOf?_behind holds.kept, holds.valueOf?, holds.size, List.getElem?_append]
    split
    · rename_i last
      simp [last]
    · rename_i other
      split
      · rfl
      · rename_i behind
        rw [List.getElem?_eq_none (by omega), List.getElem?_eq_none (by simp; omega)]

/-! ## Steps -/

section Steps

variable [LT α] [DecidableLT α]

/-- What is popped is the key in front, if there is one. -/
theorem pop_yields (kept : h.Kept) : Yields h.pop fun popped =>
    (h.present = 0 ∧ popped = (none, h)) ∨
      ∃ k, h.isPresent k = true ∧ h.places.get? k = some 0 ∧ popped.1 = some k ∧
        h.delete k = .ok popped.2 := by
  unfold pop
  split
  · rename_i none
    exact .pure (.inl ⟨none, rfl⟩)
  · rename_i some
    have pos := Nat.pos_of_ne_zero some
    obtain ⟨k, key, front⟩ := kept.exists_key (Nat.lt_of_lt_of_le pos kept.present)
    obtain ⟨h', deleted, -⟩ := delete_yields kept k
    rw [Table.read_eq_ok_iff.2 key]
    refine .ok_bind ?_
    rw [deleted]
    exact .pure (.inr ⟨k, isPresent_iff.2 ⟨0, front, pos⟩, front, rfl, deleted⟩)

/-- A proper step succeeds. -/
theorem Holds.apply_yields (holds : h.Holds vs) {s : Step α} (proper : s.Proper vs) :
    Yields (s.apply h) (Holds · (s.values vs)) := by
  cases s with
  | grow k a =>
    cases proper.trans holds.size.symm
    exact (grow_yields holds.kept a).mono fun _ => (holds.behind a).turns
  | delete k => exact (delete_yields holds.kept k).mono fun _ => holds.turns
  | restore k =>
    have grown : k < h.size := holds.size ▸ proper
    exact (restore_yields holds.kept grown).mono fun _ => holds.turns
  | pop =>
    refine (pop_yields holds.kept).bind fun popped what => .pure ?_
    rcases what with ⟨-, rfl⟩ | ⟨k, -, -, -, deleted⟩
    · exact holds
    · exact holds.turns ((delete_yields holds.kept k).of_ok deleted)
  | clear => exact .ok holds_empty

end Steps

section Order

variable [LinearOrder α] {calm : Bool}

/-- A step that leaves the sequence calm keeps the order. -/
theorem Holds.ordered_of_apply (holds : h.Holds vs) {s : Step α} (proper : s.Proper vs)
    (o : calm = true → h.Ordered) (e : s.apply h = .ok h') (quiet : s.calm calm h = true) :
    h'.Ordered := by
  cases s with
  | grow k a =>
    cases proper.trans holds.size.symm
    exact ordered_of_grow holds.kept (o quiet) e
  | delete k =>
    rw [Step.calm, Bool.and_eq_true, Bool.not_eq_true'] at quiet
    exact (ordered_delete_iff holds.kept (o quiet.1) e).2 quiet.2
  | restore k => exact ordered_of_restore (o quiet) e
  | pop =>
    obtain ⟨popped, popping, done⟩ := Yields.exists_of_bind e
    cases done
    rcases (pop_yields holds.kept).of_ok popping with ⟨-, rfl⟩ | ⟨k, -, front, -, deleted⟩
    · exact o quiet
    · exact (ordered_delete_iff holds.kept (o quiet) deleted).2 (not_displaces front (.inl rfl))
  | clear =>
    cases e
    exact ordered_empty

/-- A proper sequence succeeds, and keeps the order if it is calm. -/
theorem Holds.run_yields (holds : h.Holds vs) {steps : List (Step α)} (proper : Proper vs steps)
    (o : calm = true → h.Ordered) : Yields (h.run steps) fun h' =>
      h'.Holds (valuesAfter vs steps) ∧ (calmAfter calm h steps = true → h'.Ordered) := by
  induction steps generalizing h vs calm with
  | nil => exact .ok ⟨holds, o⟩
  | cons s steps ih =>
    obtain ⟨first, rest⟩ := proper
    obtain ⟨h₁, e, holds₁⟩ := holds.apply_yields first
    rw [run, List.foldlM_cons, e, calmAfter, e]
    exact .ok_bind (ih holds₁ rest (holds.ordered_of_apply first o e))

/-! ## The front -/

/-- In an ordered heap no present key has a greater value than the one in front. -/
theorem Ordered.le_peek? (o : h.Ordered) (kept : h.Kept) {a b : α} {l : Nat}
    (front : h.peek? = some (k, a)) (present : h.isPresent l = true)
    (value : h.valueOf? l = some b) : b ≤ a := by
  obtain ⟨i, place, inside⟩ := isPresent_iff.1 present
  obtain ⟨a', b', top, bottom, le⟩ := o.dominates kept (Above.front i) inside
  rw [valueOf?, place] at value
  cases bottom.symm.trans value
  rw [peek?, if_neg (Nat.ne_of_gt (Nat.lt_of_le_of_lt (Nat.zero_le i) inside))] at front
  obtain ⟨k', -, front⟩ := Option.bind_eq_some_iff.1 front
  obtain ⟨a'', top', front⟩ := Option.bind_eq_some_iff.1 front
  cases front
  cases top.symm.trans top'
  exact le

/-- There is a key in front as long as one is present, and it is a present one with the value it
    was added with; after a calm sequence no present key has a greater one. -/
theorem peek?_of_run {steps : List (Step α)} (proper : Proper [] steps) :
    Yields (run empty steps) fun h =>
      (h.peek? = none ↔ ∀ k, h.isPresent k = false) ∧
        ∀ k a, h.peek? = some (k, a) →
          h.isPresent k = true ∧ (valuesAfter [] steps)[k]? = some a ∧
            (calmAfter true empty steps = true → ∀ l b, h.isPresent l = true →
              (valuesAfter [] steps)[l]? = some b → b ≤ a) := by
  have start : true = true → (empty : Heap α).Ordered := fun _ => ordered_empty
  refine (holds_empty.run_yields proper start).mono fun h ⟨holds, o⟩ => ?_
  rcases peek?_spec holds.kept with ⟨none, absent⟩ | ⟨k, a, front, present, value⟩
  · exact ⟨iff_of_true none absent, fun _ _ some => nomatch none.symm.trans some⟩
  · refine ⟨iff_of_false (by simp [front]) fun absent => ?_, fun k' a' front' => ?_⟩
    · exact absurd present (Bool.eq_false_iff.1 (absent k))
    · cases front.symm.trans front'
      refine ⟨present, (holds.valueOf? k).symm.trans value, fun calm l b hl hb => ?_⟩
      exact (o calm).le_peek? holds.kept front hl ((holds.valueOf? l).trans hb)

theorem peek?_of_run_interleaved : ∃ h : Heap Nat,
    run empty [.grow 0 9, .clear, .grow 0 3, .grow 1 5, .grow 2 4, .delete 0, .pop, .restore 0] =
        .ok h ∧
      h.peek? = some (2, 4) ∧ ∀ l b, h.isPresent l = true → [3, 5, 4][l]? = some b → b ≤ 4 := by
  let steps : List (Step Nat) :=
    [.grow 0 9, .clear, .grow 0 3, .grow 1 5, .grow 2 4, .delete 0, .pop, .restore 0]
  have proper : Proper [] steps := by simp [steps, Proper, Step.Proper, Step.values]
  have calm : calmAfter true empty steps = true := by
    cbv
  have front : (run empty steps).map peek? = .ok (some (2, 4)) := by
    cbv
  obtain ⟨h, e, -, greatest⟩ := peek?_of_run proper
  have front := (Yields.of_map front).of_ok e
  exact ⟨h, e, front, (greatest 2 4 front).2.2 calm⟩

/-- A present key can have a greater value than the one in front: when the key 0 and then the
    keys 5 and 6 are taken out, the key 3 is in front of the key 4. -/
theorem peek?_not_greatest : ∃ h : Heap Nat,
    run empty [.grow 0 1, .grow 1 2, .grow 2 3, .grow 3 4, .grow 4 5, .grow 5 6, .grow 6 7,
      .delete 0, .delete 5, .delete 6] = .ok h ∧
      h.peek? = some (3, 4) ∧ h.isPresent 4 = true ∧ h.valueOf? 4 = some 5 := by
  have found : (run empty [.grow 0 1, .grow 1 2, .grow 2 3, .grow 3 4, .grow 4 5, .grow 5 6,
      .grow 6 7, .delete 0, .delete 5, .delete 6]).map
        (fun h : Heap Nat => (h.peek?, h.isPresent 4, h.valueOf? 4)) =
      .ok (some (3, 4), true, some 5) := by
    cbv
  obtain ⟨h, e, found⟩ := Yields.of_map found
  rw [Prod.mk.injEq, Prod.mk.injEq] at found
  exact ⟨h, e, found⟩

end Order

end Heap

end ClauseLearning
