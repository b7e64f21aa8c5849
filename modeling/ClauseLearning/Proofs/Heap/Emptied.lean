/-
  Emptying a heap.

  Model. Popping a heap again and again gives keys until none is present. A list is what emptying
  the heap gives when any number of pops gives as many keys from its front, and after its last key
  there is none (`Heap.EmptiedBy`).

  Rule. A pop of an ordered heap leaves it ordered and gives a key with the greatest value
  (`Ordered.pop_yields`). So emptying an ordered heap gives the present keys, each once, with no
  value greater than an earlier one (`Ordered.exists_emptiedBy`).
-/
import Mathlib
import ClauseLearning.Proofs.Heap.Books

namespace ClauseLearning

namespace Heap

variable {α : Type} {h h' : Heap α} {k n : Nat}

/-- Taking out a present key leaves one key less. -/
theorem Turns.present_succ (turns : h.Turns k false h') (kept : h.Kept)
    (present : h.isPresent k = true) : h'.present + 1 = h.present := by
  -- the numbers beside the tables are those of the present keys, so it is enough to compare these
  have others : {l | h'.isPresent l = true} = {l | h.isPresent l = true} \ {k} := by
    ext l
    simp [turns.isPresent l, and_comm]
  have own : k ∈ {l | h.isPresent l = true} := present
  have less : h'.present = h.present - 1 := by
    rw [← turns.kept.ncard_isPresent, ← kept.ncard_isPresent, others,
      Set.ncard_sdiff_singleton_of_mem own]
  obtain ⟨i, -, inside⟩ := isPresent_iff.1 present
  omega

section Order

variable [LinearOrder α]

/-- A pop of an ordered heap leaves it ordered and gives a key with the greatest value, if there
    is one. -/
theorem Ordered.pop_yields (o : h.Ordered) (kept : h.Kept) : Yields h.pop fun popped =>
    (h.present = 0 ∧ popped = (none, h)) ∨
      ∃ k, popped.1 = some k ∧ h.isPresent k = true ∧ h.Turns k false popped.2 ∧
        popped.2.Ordered ∧ ∀ l a b, h.isPresent l = true → h.valueOf? k = some a →
          h.valueOf? l = some b → b ≤ a := by
  refine (Heap.pop_yields kept).mono fun popped what => ?_
  rcases what with empty | ⟨k, present, first, some, deleted⟩
  · exact .inl empty
  · refine .inr ⟨k, some, present, (delete_yields kept k).of_ok deleted, ?_, ?_⟩
    · exact (ordered_delete_iff kept o deleted).2 (not_displaces first (.inl rfl))
    · intro l a b other value lower
      obtain ⟨a', front⟩ := kept.peek?_of_first present first
      cases (kept.of_peek? front).2.symm.trans value
      exact o.le_peek? kept front other lower

/-- What emptying the heap gives. -/
structure EmptiedBy (h : Heap α) (ks : List Nat) : Prop where
  /-- No key comes twice. -/
  nodup : ks.Nodup
  /-- All present keys come, and no others. -/
  mem : ∀ k, k ∈ ks ↔ h.isPresent k = true
  /-- No value is greater than an earlier one. -/
  sorted : ks.Pairwise fun k l => ∀ a b, h.valueOf? k = some a → h.valueOf? l = some b → b ≤ a
  /-- They come one with each pop, and then none. -/
  popMany : ∀ n, Yields (h.popMany n) fun popped =>
    popped.1 = ks.take n ∧ (ks.length ≤ n → popped.2.pop = .ok (none, popped.2))

theorem pop_of_empty (empty : h.present = 0) : h.pop = .ok (none, h) := by
  rw [pop, if_pos empty]
  rfl

theorem emptiedBy_nil (empty : h.present = 0) : h.EmptiedBy [] where
  nodup := .nil
  mem k := by simp [isPresent_iff, empty]
  sorted := .nil
  popMany n := by
    have none := pop_of_empty empty
    cases n with
    | zero => exact .pure ⟨rfl, fun _ => none⟩
    | succ n =>
      rw [Heap.popMany, none]
      exact .ok_bind (.pure ⟨rfl, fun _ => none⟩)

/-- Emptying goes on after the first pop. -/
theorem EmptiedBy.cons {ks : List Nat} (rest : h'.EmptiedBy ks) (turns : h.Turns k false h')
    (present : h.isPresent k = true) (popping : h.pop = .ok (some k, h'))
    (greatest : ∀ l a b, h.isPresent l = true → h.valueOf? k = some a → h.valueOf? l = some b →
      b ≤ a) : h.EmptiedBy (k :: ks) where
  nodup := by
    refine List.nodup_cons.2 ⟨fun again => ?_, rest.nodup⟩
    have gone := turns.isPresent k
    rw [if_pos rfl, (rest.mem k).1 again] at gone
    exact nomatch gone
  mem l := by
    rw [List.mem_cons, rest.mem, turns.isPresent]
    by_cases same : l = k
    · simp [same, present]
    · simp [same]
  sorted := by
    refine List.pairwise_cons.2 ⟨fun l later a b => ?_, ?_⟩
    · have still := (rest.mem l).1 later
      rw [turns.isPresent] at still
      split at still
      · exact nomatch still
      · exact greatest l a b still
    · exact rest.sorted.imp fun le a b => by simpa only [turns.valueOf?] using le a b
  popMany n := by
    cases n with
    | zero => exact .pure ⟨rfl, fun none => absurd none (Nat.not_succ_le_zero _)⟩
    | succ n =>
      rw [Heap.popMany, popping]
      refine .ok_bind ((rest.popMany n).bind fun popped ⟨keys, last⟩ => .pure ⟨?_, fun all => ?_⟩)
      · rw [List.take_succ_cons, keys]
      · exact last (Nat.le_of_succ_le_succ all)

/-- Emptying an ordered heap gives the present keys, each once, the greatest value first. -/
theorem Ordered.exists_emptiedBy (o : h.Ordered) (kept : h.Kept) : ∃ ks, h.EmptiedBy ks := by
  induction hm : h.present generalizing h with
  | zero => exact ⟨[], emptiedBy_nil hm⟩
  | succ m ih =>
    obtain ⟨⟨key?, h₁⟩, popping, what⟩ := o.pop_yields kept
    rcases what with ⟨empty, -⟩ | ⟨k, some, present, turns, o₁, greatest⟩
    · omega
    · cases some
      have fewer : h₁.present + 1 = h.present := turns.present_succ kept present
      obtain ⟨ks, rest⟩ := ih (h := h₁) o₁ turns.kept (by omega)
      exact ⟨k :: ks, rest.cons turns present popping greatest⟩

end Order

end Heap

end ClauseLearning
