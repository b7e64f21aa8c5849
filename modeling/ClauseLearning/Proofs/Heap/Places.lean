/-
  The books of a heap: which keys are present, and where everything is.

  Model. The tables of a heap are in order when they lead from keys to places and back, and the
  present keys have the first places (`Heap.Kept`). Exchanging two places moves their keys with
  their values (`swapPlaces_yields`). As long as both places are in front nothing else happens, so
  sifting changes the order only (`Reorders`); a key comes to the front, or leaves it, by an
  exchange over its end (`in_yields`, `out_yields`).

  Rule. Where keys come in the order 0, 1, 2, …, adding one (`grow_yields`), taking one out
  (`delete_yields`) and putting one back (`restore_yields`) never fail, and change for that key
  only whether it is present (`Turns`). The number kept beside the tables is that of the present
  keys (`Kept.count_present`).
-/
import Mathlib.Data.List.Nodup
import Mathlib.Logic.Equiv.Basic
import ClauseLearning.Heap
import ClauseLearning.Proofs.Assignment.Counted

namespace ClauseLearning

/-! ## Exchanging two keys of a table -/

namespace Table

variable {α : Type} {t : Table α} {i j : Nat}

theorem swap_yields (hi : i < t.size) (hj : j < t.size) : Yields (t.swap i j) fun t' =>
    t'.size = t.size ∧ ∀ k, t'.get? k = t.get? (Equiv.swap i j k) := by
  refine .of_eq (if_pos ⟨hi, hj⟩) ⟨Array.size_swapIfInBounds, fun k => ?_⟩
  have inside : i < t.entries.size ∧ j < t.entries.size := ⟨hi, hj⟩
  simp only [get?, Array.swapIfInBounds, dif_pos inside.1, dif_pos inside.2]
  rw [Array.getElem?_swap, Equiv.swap_apply_def]
  split
  · rename_i e
    by_cases same : k = i
    · simp [same, e]
    · simp [same, e, Array.getElem?_eq_getElem inside.1]
  · split
    · rename_i e
      simp [e, Array.getElem?_eq_getElem inside.2]
    · rename_i h₁ h₂
      simp [Ne.symm h₁, Ne.symm h₂]

end Table

namespace Heap

variable {α : Type} {h h' h'' : Heap α} {i j k n : Nat}

/-! ## The books -/

/-- The books of the heap are in order. -/
structure Kept (h : Heap α) : Prop where
  /-- Every key has a place. -/
  places : h.places.size = h.size
  /-- Every place has a key. -/
  keys : h.keys.size = h.size
  /-- The present keys have places. -/
  present : h.present ≤ h.size
  /-- A key is found at its place. -/
  inverse : ∀ k i, h.places.get? k = some i ↔ h.keys.get? i = some k

/-- The value of a key, if the heap has the key. -/
def valueOf? (h : Heap α) (k : Nat) : Option α := (h.places.get? k).bind h.values.get?

/-- The key at a place. -/
def keyAt (h : Heap α) (i : Nat) : Nat := (h.keys.get? i).getD 0

theorem keyAt_eq (hk : h.keys.get? i = some k) : h.keyAt i = k := by
  rw [keyAt, hk, Option.getD_some]

theorem kept_empty : (empty : Heap α).Kept where
  places := rfl
  keys := rfl
  present := Nat.le_refl 0
  inverse k i := by simp [empty]

theorem isPresent_eq (h : Heap α) (k : Nat) :
    h.isPresent k = (h.places.get? k).any fun i => decide (i < h.present) := by
  unfold isPresent
  cases h.places.get? k <;> rfl

theorem isPresent_iff : h.isPresent k = true ↔ ∃ i, h.places.get? k = some i ∧ i < h.present := by
  simp [isPresent_eq, Option.any_eq_true]

theorem isPresent_empty (k : Nat) : (empty : Heap α).isPresent k = false := by
  rw [isPresent_eq, empty, Table.get?_empty, Option.any_none]

namespace Kept

theorem exists_place (kept : h.Kept) (hk : k < h.size) :
    ∃ i, h.places.get? k = some i ∧ i < h.size := by
  obtain ⟨i, hi⟩ := Table.get?_isSome_of_lt (kept.places ▸ hk)
  exact ⟨i, hi, kept.keys ▸ Table.lt_size_of_get? ((kept.inverse k i).1 hi)⟩

theorem exists_key (kept : h.Kept) (hi : i < h.size) :
    ∃ k, h.keys.get? i = some k ∧ h.places.get? k = some i := by
  obtain ⟨k, hk⟩ := Table.get?_isSome_of_lt (kept.keys ▸ hi)
  exact ⟨k, hk, (kept.inverse k i).2 hk⟩

theorem lt_size (kept : h.Kept) (hk : h.isPresent k = true) : k < h.size := by
  obtain ⟨i, hi, -⟩ := isPresent_iff.1 hk
  exact kept.places ▸ Table.lt_size_of_get? hi

/-- Keys at the same place are the same. -/
theorem key_inj (kept : h.Kept) {l : Nat} (hk : h.places.get? k = some i)
    (hl : h.places.get? l = some i) : k = l := by
  have both := ((kept.inverse k i).1 hk).symm.trans ((kept.inverse l i).1 hl)
  exact Option.some.inj both

/-- The number of present keys is kept. -/
theorem count_present (kept : h.Kept) : (List.range h.size).countP h.isPresent = h.present := by
  have front : ((List.range h.present).map h.keyAt).Nodup := by
    refine List.Nodup.map_on (fun i hi j hj e => ?_) List.nodup_range
    obtain ⟨k, hk, hi'⟩ := kept.exists_key (Nat.lt_of_lt_of_le (List.mem_range.1 hi) kept.present)
    obtain ⟨l, hl, hj'⟩ := kept.exists_key (Nat.lt_of_lt_of_le (List.mem_range.1 hj) kept.present)
    rw [keyAt_eq hk, keyAt_eq hl] at e
    subst e
    exact Option.some.inj (hi'.symm.trans hj')
  have same : ((List.range h.size).filter h.isPresent).Perm
      ((List.range h.present).map h.keyAt) := by
    refine (List.perm_ext_iff_of_nodup (List.nodup_range.filter _) front).2 fun k => ?_
    rw [List.mem_filter, List.mem_range, List.mem_map]
    constructor
    · rintro ⟨-, hk⟩
      obtain ⟨i, hi, lt⟩ := isPresent_iff.1 hk
      exact ⟨i, List.mem_range.2 lt, keyAt_eq ((kept.inverse k i).1 hi)⟩
    · rintro ⟨i, hi, rfl⟩
      have lt := List.mem_range.1 hi
      obtain ⟨k, hk, hi'⟩ := kept.exists_key (Nat.lt_of_lt_of_le lt kept.present)
      rw [keyAt_eq hk]
      have present := isPresent_iff.2 ⟨i, hi', lt⟩
      exact ⟨kept.lt_size present, present⟩
  rw [List.countP_eq_length_filter, same.length_eq, List.length_map, List.length_range]

end Kept

/-! ## Changing the order -/

theorem swap_lt_iff (hi : i < n) (hj : j < n) (k : Nat) : Equiv.swap i j k < n ↔ k < n := by
  rw [Equiv.swap_apply_def]
  split
  · omega
  · split <;> omega

/-- Two places exchange their keys with their values. -/
theorem swapPlaces_yields (kept : h.Kept) (hi : i < h.size) (hj : j < h.size) :
    Yields (h.swapPlaces i j) fun h' => h'.Kept ∧ h'.size = h.size ∧ h'.present = h.present ∧
      (∀ k, h'.valueOf? k = h.valueOf? k) ∧
      ∀ k, h'.places.get? k = (h.places.get? k).map (Equiv.swap i j) := by
  obtain ⟨values, places, keys, present⟩ := h
  obtain ⟨k, hk, hki⟩ := kept.exists_key hi
  obtain ⟨l, hl, hlj⟩ := kept.exists_key hj
  simp only [swapPlaces, Table.read_eq_ok_iff.2 hk, Table.read_eq_ok_iff.2 hl]
  refine .ok_bind (.ok_bind ((Table.swap_yields hi hj).bind
    fun values' ⟨size, getValue⟩ => ?_))
  refine (Table.swap_yields (t := keys) (kept.keys ▸ hi) (kept.keys ▸ hj)).bind
    fun keys' ⟨sizeKeys, getKey⟩ => ?_
  have inside : k < places.size ∧ l < places.size :=
    ⟨Table.lt_size_of_get? hki, Table.lt_size_of_get? hlj⟩
  refine (Table.swap_yields inside.1 inside.2).bind fun places' ⟨sizePlaces, getPlace⟩ => .pure ?_
  have moved : ∀ m, places'.get? m = (places.get? m).map (Equiv.swap i j) := by
    intro m
    rw [getPlace, Equiv.swap_apply_def]
    by_cases atI : m = k
    · subst atI
      rw [if_pos rfl, show places.get? l = some j from hlj, show places.get? m = some i from hki]
      simp
    · by_cases atJ : m = l
      · subst atJ
        rw [if_neg atI, if_pos rfl, show places.get? m = some j from hlj,
          show places.get? k = some i from hki]
        simp
      · rw [if_neg atI, if_neg atJ]
        cases hm : places.get? m with
        | none => rfl
        | some x =>
          -- another key is at neither of the two places
          have notI : x ≠ i := fun e => atI (kept.key_inj (e ▸ hm) hki)
          have notJ : x ≠ j := fun e => atJ (kept.key_inj (e ▸ hm) hlj)
          rw [Option.map_some, Equiv.swap_apply_of_ne_of_ne notI notJ]
  have back : ∀ {m x}, places'.get? m = some x ↔ places.get? m = some (Equiv.swap i j x) := by
    intro m x
    rw [moved, Option.map_eq_some_iff]
    constructor
    · rintro ⟨y, hy, rfl⟩
      rwa [Equiv.swap_apply_self]
    · intro hy
      exact ⟨_, hy, Equiv.swap_apply_self ..⟩
  refine ⟨⟨?_, ?_, ?_, fun m x => ?_⟩, size, rfl, fun m => ?_, moved⟩
  · exact sizePlaces.trans (kept.places.trans size.symm)
  · exact sizeKeys.trans (kept.keys.trans size.symm)
  · exact Nat.le_trans kept.present (Nat.le_of_eq size.symm)
  · change places'.get? m = some x ↔ keys'.get? x = some m
    rw [back, getKey]
    exact kept.inverse m _
  · change (places'.get? m).bind values'.get? = (places.get? m).bind values.get?
    rw [moved]
    cases places.get? m with
    | none => rfl
    | some x =>
      change values'.get? (Equiv.swap i j x) = values.get? x
      rw [getValue, Equiv.swap_apply_self]

/-- The heaps hold the same present keys with the same values, maybe in another order. -/
structure Reorders (h h' : Heap α) : Prop where
  /-- The books are in order. -/
  kept : h'.Kept
  /-- The number of keys. -/
  size : h'.size = h.size
  /-- The number of present keys. -/
  present : h'.present = h.present
  /-- The values. -/
  valueOf? : ∀ k, h'.valueOf? k = h.valueOf? k
  /-- The present keys. -/
  isPresent : ∀ k, h'.isPresent k = h.isPresent k

namespace Reorders

theorem refl (kept : h.Kept) : h.Reorders h := ⟨kept, rfl, rfl, fun _ => rfl, fun _ => rfl⟩

theorem trans (r : h.Reorders h') (r' : h'.Reorders h'') : h.Reorders h'' where
  kept := r'.kept
  size := r'.size.trans r.size
  present := r'.present.trans r.present
  valueOf? k := (r'.valueOf? k).trans (r.valueOf? k)
  isPresent k := (r'.isPresent k).trans (r.isPresent k)

end Reorders

/-- Two present keys exchange their places. -/
theorem reorder_yields (kept : h.Kept) (hi : i < h.present) (hj : j < h.present) :
    Yields (h.swapPlaces i j) h.Reorders := by
  refine (swapPlaces_yields kept (Nat.lt_of_lt_of_le hi kept.present)
    (Nat.lt_of_lt_of_le hj kept.present)).mono fun h' ⟨kept', size, present, values, moved⟩ =>
      ⟨kept', size, present, values, fun k => ?_⟩
  rw [isPresent_eq, isPresent_eq, moved, present]
  cases h.places.get? k with
  | none => rfl
  | some x => exact decide_eq_decide.2 (swap_lt_iff hi hj x)

section Sift

variable [LT α] [DecidableLT α]

/-- Moving a present key up changes the order only. -/
theorem siftUp_yields (kept : h.Kept) (hi : i < h.present) : Yields (h.siftUp i) h.Reorders := by
  induction i using Nat.strongRecOn generalizing h with
  | _ i ih =>
    unfold siftUp
    split
    · rename_i pos
      have up : (i - 1) / 2 < i := by omega
      have hp : (i - 1) / 2 < h.present := Nat.lt_trans up hi
      refine (Table.read_yields (Nat.lt_of_lt_of_le hp kept.present)).bind fun a _ => ?_
      refine (Table.read_yields (Nat.lt_of_lt_of_le hi kept.present)).bind fun b _ => ?_
      split
      · refine (reorder_yields kept hp hi).bind fun h' reorders => ?_
        refine (ih _ up reorders.kept ?_).mono fun h'' => reorders.trans
        rw [reorders.present]
        exact hp
      · exact .pure (.refl kept)
    · exact .ok (.refl kept)

/-- A child is found among the places below `stop`. -/
theorem greaterChild_yields (room : n ≤ h.size) (left : 2 * i + 1 < n) :
    Yields (h.greaterChild n i) fun j => j.1 < n := by
  unfold greaterChild
  dsimp only
  split
  · rename_i right
    refine (Table.read_yields (Nat.lt_of_lt_of_le left room)).bind fun a _ => ?_
    refine (Table.read_yields (Nat.lt_of_lt_of_le right room)).bind fun b _ => ?_
    split
    · exact .pure right
    · exact .pure left
  · exact .pure left

/-- Moving a present key down changes the order only. -/
theorem siftDown_yields (kept : h.Kept) (stop : n ≤ h.present) :
    Yields (siftDown n h i) h.Reorders := by
  induction hm : n - i using Nat.strongRecOn generalizing h i with
  | _ m ih =>
    unfold siftDown
    split
    · rename_i left
      have room : n ≤ h.size := Nat.le_trans stop kept.present
      have hi : i < n := by omega
      refine (greaterChild_yields room left).bind ?_
      rintro ⟨j, down⟩ hj
      dsimp only at hj ⊢
      refine (Table.read_yields (Nat.lt_of_lt_of_le hi room)).bind fun a _ => ?_
      refine (Table.read_yields (Nat.lt_of_lt_of_le hj room)).bind fun b _ => ?_
      split
      · refine (reorder_yields kept (Nat.lt_of_lt_of_le hj stop)
          (Nat.lt_of_lt_of_le hi stop)).bind fun h' reorders => ?_
        have less : n - j < m := by omega
        refine (ih _ less reorders.kept ?_ rfl).mono fun h'' => reorders.trans
        rw [reorders.present]
        exact stop
      · exact .pure (.refl kept)
    · exact .ok (.refl kept)

end Sift

/-! ## Adding, taking out and putting back -/

/-- The heap holds the keys of the first one, with their values, and those are present that were,
    but the key `k` as `now` says. -/
structure Turns (h : Heap α) (k : Nat) (now : Bool) (h' : Heap α) : Prop where
  /-- The books are in order. -/
  kept : h'.Kept
  /-- The number of keys. -/
  size : h'.size = h.size
  /-- The values. -/
  valueOf? : ∀ l, h'.valueOf? l = h.valueOf? l
  /-- The present keys. -/
  isPresent : ∀ l, h'.isPresent l = if l = k then now else h.isPresent l

namespace Turns

variable {now : Bool}

theorem reorders (t : h.Turns k now h') (r : h'.Reorders h'') : h.Turns k now h'' where
  kept := r.kept
  size := r.size.trans t.size
  valueOf? l := (r.valueOf? l).trans (t.valueOf? l)
  isPresent l := (r.isPresent l).trans (t.isPresent l)

/-- Nothing happens to a key that is as it should be. -/
theorem refl (kept : h.Kept) (e : h.isPresent k = now) : h.Turns k now h where
  kept := kept
  size := rfl
  valueOf? _ := rfl
  isPresent l := by
    split
    · rename_i same
      rw [same, e]
    · rfl

/-- After places `i` and `j` were exchanged, the keys of the places below `n` are the present ones,
    if this is right for the place of `k` and for all other places. -/
theorem of_moved (kept : h'.Kept) (size : h'.size = h.size)
    (values : ∀ l, h'.valueOf? l = h.valueOf? l)
    (moved : ∀ l, h'.places.get? l = (h.places.get? l).map (Equiv.swap i j)) (room : n ≤ h.size)
    {p : Nat} (place : h.places.get? k = some p) (books : h.Kept)
    (own : decide (Equiv.swap i j p < n) = now)
    (other : ∀ x, x ≠ p → (Equiv.swap i j x < n ↔ x < h.present)) :
    h.Turns k now { h' with present := n } := by
  refine ⟨⟨kept.places, kept.keys, Nat.le_trans room (Nat.le_of_eq size.symm), kept.inverse⟩,
    size, values, fun l => ?_⟩
  rw [isPresent_eq, isPresent_eq, moved]
  split
  · rename_i same
    rw [same, place]
    exact own
  · rename_i different
    cases at_l : h.places.get? l with
    | none => rfl
    | some x =>
      have elsewhere : x ≠ p := fun e => different (books.key_inj (e ▸ at_l) place)
      exact decide_eq_decide.2 (other x elsewhere)

end Turns

/-- A present key is taken out by an exchange with the last one in front. -/
theorem out_yields (kept : h.Kept) {p : Nat} (place : h.places.get? k = some p)
    (front : p < h.present) :
    Yields (h.swapPlaces p (h.present - 1)) fun h' =>
      h.Turns k false { h' with present := h.present - 1 } := by
  have room := kept.present
  refine (swapPlaces_yields kept (by omega) (by omega)).mono
    fun h' ⟨kept', size, _, values, moved⟩ => ?_
  refine .of_moved kept' size values moved (by omega) place kept ?_ fun x elsewhere => ?_
  · rw [Equiv.swap_apply_left]
    exact decide_eq_false (Nat.lt_irrefl _)
  · rw [Equiv.swap_apply_def, if_neg elsewhere]
    split <;> omega

/-- A waiting key comes to the front by an exchange with the first one behind, in either order. -/
theorem in_yields (kept : h.Kept) {p : Nat} (place : h.places.get? k = some p)
    (waits : h.present ≤ p) (ends : i = p ∧ j = h.present ∨ i = h.present ∧ j = p) :
    Yields (h.swapPlaces i j) fun h' => h.Turns k true { h' with present := h.present + 1 } := by
  have inside : p < h.size := kept.keys ▸ Table.lt_size_of_get? ((kept.inverse k p).1 place)
  have swap : Equiv.swap i j = Equiv.swap p h.present := by
    rcases ends with ⟨rfl, rfl⟩ | ⟨rfl, rfl⟩
    · rfl
    · exact Equiv.swap_comm ..
  refine (swapPlaces_yields (i := i) (j := j) kept (by omega) (by omega)).mono
    fun h' ⟨kept', size, _, values, moved⟩ => ?_
  rw [swap] at moved
  refine .of_moved kept' size values moved (by omega) place kept ?_ fun x elsewhere => ?_
  · rw [Equiv.swap_apply_left]
    exact decide_eq_true (Nat.lt_succ_self _)
  · rw [Equiv.swap_apply_def, if_neg elsewhere]
    split <;> omega

section Order

variable [LT α] [DecidableLT α]

/-- Taking a key out. -/
theorem delete_yields (kept : h.Kept) (k : Nat) : Yields (h.delete k) (h.Turns k false) := by
  unfold delete
  split
  · rename_i present
    obtain ⟨p, place, front⟩ := isPresent_iff.1 present
    rw [Table.read_eq_ok_iff.2 place]
    refine .ok_bind ((out_yields kept place front).bind fun h' turns => ?_)
    split
    · exact (siftDown_yields turns.kept (Nat.le_refl _)).mono fun h'' => turns.reorders
    · exact .pure turns
  · rename_i absent
    exact .pure (.refl kept (Bool.eq_false_iff.2 absent))

/-- Putting a key back. -/
theorem restore_yields (kept : h.Kept) (hk : k < h.size) :
    Yields (h.restore k) (h.Turns k true) := by
  unfold restore
  split
  · rename_i present
    exact .pure (.refl kept present)
  · rename_i absent
    obtain ⟨p, place, -⟩ := kept.exists_place hk
    have waits : h.present ≤ p := Nat.le_of_not_lt fun lt => absent (isPresent_iff.2 ⟨p, place, lt⟩)
    rw [Table.read_eq_ok_iff.2 place]
    refine .ok_bind ((in_yields kept place waits (.inl ⟨rfl, rfl⟩)).bind fun h' turns => ?_)
    exact (siftUp_yields turns.kept (Nat.lt_succ_self _)).mono fun h'' => turns.reorders

end Order

/-! ## A new key -/

/-- The heap with the next key behind all others. -/
def behind (h : Heap α) (a : α) : Heap α :=
  { h with values := h.values.push a, places := h.places.push h.size, keys := h.keys.push h.size }

theorem size_behind (h : Heap α) (a : α) : (h.behind a).size = h.size + 1 := Table.size_push ..

theorem Kept.behind (kept : h.Kept) (a : α) : (h.behind a).Kept where
  places := by simp [Heap.behind, size, Table.size_push, kept.places]
  keys := by simp [Heap.behind, size, Table.size_push, kept.keys]
  present := Nat.le_trans kept.present (size_behind h a ▸ Nat.le_succ _)
  inverse k i := by
    change (h.places.push h.size).get? k = some i ↔ (h.keys.push h.size).get? i = some k
    rw [Table.get?_push, Table.get?_push, kept.places, kept.keys]
    by_cases newKey : k = h.size
    · by_cases newPlace : i = h.size
      · simp [newKey, newPlace]
      · -- the new key is at no earlier place
        have notThere : h.keys.get? i ≠ some h.size := fun e =>
          Nat.lt_irrefl _ (kept.places ▸ Table.lt_size_of_get? ((kept.inverse _ _).2 e))
        simp [newKey, newPlace, Ne.symm newPlace, notThere]
    · by_cases newPlace : i = h.size
      · have notThere : h.places.get? k ≠ some h.size := fun e =>
          Nat.lt_irrefl _ (kept.keys ▸ Table.lt_size_of_get? ((kept.inverse _ _).1 e))
        simp [newKey, newPlace, Ne.symm newKey, notThere]
      · simp [newKey, newPlace, kept.inverse]

theorem isPresent_behind (kept : h.Kept) (a : α) (l : Nat) :
    (h.behind a).isPresent l = h.isPresent l := by
  rw [isPresent_eq, isPresent_eq, behind, Table.get?_push, kept.places]
  split
  · rename_i last
    rw [last, Table.get?_eq_none_iff.2 (Nat.le_of_eq kept.places)]
    exact decide_eq_false (Nat.not_lt.2 kept.present)
  · rfl

section Order

variable [LT α] [DecidableLT α]

/-- Adding the next key. -/
theorem grow_yields (kept : h.Kept) (a : α) :
    Yields (h.grow h.size a) ((h.behind a).Turns h.size true) := by
  have place : (h.behind a).places.get? h.size = some h.size := by
    rw [behind, Table.get?_push, kept.places, if_pos rfl]
  refine (in_yields (kept.behind a) place kept.present (.inr ⟨rfl, rfl⟩)).bind fun h' turns => ?_
  exact (siftUp_yields turns.kept (Nat.lt_succ_self _)).mono fun h'' => turns.reorders

end Order

/-! ## The front -/

/-- The key in front is a present one; there is none only if none is present. -/
theorem peek?_spec (kept : h.Kept) :
    (h.peek? = none ∧ ∀ k, h.isPresent k = false) ∨
      ∃ k a, h.peek? = some (k, a) ∧ h.isPresent k = true ∧ h.valueOf? k = some a := by
  unfold peek?
  split
  · rename_i empty
    refine .inl ⟨rfl, fun k => ?_⟩
    rw [isPresent_eq, empty]
    cases h.places.get? k <;> rfl
  · rename_i some
    have pos : 0 < h.present := Nat.pos_of_ne_zero some
    have room : 0 < h.size := Nat.lt_of_lt_of_le pos kept.present
    obtain ⟨k, key, place⟩ := kept.exists_key room
    obtain ⟨a, value⟩ := Table.get?_isSome_of_lt room
    refine .inr ⟨k, a, ?_, isPresent_iff.2 ⟨0, place, pos⟩, ?_⟩
    · rw [key, value]
      rfl
    · rw [valueOf?, place]
      exact value

theorem Kept.of_peek? (kept : h.Kept) {a : α} (front : h.peek? = some (k, a)) :
    h.isPresent k = true ∧ h.valueOf? k = some a := by
  rcases peek?_spec kept with ⟨none, -⟩ | ⟨k', a', front', found⟩
  · cases none.symm.trans front
  · cases front'.symm.trans front
    exact found

end Heap

end ClauseLearning
