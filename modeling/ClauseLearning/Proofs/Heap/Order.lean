/-
  The order of a heap.

  Model. The places in front form a binary tree, with place `(i - 1) / 2` above place `i` and place
  0 above all others (`Above`). A heap is ordered when no value in front is greater than the one
  above it (`Heap.Ordered`). On its way to its place a value breaks the order at one place at most:
  with the value above it while it moves up (`Rising`), with those below it while it moves down
  (`Sinking`).

  Rule. Adding a key and putting one back keep the order (`ordered_of_grow`, `ordered_of_restore`).
  Taking a key out fills its place with the last value in front, which is moved down but never up.
  So this keeps the order exactly if the last value is not greater than the one above the place
  (`ordered_delete_iff`), as it is not for the key in front and for a key that was just added
  (`not_displaces_of_grow`).
-/
import Mathlib.Order.Lattice
import ClauseLearning.Proofs.Heap.Places

namespace ClauseLearning

theorem Table.get?_of_swap {α : Type} {t t' : Table α} {i j : Nat} (e : t.swap i j = .ok t')
    (k : Nat) : t'.get? k = t.get? (Equiv.swap i j k) := by
  have inside : i < t.size ∧ j < t.size := by
    unfold swap at e
    split at e
    · assumption
    · cases e
  exact ((swap_yields inside.1 inside.2).of_ok e).2 k

namespace Heap

/-! ## Places above places -/

/-- The place `i` is on the way from the place `j` up to the front. -/
inductive Above (i : Nat) : Nat → Prop
  /-- The way begins at the place. -/
  | self : Above i i
  /-- And goes on at the place above it. -/
  | child {j : Nat} (pos : 0 < j) (above : Above i ((j - 1) / 2)) : Above i j

namespace Above

variable {i j : Nat}

theorem front (j : Nat) : Above 0 j := by
  induction j using Nat.strongRecOn with
  | _ j ih =>
    rcases Nat.eq_zero_or_pos j with rfl | pos
    · exact .self
    · exact .child pos (ih _ (by omega))

theorem parent (above : Above i j) (pos : 0 < i) : Above ((i - 1) / 2) j := by
  induction above with
  | self => exact .child pos .self
  | child pos' _ ih => exact .child pos' ih

end Above

variable {α : Type} {h h' h₁ : Heap α} {i j k n : Nat}

/-! ## What the sifts move -/

theorem of_swapPlaces (e : h.swapPlaces i j = .ok h') : h'.present = h.present ∧
    ∀ k, h'.values.get? k = h.values.get? (Equiv.swap i j k) := by
  obtain ⟨values, places, keys, present⟩ := h
  obtain ⟨_, -, e⟩ := Yields.exists_of_bind e
  obtain ⟨_, -, e⟩ := Yields.exists_of_bind e
  obtain ⟨values', swapped, e⟩ := Yields.exists_of_bind e
  obtain ⟨_, -, e⟩ := Yields.exists_of_bind e
  obtain ⟨_, -, e⟩ := Yields.exists_of_bind e
  cases e
  exact ⟨rfl, Table.get?_of_swap swapped⟩

theorem Kept.value (kept : h.Kept) (hi : i < h.present) : ∃ a, h.values.get? i = some a :=
  Table.get?_isSome_of_lt (Nat.lt_of_lt_of_le hi kept.present)

/-! ## The order -/

section Order

variable [LinearOrder α]

/-- The value at the place `j` is not greater than the one at the place `i`. -/
def Dominates (h : Heap α) (i j : Nat) : Prop :=
  ∃ a b, h.values.get? i = some a ∧ h.values.get? j = some b ∧ b ≤ a

/-- No value in front is greater than the one above it. -/
def Ordered (h : Heap α) : Prop :=
  ∀ j, 0 < j → j < h.present → h.Dominates ((j - 1) / 2) j

/-- The order, but for the value at the place `i`, which may be greater than the one above it. -/
structure Rising (h : Heap α) (i : Nat) : Prop where
  /-- No other value is greater than the one above it. -/
  edges : ∀ j, 0 < j → j < h.present → j ≠ i → h.Dominates ((j - 1) / 2) j
  /-- The values below the place are not greater than the one above it. -/
  bridge : ∀ j, 0 < j → j < h.present → (j - 1) / 2 = i → 0 < i → h.Dominates ((i - 1) / 2) j

/-- The order, but for the value at the place `i`, which may be less than those below it. -/
structure Sinking (h : Heap α) (i : Nat) : Prop where
  /-- No value below another place is greater than the one there. -/
  edges : ∀ j, 0 < j → j < h.present → (j - 1) / 2 ≠ i → h.Dominates ((j - 1) / 2) j
  /-- The values below the place are not greater than the one above it. -/
  bridge : ∀ j, 0 < j → j < h.present → (j - 1) / 2 = i → 0 < i → h.Dominates ((i - 1) / 2) j

theorem Dominates.trans (d : h.Dominates i j) (d' : h.Dominates j k) : h.Dominates i k := by
  obtain ⟨a, b, ha, hb, le⟩ := d
  obtain ⟨b', c, hb', hc, le'⟩ := d'
  cases hb.symm.trans hb'
  exact ⟨a, c, ha, hc, le_trans le' le⟩

theorem dominates_congr (hi : h'.values.get? i = h.values.get? i)
    (hj : h'.values.get? j = h.values.get? j) : h'.Dominates i j ↔ h.Dominates i j := by
  rw [Dominates, Dominates, hi, hj]

/-- Exchanging the values of two places exchanges what they dominate. -/
theorem dominates_swap {p q : Nat} (e : h.swapPlaces p q = .ok h₁) : h₁.Dominates i j ↔
    h.Dominates (Equiv.swap p q i) (Equiv.swap p q j) := by
  rw [Dominates, Dominates, (of_swapPlaces e).2, (of_swapPlaces e).2]

theorem ordered_empty : (empty : Heap α).Ordered := fun _ _ h => absurd h (Nat.not_lt_zero _)

/-- In an ordered heap a value is not greater than those on its way to the front. -/
theorem Ordered.dominates (o : h.Ordered) (kept : h.Kept) (above : Above i j)
    (hj : j < h.present) : h.Dominates i j := by
  induction above with
  | self =>
    obtain ⟨a, ha⟩ := kept.value hj
    exact ⟨a, a, ha, ha, le_rfl⟩
  | @child j pos _ ih => exact (ih (by omega)).trans (o j pos hj)

/-! ## Moving up -/

/-- A value that is not greater than the one above it has arrived. -/
theorem Rising.ordered (r : h.Rising i) (arrived : 0 < i → h.Dominates ((i - 1) / 2) i) :
    h.Ordered := by
  intro j pos hj
  by_cases same : j = i
  · subst same
    exact arrived pos
  · exact r.edges j pos hj same

/-- A value that is greater than the one above it moves up. -/
theorem Rising.move (r : h.Rising i) (pos : 0 < i) (hi : i < h.present)
    (greater : h.Dominates i ((i - 1) / 2)) (e : h.swapPlaces ((i - 1) / 2) i = .ok h₁) :
    h₁.Rising ((i - 1) / 2) := by
  have present := (of_swapPlaces e).1
  have stays : ∀ {m}, m ≠ (i - 1) / 2 → m ≠ i → Equiv.swap ((i - 1) / 2) i m = m :=
    Equiv.swap_apply_of_ne_of_ne
  refine ⟨fun j pos' hj other => ?_, fun j pos' hj child high => ?_⟩
  · rw [present] at hj
    rw [dominates_swap e]
    by_cases atI : j = i
    · rw [atI, Equiv.swap_apply_left, Equiv.swap_apply_right]
      exact greater
    · rw [stays other atI]
      by_cases belowI : (j - 1) / 2 = i
      · rw [belowI, Equiv.swap_apply_right]
        exact r.bridge j pos' hj belowI pos
      · by_cases beside : (j - 1) / 2 = (i - 1) / 2
        · rw [beside, Equiv.swap_apply_left]
          exact greater.trans (beside ▸ r.edges j pos' hj atI)
        · rw [stays beside belowI]
          exact r.edges j pos' hj atI
  · rw [present] at hj
    rw [dominates_swap e, stays (by omega) (by omega)]
    have top := r.edges ((i - 1) / 2) high (by omega) (by omega)
    by_cases atI : j = i
    · rw [atI, Equiv.swap_apply_right]
      exact top
    · rw [stays (by omega) atI]
      exact top.trans (child ▸ r.edges j pos' hj atI)

/-- A value that is moved up has arrived, or it changes places with the one above it and is moved
    on from there. -/
theorem siftUp_cases (e : h.siftUp i = .ok h') :
    (h' = h ∧ (0 < i → h.Dominates ((i - 1) / 2) i)) ∨
      ∃ h₁, 0 < i ∧ h.Dominates i ((i - 1) / 2) ∧ h.swapPlaces ((i - 1) / 2) i = .ok h₁ ∧
        h₁.siftUp ((i - 1) / 2) = .ok h' := by
  unfold siftUp at e
  split at e
  · rename_i pos
    obtain ⟨a, ha, e⟩ := Yields.exists_of_bind e
    obtain ⟨b, hb, e⟩ := Yields.exists_of_bind e
    rw [Table.read_eq_ok_iff] at ha hb
    split at e
    · rename_i less
      obtain ⟨h₁, swapped, e⟩ := Yields.exists_of_bind e
      exact .inr ⟨h₁, pos, ⟨b, a, hb, ha, le_of_lt less⟩, swapped, e⟩
    · rename_i arrived
      cases e
      exact .inl ⟨rfl, fun _ => ⟨a, b, ha, hb, not_lt.1 arrived⟩⟩
  · rename_i front
    cases e
    exact .inl ⟨rfl, fun pos => absurd pos front⟩

theorem ordered_of_siftUp (r : h.Rising i) (hi : i < h.present) (e : h.siftUp i = .ok h') :
    h'.Ordered := by
  induction i using Nat.strongRecOn generalizing h with
  | _ i ih =>
    rcases siftUp_cases e with ⟨rfl, arrived⟩ | ⟨h₁, pos, greater, swapped, e⟩
    · exact r.ordered arrived
    · refine ih _ (by omega) (r.move pos hi greater swapped) ?_ e
      rw [(of_swapPlaces swapped).1]
      omega

/-- A key that moves up comes to a place above the one it had. -/
theorem above_of_siftUp (kept : h.Kept) (hi : i < h.present) (place : h.places.get? k = some i)
    (e : h.siftUp i = .ok h') : ∃ p, h'.places.get? k = some p ∧ Above p i := by
  induction i using Nat.strongRecOn generalizing h with
  | _ i ih =>
    rcases siftUp_cases e with ⟨rfl, -⟩ | ⟨h₁, pos, -, swapped, e⟩
    · exact ⟨i, place, .self⟩
    · have room := kept.present
      obtain ⟨kept₁, -, present, -, moved⟩ :=
        (swapPlaces_yields kept (by omega) (by omega)).of_ok swapped
      have place₁ : h₁.places.get? k = some ((i - 1) / 2) := by
        rw [moved, place, Option.map_some, Equiv.swap_apply_right]
      obtain ⟨p, atP, above⟩ := ih _ (by omega) kept₁ (by omega) place₁ e
      exact ⟨p, atP, .child pos above⟩

/-! ## Moving down -/

/-- A value that is not less than those below it has arrived. -/
theorem Sinking.ordered (s : h.Sinking i)
    (arrived : ∀ j, 0 < j → j < h.present → (j - 1) / 2 = i → h.Dominates i j) :
    h.Ordered := by
  intro j pos hj
  by_cases child : (j - 1) / 2 = i
  · exact child ▸ arrived j pos hj child
  · exact s.edges j pos hj child

/-- The greater child dominates the children. -/
theorem dominates_greaterChild (kept : h.Kept) (left : 2 * i + 1 < h.present)
    {c : { j : Nat // i < j ∧ j ≤ 2 * i + 2 }} (e : h.greaterChild h.present i = .ok c) :
    c.1 < h.present ∧ (c.1 - 1) / 2 = i ∧
      ∀ j, 0 < j → j < h.present → (j - 1) / 2 = i → h.Dominates c.1 j := by
  have only : ∀ j, 0 < j → (j - 1) / 2 = i → j = 2 * i + 1 ∨ j = 2 * i + 2 := by omega
  have both : (2 * i + 1 - 1) / 2 = i ∧ (2 * i + 2 - 1) / 2 = i := by omega
  have self : ∀ j, j < h.present → h.Dominates j j := fun j hj => by
    obtain ⟨a, ha⟩ := kept.value hj
    exact ⟨a, a, ha, ha, le_rfl⟩
  unfold greaterChild at e
  dsimp only at e
  split at e
  · rename_i right
    obtain ⟨a, ha, e⟩ := Yields.exists_of_bind e
    obtain ⟨b, hb, e⟩ := Yields.exists_of_bind e
    rw [Table.read_eq_ok_iff] at ha hb
    split at e
    · rename_i less
      cases e
      refine ⟨right, both.2, fun j pos hj child => ?_⟩
      rcases only j pos child with rfl | rfl
      · exact ⟨b, a, hb, ha, le_of_lt less⟩
      · exact self _ hj
    · rename_i notLess
      cases e
      refine ⟨left, both.1, fun j pos hj child => ?_⟩
      rcases only j pos child with rfl | rfl
      · exact self _ hj
      · exact ⟨a, b, ha, hb, not_lt.1 notLess⟩
  · rename_i alone
    cases e
    refine ⟨left, both.1, fun j pos hj child => ?_⟩
    rcases only j pos child with rfl | rfl
    · exact self _ hj
    · exact absurd hj alone

/-- A value that is less than the greater one below it moves down. -/
theorem Sinking.move (s : h.Sinking i) {c : Nat} (child : 0 < c ∧ (c - 1) / 2 = i)
    (hc : c < h.present) (greater : h.Dominates c i)
    (greatest : ∀ j, 0 < j → j < h.present → (j - 1) / 2 = i → h.Dominates c j)
    (e : h.swapPlaces c i = .ok h₁) : h₁.Sinking c := by
  have present := (of_swapPlaces e).1
  have stays : ∀ {m}, m ≠ c → m ≠ i → Equiv.swap c i m = m := Equiv.swap_apply_of_ne_of_ne
  refine ⟨fun j pos hj other => ?_, fun j pos hj below _ => ?_⟩
  · rw [present] at hj
    rw [dominates_swap e]
    by_cases belowI : (j - 1) / 2 = i
    · rw [belowI, Equiv.swap_apply_right]
      by_cases atC : j = c
      · rw [atC, Equiv.swap_apply_left]
        exact greater
      · rw [stays atC (by omega)]
        exact greatest j pos hj belowI
    · rw [stays other belowI]
      by_cases atI : j = i
      · rw [atI, Equiv.swap_apply_right]
        exact s.bridge c child.1 hc child.2 (atI ▸ pos)
      · have atC : j ≠ c := fun same => belowI (same ▸ child.2)
        rw [stays atC atI]
        exact s.edges j pos hj belowI
  · rw [present] at hj
    rw [dominates_swap e, child.2, Equiv.swap_apply_right, stays (by omega) (by omega)]
    exact below ▸ s.edges j pos hj (by omega)

/-- A value that is moved down has arrived, or it changes places with the greater one below it and
    is moved on from there. -/
theorem siftDown_cases (e : siftDown n h i = .ok h') :
    (h' = h ∧ (2 * i + 1 < n → ∃ c, h.greaterChild n i = .ok c ∧ h.Dominates i c.1)) ∨
      ∃ c down h₁, 2 * i + 1 < n ∧ h.greaterChild n i = .ok ⟨c, down⟩ ∧ h.Dominates c i ∧
        h.swapPlaces c i = .ok h₁ ∧ siftDown n h₁ c = .ok h' := by
  unfold siftDown at e
  split at e
  · rename_i left
    obtain ⟨⟨c, down⟩, child, e⟩ := Yields.exists_of_bind e
    obtain ⟨a, ha, e⟩ := Yields.exists_of_bind e
    obtain ⟨b, hb, e⟩ := Yields.exists_of_bind e
    rw [Table.read_eq_ok_iff] at ha hb
    split at e
    · rename_i less
      obtain ⟨h₁, swapped, e⟩ := Yields.exists_of_bind e
      exact .inr ⟨c, down, h₁, left, child, ⟨b, a, hb, ha, le_of_lt less⟩, swapped, e⟩
    · rename_i arrived
      cases e
      exact .inl ⟨rfl, fun _ => ⟨⟨c, down⟩, child, a, b, ha, hb, not_lt.1 arrived⟩⟩
  · rename_i leaf
    cases e
    exact .inl ⟨rfl, fun left => absurd left leaf⟩

theorem ordered_of_siftDown (kept : h.Kept) (s : h.Sinking i)
    (e : siftDown h.present h i = .ok h') : h'.Ordered := by
  induction hm : h.present - i using Nat.strongRecOn generalizing h i with
  | _ m ih =>
    rcases siftDown_cases e with ⟨rfl, arrived⟩ | ⟨c, down, h₁, left, child, greater, swapped, e⟩
    · refine s.ordered fun j pos hj below => ?_
      have left : 2 * i + 1 < h'.present := by omega
      obtain ⟨c, child, top⟩ := arrived left
      exact top.trans ((dominates_greaterChild kept left child).2.2 j pos hj below)
    · obtain ⟨hc, below, greatest⟩ := dominates_greaterChild kept left child
      dsimp only at hc below greatest
      have moved := s.move ⟨by omega, below⟩ hc greater greatest swapped
      obtain ⟨kept₁, -, present, -⟩ := (reorder_yields kept hc (by omega)).of_ok swapped
      exact ih (h₁.present - c) (by omega) kept₁ moved (by rwa [present]) rfl

/-- A value that moves down leaves the places in front of its own alone, and its own to a value
    that is not less. -/
theorem values_of_siftDown (e : siftDown n h i = .ok h') {a : α} (ha : h.values.get? i = some a) :
    (∀ j, j < i → h'.values.get? j = h.values.get? j) ∧
      ∃ b, h'.values.get? i = some b ∧ a ≤ b := by
  induction hm : n - i using Nat.strongRecOn generalizing h i a with
  | _ m ih =>
    rcases siftDown_cases e with ⟨rfl, -⟩ | ⟨c, down, h₁, left, -, greater, swapped, e⟩
    · exact ⟨fun _ _ => rfl, a, ha, le_rfl⟩
    · obtain ⟨b, a', hb, ha', le⟩ := greater
      cases ha.symm.trans ha'
      have moved := (of_swapPlaces swapped).2
      have atC : h₁.values.get? c = some a := by rw [moved, Equiv.swap_apply_left, ha]
      have atI : h₁.values.get? i = some b := by rw [moved, Equiv.swap_apply_right, hb]
      obtain ⟨front, -⟩ := ih (n - c) (by omega) e atC rfl
      refine ⟨fun j hj => ?_, b, (front i down.1).trans atI, le⟩
      rw [front j (by omega), moved, Equiv.swap_apply_of_ne_of_ne (by omega) (by omega)]

/-- A value that is greater than the one above it stays out of order when it is moved down. -/
theorem not_ordered_of_siftDown (kept : h.Kept) (pos : 0 < i) (hi : i < h.present) {a b : α}
    (above : h.values.get? ((i - 1) / 2) = some a) (here : h.values.get? i = some b) (less : a < b)
    (e : siftDown h.present h i = .ok h') : ¬h'.Ordered := by
  intro o
  have present := ((siftDown_yields kept (Nat.le_refl _)).of_ok e).present
  obtain ⟨front, b', here', grows⟩ := values_of_siftDown e here
  obtain ⟨a', b'', above', here'', le⟩ := o i pos (present ▸ hi)
  cases here'.symm.trans here''
  have stays := (front _ (by omega)).trans above
  cases stays.symm.trans above'
  exact not_lt.2 le (lt_of_lt_of_le less grows)

/-! ## Adding, putting back and taking out -/

/-- When a further place comes to the front, only its value can be out of order. -/
theorem Ordered.rising (o : h.Ordered) (present : h'.present = h.present + 1)
    (same : ∀ j, j < h.present → h'.values.get? j = h.values.get? j) :
    h'.Rising h.present := by
  refine ⟨fun j pos hj other => ?_, fun j pos hj child _ => ?_⟩
  · rw [present] at hj
    exact (dominates_congr (same _ (by omega)) (same _ (by omega))).2 (o j pos (by omega))
  · omega

theorem ordered_of_restore (o : h.Ordered) (e : h.restore k = .ok h') : h'.Ordered := by
  unfold restore at e
  split at e
  · cases e
    exact o
  · rename_i absent
    obtain ⟨p, place, e⟩ := Yields.exists_of_bind e
    rw [Table.read_eq_ok_iff] at place
    obtain ⟨h₁, swapped, e⟩ := Yields.exists_of_bind e
    obtain ⟨present, values⟩ := of_swapPlaces swapped
    have waits : h.present ≤ p := Nat.le_of_not_lt fun lt => absent (isPresent_iff.2 ⟨p, place, lt⟩)
    refine ordered_of_siftUp (o.rising ?_ fun j hj => ?_) (Nat.lt_succ_self _) e
    · rfl
    · exact (values j).trans
        (congrArg h.values.get? (Equiv.swap_apply_of_ne_of_ne (by omega) (by omega)))

theorem ordered_of_grow (kept : h.Kept) (o : h.Ordered) {a : α} (e : h.grow h.size a = .ok h') :
    h'.Ordered := by
  obtain ⟨h₁, swapped, e⟩ := Yields.exists_of_bind e
  obtain ⟨present, values⟩ := of_swapPlaces swapped
  have room := kept.present
  refine ordered_of_siftUp (o.rising ?_ fun j hj => ?_) (Nat.lt_succ_self _) e
  · rfl
  · refine (values j).trans ?_
    have stays : Equiv.swap h.present h.size j = j :=
      Equiv.swap_apply_of_ne_of_ne (by omega) (by omega)
    change (h.values.push a).get? (Equiv.swap h.present h.size j) = _
    rw [stays, Table.get?_push, if_neg]
    exact Nat.ne_of_lt (Nat.lt_of_lt_of_le hj room)

end Order

/-! ## Displaced values -/

section Displaced

variable [LT α] [DecidableLT α]

/-- Whether taking the key out brings the last value in front to a place below a smaller one. -/
def displaces (h : Heap α) (k : Nat) : Bool :=
  (h.places.get? k).any fun p => decide (0 < p ∧ p + 1 < h.present) &&
    (h.values.get? ((p - 1) / 2)).any fun a =>
      (h.values.get? (h.present - 1)).any fun b => decide (a < b)

theorem displaces_eq {p : Nat} (place : h.places.get? k = some p) {a b : α}
    (above : h.values.get? ((p - 1) / 2) = some a)
    (last : h.values.get? (h.present - 1) = some b) :
    h.displaces k = decide ((0 < p ∧ p + 1 < h.present) ∧ a < b) := by
  rw [displaces, place, Option.any_some, above, Option.any_some, last, Option.any_some,
    Bool.decide_and (0 < p ∧ p + 1 < h.present)]

/-- The key in front, the last one in front and those behind displace nothing. -/
theorem not_displaces {p : Nat} (place : h.places.get? k = some p)
    (edge : p = 0 ∨ h.present ≤ p + 1) : h.displaces k = false := by
  rw [displaces, place, Option.any_some, decide_eq_false (by omega), Bool.false_and]

theorem not_displaces_of_absent (absent : h.isPresent k = false) : h.displaces k = false := by
  rw [isPresent_eq] at absent
  cases place : h.places.get? k with
  | none => rw [displaces, place, Option.any_none]
  | some p =>
    rw [place, Option.any_some, decide_eq_false_iff_not] at absent
    exact not_displaces place (.inr (by omega))

end Displaced

section Order

variable [LinearOrder α]

/-- After the last value in front has taken a place, only the values below can be out of order, if
    it is not greater than the value above. -/
theorem Ordered.sinking (o : h.Ordered) {p : Nat} (e : h.swapPlaces p (h.present - 1) = .ok h₁)
    (inside : p + 1 < h.present) (calm : 0 < p → h.Dominates ((p - 1) / 2) (h.present - 1)) :
    Sinking { h₁ with present := h.present - 1 } p := by
  have stays : ∀ {m}, m ≠ p → m < h.present - 1 → Equiv.swap p (h.present - 1) m = m :=
    fun other lt => Equiv.swap_apply_of_ne_of_ne other (Nat.ne_of_lt lt)
  have swap : ∀ {i j}, Dominates { h₁ with present := h.present - 1 } i j ↔
      h.Dominates (Equiv.swap p (h.present - 1) i) (Equiv.swap p (h.present - 1) j) :=
    fun {i j} => (dominates_swap e : h₁.Dominates i j ↔ _)
  refine ⟨fun j pos hj other => ?_, fun j pos hj child high => ?_⟩
  · dsimp only at hj
    rw [swap, stays other (by omega)]
    by_cases atP : j = p
    · rw [atP, Equiv.swap_apply_left]
      exact calm (atP ▸ pos)
    · rw [stays atP hj]
      exact o j pos (by omega)
  · dsimp only at hj
    rw [swap, stays (by omega) (by omega), stays (by omega) hj]
    have below := o j pos (by omega)
    rw [child] at below
    exact (o p high (by omega)).trans below

/-- A deletion that changes nothing in front of the last place keeps the order. -/
theorem Ordered.shrink (o : h.Ordered) (fewer : h'.present ≤ h.present)
    (same : ∀ j, j < h'.present → h'.values.get? j = h.values.get? j) : h'.Ordered :=
  fun j pos hj => (dominates_congr (same _ (by omega)) (same _ hj)).2 (o j pos (by omega))

/-- Taking a key out keeps the order exactly if it displaces nothing. -/
theorem ordered_delete_iff (kept : h.Kept) (o : h.Ordered) (e : h.delete k = .ok h') :
    h'.Ordered ↔ h.displaces k = false := by
  unfold delete at e
  split at e
  · rename_i present
    obtain ⟨p, place, front⟩ := isPresent_iff.1 present
    obtain ⟨p', place', e⟩ := Yields.exists_of_bind e
    cases place.symm.trans (Table.read_eq_ok_iff.1 place')
    obtain ⟨h₁, swapped, e⟩ := Yields.exists_of_bind e
    have values := (of_swapPlaces swapped).2
    have kept₁ := ((out_yields kept place front).of_ok swapped).kept
    dsimp only at e
    split at e
    · rename_i inside
      obtain ⟨a, above⟩ := kept.value (i := (p - 1) / 2) (by omega)
      obtain ⟨b, last⟩ := kept.value (i := h.present - 1) (by omega)
      rw [displaces_eq place above last, decide_eq_false_iff_not]
      constructor
      · rintro o' ⟨⟨pos, -⟩, less⟩
        -- the last value comes to the place, and the one above stays
        have arrives : h₁.values.get? p = some b := by rw [values, Equiv.swap_apply_left, last]
        have stays : h₁.values.get? ((p - 1) / 2) = some a := by
          rw [values, Equiv.swap_apply_of_ne_of_ne (by omega) (by omega), above]
        exact not_ordered_of_siftDown kept₁ pos inside stays arrives less e o'
      · intro calm
        refine ordered_of_siftDown kept₁ (o.sinking swapped (by omega) fun pos => ?_) e
        exact ⟨a, b, above, last, not_lt.1 fun less => calm ⟨⟨pos, by omega⟩, less⟩⟩
    · rename_i last
      cases e
      refine iff_of_true (o.shrink (Nat.sub_le ..) fun j hj => ?_)
        (not_displaces place (.inr (by omega)))
      dsimp only at hj
      rw [values, Equiv.swap_apply_of_ne_of_ne (by omega) (by omega)]
  · rename_i absent
    cases e
    exact iff_of_true o (not_displaces_of_absent (Bool.eq_false_iff.2 absent))

/-- A key that was just added is below the way of the last value, so that it displaces nothing. -/
theorem not_displaces_of_grow (kept : h.Kept) (o : h.Ordered) {a : α}
    (e : h.grow h.size a = .ok h') : h'.displaces h.size = false := by
  have o' := ordered_of_grow kept o e
  have turns := (grow_yields kept a).of_ok e
  obtain ⟨h₁, swapped, e⟩ := Yields.exists_of_bind e
  have place : (h.behind a).places.get? h.size = some h.size := by
    rw [behind, Table.get?_push, kept.places, if_pos rfl]
  have room : h.present < (h.behind a).size :=
    Nat.lt_of_le_of_lt kept.present (size_behind h a ▸ Nat.lt_succ_self _)
  have last : h.size < (h.behind a).size := size_behind h a ▸ Nat.lt_succ_self _
  have kept₁ :=
    ((in_yields (kept.behind a) place kept.present (.inr ⟨rfl, rfl⟩)).of_ok swapped).kept
  have moved := ((swapPlaces_yields (kept.behind a) room last).of_ok swapped).2.2.2.2
  have start : h₁.places.get? h.size = some h.present := by
    rw [moved, place, Option.map_some]
    exact congrArg some (Equiv.swap_apply_right ..)
  obtain ⟨p, atP, above⟩ := above_of_siftUp kept₁ (Nat.lt_succ_self _) start e
  have present : h'.present = h.present + 1 :=
    ((siftUp_yields kept₁ (Nat.lt_succ_self _)).of_ok e).present
  rcases Nat.eq_zero_or_pos p with front | pos
  · exact not_displaces atP (.inl front)
  · have front : h.present < h'.present := present ▸ Nat.lt_succ_self _
    obtain ⟨b, c, hb, hc, le⟩ := o'.dominates turns.kept (above.parent pos) front
    rw [displaces_eq atP hb (by rwa [present]), decide_eq_false_iff_not]
    exact fun moved => not_lt.2 le moved.2

end Order

end Heap

end ClauseLearning
