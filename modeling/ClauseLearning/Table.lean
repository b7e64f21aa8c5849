/-
  Tables: arrays that grow on demand and are read by number.

  Model. A table holds a value for every key below its size. `grow` makes room for a key by
  filling up with a default and never shrinks; `read`, `set` and `update` refuse a key past the
  end with `Fault.outOfRange`, while `get?` answers `none` there. Everything a table says is said
  by `get?`: the lemmas below give it after each operation.
-/
import ClauseLearning.Fault

namespace ClauseLearning

/-- A growing array read by number. -/
structure Table (α : Type u) where
  /-- The values, in the order of their keys. -/
  entries : Array α
  deriving Repr, DecidableEq

namespace Table

variable {α : Type u}

/-- The table without keys. -/
def empty : Table α := ⟨#[]⟩

instance : Inhabited (Table α) := ⟨empty⟩

instance : EmptyCollection (Table α) := ⟨empty⟩

/-- The number of keys. -/
def size (t : Table α) : Nat := t.entries.size

/-- Whether the table has no key. -/
def isEmpty (t : Table α) : Bool := t.entries.isEmpty

/-- The value of a key, if the table has the key. -/
@[inline] def get? (t : Table α) (k : Nat) : Option α := t.entries[k]?

/-- The value of a key the table must have. -/
def read (t : Table α) (k : Nat) : Except Fault α :=
  match t.get? k with
  | some a => .ok a
  | none => .error .outOfRange

/-- Adds a value under the next key. -/
def push (t : Table α) (a : α) : Table α := ⟨t.entries.push a⟩

/-- Changes the value of a key the table must have. -/
def update (t : Table α) (k : Nat) (f : α → α) : Except Fault (Table α) :=
  if k < t.size then .ok ⟨t.entries.modify k f⟩ else .error .outOfRange

/-- Replaces the value of a key the table must have. -/
def set (t : Table α) (k : Nat) (a : α) : Except Fault (Table α) :=
  if k < t.size then .ok ⟨t.entries.setIfInBounds k a⟩ else .error .outOfRange

/-- Exchanges the values of two keys the table must have. -/
def swap (t : Table α) (i j : Nat) : Except Fault (Table α) :=
  if i < t.size ∧ j < t.size then .ok ⟨t.entries.swapIfInBounds i j⟩ else .error .outOfRange

/-- The table with room for the key `k`, new keys holding `a`. -/
def grow (t : Table α) (k : Nat) (a : α) : Table α :=
  if k < t.size then t else ⟨t.entries ++ Array.replicate (k + 1 - t.size) a⟩

/-- The largest size of a table: as many entries of eight bytes as a signed 64-bit number of
    bytes can span. -/
def maxSize : Nat := (UInt64.size / 2 - 1) / 8

/-- The table with room for an arbitrary key, refused where it would pass the largest size. -/
def accommodate (t : Table α) (k : Nat) (a : α) : Except Fault (Table α) :=
  if k < maxSize then .ok (t.grow k a) else .error .overflow

/-- The lowest key whose value has a property. -/
@[inline] def firstKey? (t : Table α) (has : α → Bool) : Option Nat := t.entries.findIdx? has

/-- The keys, in increasing order. -/
def keys (t : Table α) : List Nat := List.range t.size

/-- The keys below `n` whose values have a property, in increasing order, in front of others. -/
@[specialize] def keysBelow (t : Table α) (has : α → Bool) : Nat → List Nat → List Nat
  | 0, found => found
  | n + 1, found => keysBelow t has n (if (t.get? n).any has then n :: found else found)

/-- The keys whose values have a property, in increasing order. -/
@[inline] def keysWith (t : Table α) (has : α → Bool) : List Nat := t.keysBelow has t.size []

/-- The values, in the order of their keys. -/
def toList (t : Table α) : List α := t.entries.toList

/-! ## What each operation does to the values -/

@[simp] theorem get?_empty (k : Nat) : (empty : Table α).get? k = none := by
  simp [empty, get?]

theorem get?_eq_none_iff {t : Table α} {k : Nat} : t.get? k = none ↔ t.size ≤ k := by
  simp [get?, size]

theorem lt_size_of_get? {t : Table α} {k : Nat} {a : α} (h : t.get? k = some a) :
    k < t.size := by
  rw [get?, Array.getElem?_eq_some_iff] at h
  exact h.1

@[simp] theorem size_push (t : Table α) (a : α) : (t.push a).size = t.size + 1 := by
  simp [push, size]

theorem get?_push (t : Table α) (a : α) (k : Nat) :
    (t.push a).get? k = if k = t.size then some a else t.get? k := by
  rw [push, get?, Array.getElem?_push]
  rfl

theorem read_eq_ok_iff {t : Table α} {k : Nat} {a : α} :
    t.read k = .ok a ↔ t.get? k = some a := by
  unfold read
  split <;> simp_all

theorem size_of_update {t t' : Table α} {k : Nat} {f : α → α} (h : t.update k f = .ok t') :
    t'.size = t.size := by
  unfold update at h
  split at h
  · cases h; simp [size]
  · cases h

theorem get?_of_update {t t' : Table α} {k : Nat} {f : α → α} (h : t.update k f = .ok t')
    (i : Nat) : t'.get? i = if i = k then (t.get? k).map f else t.get? i := by
  unfold update at h
  split at h
  · cases h
    simp only [get?, Array.getElem?_modify]
    by_cases hik : i = k
    · simp [hik]
    · simp [hik, Ne.symm hik]
  · cases h

theorem size_of_set {t t' : Table α} {k : Nat} {a : α} (h : t.set k a = .ok t') :
    t'.size = t.size := by
  unfold set at h
  split at h
  · cases h; simp [size]
  · cases h

theorem get?_of_set {t t' : Table α} {k : Nat} {a : α} (h : t.set k a = .ok t') (i : Nat) :
    t'.get? i = if i = k then some a else t.get? i := by
  unfold set at h
  split at h
  · rename_i hk
    cases h
    simp only [get?, Array.getElem?_setIfInBounds]
    by_cases hik : i = k
    · subst hik
      simpa [size] using hk
    · simp [hik, Ne.symm hik]
  · cases h

theorem keysBelow_eq (t : Table α) (has : α → Bool) (n : Nat) (found : List Nat) :
    t.keysBelow has n found =
      ((List.range n).filter fun k => (t.get? k).any has) ++ found := by
  induction n generalizing found with
  | zero => simp [keysBelow]
  | succ n ih =>
    rw [keysBelow, ih, List.range_succ, List.filter_append, List.append_assoc]
    by_cases h : (t.get? n).any has = true <;> simp [h]

/-- `keysWith` picks from the keys. -/
theorem keysWith_eq_filter (t : Table α) (has : α → Bool) :
    t.keysWith has = t.keys.filter fun k => (t.get? k).any has := by
  rw [keysWith, keysBelow_eq, List.append_nil, keys]

theorem size_grow (t : Table α) (k : Nat) (a : α) : (t.grow k a).size = max t.size (k + 1) := by
  unfold grow
  split
  · simp only [size] at *; omega
  · simp only [size, Array.size_append, Array.size_replicate] at *; omega

theorem get?_grow (t : Table α) (k : Nat) (a : α) (i : Nat) :
    (t.grow k a).get? i = if i < t.size then t.get? i else if i ≤ k then some a else none := by
  unfold grow
  split
  · rename_i hk
    split
    · rfl
    · rename_i hi
      rw [get?_eq_none_iff.2 (by omega), if_neg (by omega)]
  · rename_i hk
    simp only [get?, size, Array.getElem?_append, Array.getElem?_replicate] at *
    grind

theorem lt_size_grow (t : Table α) (k : Nat) (a : α) : k < (t.grow k a).size := by
  rw [size_grow]
  exact Nat.le_max_right ..

theorem size_le_grow (t : Table α) (k : Nat) (a : α) : t.size ≤ (t.grow k a).size := by
  rw [size_grow]
  exact Nat.le_max_left ..

/-- New room makes no difference where missing keys count as the default. -/
theorem getD_grow (t : Table α) (k : Nat) (a : α) (i : Nat) :
    ((t.grow k a).get? i).getD a = (t.get? i).getD a := by
  rw [get?_grow]
  split
  · rfl
  · rename_i beyond
    rw [get?_eq_none_iff.2 (Nat.le_of_not_lt beyond)]
    split <;> rfl

end Table

end ClauseLearning
