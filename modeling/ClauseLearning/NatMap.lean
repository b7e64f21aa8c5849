/-
  Finite maps from natural numbers.

  Model. A map is a binary tree in which a key leads to its place: 0 is at the top, the odd key
  2 k + 1 is under k in the first branch, and the even key 2 k + 2 is under k in the second. So
  the place of a key does not depend on the other keys, and it is as many steps away as the key
  has binary digits. Everything a map says is said by `get?`.

  A map to `Unit` is a set. With a set of keys a list can be rid of repetitions in one walk
  (`firsts`), which gives what `List.eraseDups` gives (`firsts_eq_eraseDups`).
-/
namespace ClauseLearning

/-- A finite map from natural numbers. -/
inductive NatMap (α : Type u) where
  /-- The map without keys. -/
  | empty
  /-- The map with the given value under 0, if there is one, and the given branches. -/
  | node (value? : Option α) (odds evens : NatMap α)
  deriving Repr, DecidableEq

namespace NatMap

variable {α : Type u}

instance : Inhabited (NatMap α) := ⟨empty⟩

instance : EmptyCollection (NatMap α) := ⟨empty⟩

/-- The value of a key, if the map has the key. -/
def get? : NatMap α → Nat → Option α
  | empty, _ => none
  | node value? odds evens, k =>
    if k = 0 then value?
    else if k % 2 = 1 then odds.get? (k / 2)
    else evens.get? (k / 2 - 1)

/-- Whether the map has the key. -/
def contains (m : NatMap α) (k : Nat) : Bool := (m.get? k).isSome

/-- The map with one key. -/
def single (k : Nat) (a : α) : NatMap α :=
  if k = 0 then node (some a) empty empty
  else if k % 2 = 1 then node none (single (k / 2) a) empty
  else node none empty (single (k / 2 - 1) a)

/-- Gives a key a value, in place of the one it may have. -/
def insert (k : Nat) (a : α) : NatMap α → NatMap α
  | empty => single k a
  | node value? odds evens =>
    if k = 0 then node (some a) odds evens
    else if k % 2 = 1 then node value? (odds.insert (k / 2) a) evens
    else node value? odds (evens.insert (k / 2 - 1) a)

/-- The map of the given pairs, of which a later one overrides an earlier one. -/
def ofPairs (pairs : List (Nat × α)) : NatMap α :=
  pairs.foldl (fun m p => m.insert p.1 p.2) empty

@[simp] theorem get?_empty (k : Nat) : (empty : NatMap α).get? k = none := rfl

theorem get?_single (k : Nat) (a : α) (j : Nat) :
    (single k a).get? j = if j = k then some a else none := by
  fun_induction single k a generalizing j with
  | case1 => grind [get?]
  | case2 k _ _ ih => simp only [get?, ih]; grind
  | case3 k _ _ ih => simp only [get?, ih]; grind

theorem get?_insert (m : NatMap α) (k : Nat) (a : α) (j : Nat) :
    (m.insert k a).get? j = if j = k then some a else m.get? j := by
  fun_induction insert k a m generalizing j with
  | case1 k => exact get?_single k a j
  | case2 => grind [get?]
  | case3 k _ _ _ _ _ ih => simp only [get?, ih]; grind
  | case4 k _ _ _ _ _ ih => simp only [get?, ih]; grind

@[simp] theorem contains_empty (k : Nat) : (empty : NatMap α).contains k = false := rfl

theorem contains_insert (m : NatMap α) (k : Nat) (a : α) (j : Nat) :
    (m.insert k a).contains j = (j == k || m.contains j) := by
  simp only [contains, get?_insert]
  by_cases h : j = k <;> simp [h]

end NatMap

/-- A finite set of natural numbers. -/
abbrev NatSet := NatMap Unit

/-- The set with one more number. -/
def NatSet.add (s : NatSet) (k : Nat) : NatSet := s.insert k ()

/-- The set of the numbers in a list. -/
def NatSet.ofList (ks : List Nat) : NatSet := ks.foldl NatSet.add .empty

/-! ## Lists without repetitions -/

section Firsts

variable {α : Type u}

/-- Walks over a list with the keys met so far; `kept` holds the elements kept, the last one
    first. -/
def firstsLoop (key : α → Nat) : NatSet → List α → List α → List α
  | _, kept, [] => kept.reverse
  | met, kept, x :: xs =>
    if met.contains (key x) then firstsLoop key met kept xs
    else firstsLoop key (NatSet.add met (key x)) (x :: kept) xs

/-- The elements whose key no earlier element has, in their order. -/
def firsts (key : α → Nat) (xs : List α) : List α := firstsLoop key .empty [] xs

theorem firstsLoop_eq [BEq α] [LawfulBEq α] {key : α → Nat}
    (inj : ∀ x y, key x = key y → x = y) (met : NatSet) (kept xs : List α) :
    firstsLoop key met kept xs =
      kept.reverse ++ (xs.filter fun x => !met.contains (key x)).eraseDups := by
  induction xs generalizing met kept with
  | nil => simp [firstsLoop]
  | cons x xs ih =>
    by_cases h : met.contains (key x) = true
    · simp [firstsLoop, h, ih]
    · have rest : ∀ y, (!(NatSet.add met (key x)).contains (key y)) =
          (!(y == x) && !met.contains (key y)) := by
        intro y
        rw [NatSet.add, NatMap.contains_insert, Bool.not_or]
        by_cases hyx : y = x
        · simp [hyx]
        · have different : (key y == key x) = false := by
            rw [beq_eq_false_iff_ne]
            exact fun e => hyx (inj y x e)
          rw [different, beq_eq_false_iff_ne.2 hyx]
      simp [firstsLoop, h, ih, rest, List.eraseDups_cons, List.filter_filter]

/-- Where different elements have different keys, `firsts` erases the repetitions. -/
theorem firsts_eq_eraseDups [BEq α] [LawfulBEq α] {key : α → Nat}
    (inj : ∀ x y, key x = key y → x = y) (xs : List α) : firsts key xs = xs.eraseDups := by
  have all : (xs.filter fun x => !(NatMap.empty : NatSet).contains (key x)) = xs :=
    List.filter_eq_self.2 fun _ _ => rfl
  rw [firsts, firstsLoop_eq inj, all]
  rfl

end Firsts

end ClauseLearning
