/-
  Binary heaps of numbered keys, from which keys can be taken out and put back.

  Model. Every key has a value for good. The present keys take the first places, ordered as a
  heap with the greatest value in front; the others wait behind them with their values, so that
  a key put back is where it was in the order. Two tables that are inverse to each other lead
  from keys to places and back. Keys are meant to come in the order 0, 1, 2, …; with other keys
  the operations may fault.
-/
import ClauseLearning.Table

namespace ClauseLearning

/-- A heap over numbered keys. -/
structure Heap (α : Type) where
  /-- The values by place. -/
  values : Table α
  /-- The place of every key. -/
  places : Table Nat
  /-- The key at every place. -/
  keys : Table Nat
  /-- How many keys are present; they have the places below this number. -/
  present : Nat
  deriving Repr

namespace Heap

variable {α : Type} [LT α] [DecidableLT α]

/-- The heap without keys. -/
def empty : Heap α := ⟨.empty, .empty, .empty, 0⟩

instance : Inhabited (Heap α) := ⟨empty⟩

/-- The number of keys, present or not. -/
def size (h : Heap α) : Nat := h.values.size

/-- Whether the key is in the heap and present. -/
def isPresent (h : Heap α) (key : Nat) : Bool :=
  match h.places.get? key with
  | some place => place < h.present
  | none => false

/-- A present key with the greatest value, and the value. -/
def peek? (h : Heap α) : Option (Nat × α) :=
  if h.present = 0 then none
  else do return (← h.keys.get? 0, ← h.values.get? 0)

/-- Exchanges what two places hold. -/
def swapPlaces (h : Heap α) (i j : Nat) : Except Fault (Heap α) :=
  match h with
  | ⟨values, places, keys, present⟩ => do
    let k ← keys.read i
    let l ← keys.read j
    let values ← values.swap i j
    let keys ← keys.swap i j
    let places ← places.swap k l
    return ⟨values, places, keys, present⟩

/-- Moves the value at place `i` up while its parent's is smaller. -/
def siftUp (h : Heap α) (i : Nat) : Except Fault (Heap α) :=
  if hi : 0 < i then do
    if (← h.values.read ((i - 1) / 2)) < (← h.values.read i) then
      siftUp (← h.swapPlaces ((i - 1) / 2) i) ((i - 1) / 2)
    else return h
  else return h
termination_by i
decreasing_by omega

/-- The child of place `i` with the greater value, the left one if they are equal, where the
    left one is a place below `stop`. -/
def greaterChild (h : Heap α) (stop i : Nat) :
    Except Fault { j : Nat // i < j ∧ j ≤ 2 * i + 2 } :=
  let left : { j : Nat // i < j ∧ j ≤ 2 * i + 2 } := ⟨2 * i + 1, by omega⟩
  if 2 * i + 2 < stop then do
    if (← h.values.read (2 * i + 1)) < (← h.values.read (2 * i + 2)) then
      return ⟨2 * i + 2, by omega⟩
    else return left
  else return left

/-- Moves the value at place `i` down among the places below `stop` while a child's is greater. To
    ask instead that the value is at least that of each child is the same for total orders only. -/
def siftDown (stop : Nat) (h : Heap α) (i : Nat) : Except Fault (Heap α) :=
  if _hi : 2 * i + 1 < stop then do
    let ⟨j, _hj⟩ ← h.greaterChild stop i
    if (← h.values.read i) < (← h.values.read j) then
      siftDown stop (← h.swapPlaces j i) j
    else return h
  else return h
termination_by stop - i
decreasing_by omega

/-- Adds a present key with its value. -/
def grow (h : Heap α) (key : Nat) (a : α) : Except Fault (Heap α) := do
  let last := h.values.size
  let wider : Heap α := { h with
    values := h.values.push a, places := h.places.push last, keys := h.keys.push key }
  let placed ← wider.swapPlaces h.present last
  { placed with present := h.present + 1 }.siftUp h.present

/-- Takes a key out; nothing happens if it is not present. -/
def delete (h : Heap α) (key : Nat) : Except Fault (Heap α) := do
  if h.isPresent key then
    let place ← h.places.read key
    let last := h.present - 1
    let shrunk := { ← h.swapPlaces place last with present := last }
    if place < last then shrunk.siftDown last place else return shrunk
  else return h

/-- Puts a key back that was taken out; nothing happens if it is present. -/
def restore (h : Heap α) (key : Nat) : Except Fault (Heap α) := do
  if h.isPresent key then return h
  else
    let placed ← h.swapPlaces (← h.places.read key) h.present
    { placed with present := h.present + 1 }.siftUp h.present

/-- Takes out a present key with the greatest value and gives it. -/
def pop (h : Heap α) : Except Fault (Option Nat × Heap α) := do
  if h.present = 0 then return (none, h)
  else
    let key ← h.keys.read 0
    return (some key, ← h.delete key)

/-- Takes out at most `n` keys, one after the other, and gives them. -/
def popMany (h : Heap α) : Nat → Except Fault (List Nat × Heap α)
  | 0 => return ([], h)
  | n + 1 => do
    match ← h.pop with
    | (none, h') => return ([], h')
    | (some key, h') =>
      let (keys, rest) ← popMany h' n
      return (key :: keys, rest)

/-- Takes out all keys, the greatest value first. -/
def drain (h : Heap α) : Except Fault (List Nat × Heap α) := h.popMany h.present

end Heap

/-- A value in the opposite order, for heaps with the smallest value in front. -/
structure Reversed (α : Type) where
  /-- The value itself. -/
  value : α
  deriving Repr, DecidableEq

instance {α : Type} [LT α] : LT (Reversed α) := ⟨fun a b => b.value < a.value⟩

instance {α : Type} [LT α] [DecidableLT α] : DecidableLT (Reversed α) :=
  fun a b => inferInstanceAs (Decidable (b.value < a.value))

end ClauseLearning
