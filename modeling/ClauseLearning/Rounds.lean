/-
  Running a step until it answers.

  Model. A step takes a state and either gives the next state or answers. `repeatPow k` does up to
  `2 ^ k` steps with a recursion only `k` deep, and `run n` does `repeatPow 0`, `repeatPow 1`, …,
  `repeatPow (n - 1)` one after the other, so up to `2 ^ n - 1` steps; each goes on where the
  last one stopped. A search that may take exponentially many steps is so a total function that
  costs no more than the steps it takes.
-/
namespace ClauseLearning

/-- The outcome of a step. -/
inductive Round (σ ρ : Type) where
  /-- There is more to do, from the given state. -/
  | more (s : σ)
  /-- The answer. -/
  | done (r : ρ)

namespace Round

variable {σ ρ ε : Type}

/-- Up to `2 ^ k` steps. -/
def repeatPow (step : σ → Except ε (Round σ ρ)) : Nat → σ → Except ε (Round σ ρ)
  | 0, s => step s
  | k + 1, s =>
    match repeatPow step k s with
    | .error e => .error e
    | .ok (done r) => .ok (done r)
    | .ok (more s') => repeatPow step k s'

/-- The runs of `repeatPow` from the exponent `k` on, `n` of them. -/
def runFrom (step : σ → Except ε (Round σ ρ)) : Nat → Nat → σ → Except ε (Round σ ρ)
  | 0, _, s => .ok (more s)
  | n + 1, k, s =>
    match repeatPow step k s with
    | .error e => .error e
    | .ok (done r) => .ok (done r)
    | .ok (more s') => runFrom step n (k + 1) s'

/-- Up to `2 ^ n - 1` steps. -/
def run (step : σ → Except ε (Round σ ρ)) (n : Nat) (s : σ) : Except ε (Round σ ρ) :=
  runFrom step n 0 s

end Round

end ClauseLearning
