/-
  Conflict analysis on laden states.

  Model. The analysis reads the literals of the clauses and the reasons of the trail, and writes
  down which clauses it has resolved. On laden states it meets the same literals in the same order,
  and the clauses have their names.

  Rule. `Laden.firstUip`: the learned clause is the same but for the names of its antecedents.
-/
import ClauseLearning.Propagation.FirstUip
import ClauseLearning.Proofs.Ballast.Watches

namespace ClauseLearning

variable {f : ClauseRef → ClauseRef} {p p' : Propagation} {t t' : Trail}

/-- The derived clause with new names for the clauses it was resolved from. -/
def Learned.rename (f : ClauseRef → ClauseRef) (d : Learned) : Learned :=
  { d with antecedents := d.antecedents.map f }

namespace Analysis

/-- The analysis with new names for the clauses resolved. -/
def rename (f : ClauseRef → ClauseRef) (a : Analysis) : Analysis :=
  { a with antecedents := a.antecedents.map f }

theorem meet_alike (h : t.Renamed f t') (a : Analysis) (l : Lit) :
    Alike (fun b b' => b' = b.rename f) (meet t a l) (meet t' (a.rename f) l) := by
  unfold meet
  change Alike _ (if a.seen.contains l.var = true then _ else _)
    (if a.seen.contains l.var = true then _ else _)
  split
  · exact rfl
  · refine (h.causeOf l.var).bind fun c c' hc => ?_
    rw [hc.1, h.level_eq]
    dsimp only
    split <;> exact rfl

theorem resolve_alike (h : p.Laden f p') (a : Analysis) (r : ClauseRef) (passed : Option Lit) :
    Alike (fun b b' => b' = b.rename f) (resolve p a r passed)
      (resolve p' (a.rename f) (f r) passed) := by
  refine (h.clauses.read r).bind fun c c' hc => ?_
  obtain ⟨-, rfl⟩ := hc
  refine Alike.foldlM (fun b b' l _ e => ?_) rfl
  exact e ▸ meet_alike h.trail b l

theorem walk_alike (h : p.Laden f p') (a : Analysis) {ls : List Lit}
    (inside : ∀ l ∈ ls, l ∈ p.trail.literals) :
    Alike (fun d d' => d' = d.rename f) (walk p a ls) (walk p' (a.rename f) ls) := by
  induction ls generalizing a with
  | nil => rfl
  | cons l older ih =>
    have onward := fun a => ih a fun k hk => inside k (.tail _ hk)
    unfold walk
    change Alike _ (if (!a.seen.contains l.var) = true then _ else if a.pending = 1 then _ else _)
      (if (!a.seen.contains l.var) = true then _ else if a.pending = 1 then _ else _)
    split
    · exact onward a
    · split
      · refine congrArg (Learned.mk _ _ _) ?_
        exact List.map_reverse.symm
      · refine Alike.bind_same fun pending => ?_
        refine (h.trail.causeOf l.var).bind fun c c' hc => ?_
        rw [hc.2 l (inside l (.head _)) rfl]
        cases c.reason with
        | none => rfl
        | some r =>
          refine (resolve_alike h { a with pending := pending } r (some l)).bind fun b b' e => ?_
          exact e ▸ onward b

end Analysis

namespace Propagation

theorem Laden.firstUip (h : p.Laden f p') (conflict : ClauseRef) :
    Alike (fun d d' => d' = d.rename f) (p.firstUip conflict) (p'.firstUip (f conflict)) := by
  refine (Analysis.resolve_alike h ⟨.empty, 0, [], 0, []⟩ conflict none).bind fun a a' e => ?_
  obtain rfl := e
  change Alike _ (if a.pending = 0 then _ else _) (if a.pending = 0 then _ else _)
  split
  · rfl
  · rw [h.trail.literals_eq]
    exact Analysis.walk_alike h a fun l hl => List.mem_reverse.1 hl

end Propagation

end ClauseLearning
