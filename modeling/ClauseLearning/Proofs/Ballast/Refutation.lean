/-
  Refutations of laden problems.

  Model. A refutation of a laden problem has the clauses and the reasons of the other one under
  their names. No link leads from a clause with a name to one without.

  Rule. `Laden.requirements`: the same clauses are required. `Laden.text_eq`: the explanations are
  word for word the same.
-/
import Mathlib.Data.List.Sort
import ClauseLearning.Refutation
import ClauseLearning.Proofs.Ballast.Clauses

namespace ClauseLearning

variable {f : ClauseRef → ClauseRef}

/-- Loops over a list and its image that give values and their images. -/
theorem Alike.mapM {ι ι' α α' : Type} {step : ι → Except Fault α} {step' : ι' → Except Fault α'}
    {g : ι → ι'} {k : α → α'} {is : List ι}
    (h : ∀ i ∈ is, Alike (fun a a' => a' = k a) (step i) (step' (g i))) :
    Alike (fun as as' => as' = as.map k) (is.mapM step) ((is.map g).mapM step') := by
  induction is with
  | nil => rfl
  | cons i is ih =>
    rw [List.map_cons, List.mapM_cons, List.mapM_cons]
    refine (h i (.head _)).bind fun a a' e => ?_
    refine (ih fun j hj => h j (.tail _ hj)).bind fun as as' es => ?_
    exact e ▸ es ▸ rfl

namespace Refutation

/-! ## Reasons -/

/-- The second table has the entries of the first one under new names. -/
structure RenamedReasons (f : ClauseRef → ClauseRef) (t t' : Table (Option ClauseRef)) : Prop where
  /-- The number of entries. -/
  size : t'.size = t.size
  /-- The entries. -/
  entries : ∀ k, t'.get? k = (t.get? k).map (Option.map f)

theorem RenamedReasons.enter {t t' : Table (Option ClauseRef)} (h : RenamedReasons f t t')
    (l : Lit) (reason : Option ClauseRef) :
    Alike (RenamedReasons f) (enterReason t (l, reason)) (enterReason t' (l, reason.map f)) := by
  obtain ⟨s, e, size, get⟩ := Table.set_yields (t.lt_size_grow l.code none) reason
  obtain ⟨s', e', size', get'⟩ :=
    Table.set_yields (t'.lt_size_grow l.code none) (reason.map f)
  rw [enterReason, enterReason, e, e']
  refine RenamedReasons.mk ?_ fun k => ?_
  · rw [size', size, Table.size_grow, Table.size_grow, h.size]
  · rw [get', get, Table.get?_grow, Table.get?_grow, h.size, h.entries]
    split
    · rfl
    · split
      · rfl
      · split <;> rfl

/-- The second refutation has the clauses and reasons of the first one under new names, and
    besides only clauses that are always true. -/
structure Laden (f : ClauseRef → ClauseRef) (w w' : Refutation) : Prop where
  /-- The clauses. -/
  clauses : w.clauses.Laden f w'.clauses
  /-- The reasons. -/
  reasons : RenamedReasons f w.reasons w'.reasons
  /-- The clause that is false at the root. -/
  conflicting : w'.conflicting = f w.conflicting
  /-- The clause learned from the conflict. -/
  learned? : w'.learned? = w.learned?.map f

theorem new_alike {s s' : ClauseStore} (h : s.Laden f s')
    (implied : List (Lit × Option ClauseRef)) (conflicting : ClauseRef) (learned : Option Clause) :
    Alike (Laden f) (new s implied conflicting learned)
      (new s' (implied.map fun x => (x.1, x.2.map f)) (f conflicting)
        (learned.map (Clause.rename f))) := by
  unfold new
  rw [List.foldlM_map]
  have empty : RenamedReasons f .empty .empty := ⟨rfl, fun k => by simp⟩
  refine (Alike.foldlM (fun t t' x _ h => h.enter x.1 x.2) empty).bind fun _ _ entered => ?_
  · cases learned with
    | none => exact ⟨h, entered, rfl, rfl⟩
    | some c => exact ⟨h.add c, entered, rfl, congrArg some h.name_size.symm⟩

/-! ## What is reached -/

/-- The clauses with a name are marked on both sides or on neither, the others are not marked. -/
structure MarkedAlike (f : ClauseRef → ClauseRef) (marked marked' : Array Bool) : Prop where
  /-- A clause with a name. -/
  named : ∀ r : ClauseRef, marked'[f r]? = marked[r]?
  /-- A clause without one. -/
  others : ∀ q : ClauseRef, marked'[q]? = some true → ∃ r, f r = q

namespace Laden

variable {w w' : Refutation}

theorem reasonAgainst? (h : w.Laden f w') (l : Lit) :
    w'.reasonAgainst? l = (w.reasonAgainst? l).map f := by
  rw [Refutation.reasonAgainst?, Refutation.reasonAgainst?, h.reasons.entries]
  cases w.reasons.get? (-l).code <;> rfl

theorem links (h : w.Laden f w') (c : Clause) : w'.links (c.rename f) = (w.links c).map f := by
  have reasons : w'.reasonAgainst? = fun l => (w.reasonAgainst? l).map f := funext h.reasonAgainst?
  rw [Refutation.links, Refutation.links, List.map_append, List.map_filterMap, reasons]
  refine congrArg (· ++ _) ?_
  cases e : c.learned <;> simp [Clause.rename, e]

theorem reach (h : w.Laden f w') (marked : Array Bool) (stack : List ClauseRef)
    {marked' : Array Bool} (marks : MarkedAlike f marked marked') :
    Alike (MarkedAlike f) (w.reach marked stack) (w'.reach marked' (stack.map f)) := by
  fun_induction Refutation.reach w marked stack generalizing marked' with
  | case1 marked =>
    rw [List.map_nil, Refutation.reach]
    exact marks
  | case2 marked r rest out =>
    rw [← marks.named] at out
    rw [List.map_cons, Refutation.reach]
    split
    · rfl
    · cases out.symm.trans ‹_›
    · cases out.symm.trans ‹_›
  | case3 marked r rest seen ih =>
    rw [← marks.named] at seen
    rw [List.map_cons, Refutation.reach]
    split
    · cases seen.symm.trans ‹_›
    · exact ih marks
    · cases seen.symm.trans ‹_›
  | case4 marked r rest new out =>
    rw [← marks.named] at new
    have out' : w'.clauses.get? (f r) = none := by rw [h.clauses.clause, out, Option.map_none]
    rw [List.map_cons, Refutation.reach, out']
    split
    · cases new.symm.trans ‹_›
    · cases new.symm.trans ‹_›
    · rfl
  | case5 marked r rest new c hc ih =>
    have here : r < marked.size := (Array.getElem?_eq_some_iff.1 new).1
    rw [← marks.named] at new
    have here' : f r < marked'.size := (Array.getElem?_eq_some_iff.1 new).1
    rw [List.map_cons, Refutation.reach, h.clauses.get? hc]
    split
    · cases new.symm.trans ‹_›
    · cases new.symm.trans ‹_›
    · dsimp only
      rw [h.links, ← List.map_append]
      refine ih ⟨fun q => ?_, fun q hq => ?_⟩
      · rw [Array.getElem?_setIfInBounds, Array.getElem?_setIfInBounds]
        by_cases e : r = q
        · rw [if_pos e, if_pos (congrArg f e), if_pos here, if_pos here']
        · rw [if_neg e, if_neg fun e' => e (h.clauses.mono.injective e'), marks.named]
      · rw [Array.getElem?_setIfInBounds] at hq
        split at hq
        · exact ⟨r, ‹_›⟩
        · exact marks.others q hq

/-- The same given clauses are required. -/
theorem requirements (h : w.Laden f w') (r : ClauseRef) :
    Alike (fun rs rs' => rs' = rs.map f) (w.requirements r) (w'.requirements (f r)) := by
  have start : MarkedAlike f (Array.replicate w.clauses.size false)
      (Array.replicate w'.clauses.size false) := by
    refine ⟨fun r => ?_, fun q hq => ?_⟩
    · simp only [Array.getElem?_replicate, h.clauses.name_lt_iff]
    · simp [Array.getElem?_replicate] at hq
  refine (h.reach _ [r] start).bind fun marked marked' marks => ?_
  have given : ∀ r, (w'.clauses.get? (f r)).any (fun c => !c.learned) =
      (w.clauses.get? r).any fun c => !c.learned := by
    intro r
    rw [h.clauses.clause]
    cases w.clauses.get? r <;> rfl
  refine List.Pairwise.eq_of_mem_iff (r := (· < ·)) (List.pairwise_lt_range.filter _)
    ((List.pairwise_lt_range.filter _).map f fun _ _ lt => h.clauses.mono lt) fun q => ?_
  simp only [List.mem_map, List.mem_filter, Bool.and_eq_true, beq_iff_eq]
  constructor
  · rintro ⟨inside, mark, rule⟩
    obtain ⟨r, rfl⟩ := marks.others q mark
    refine ⟨r, ⟨?_, marks.named r ▸ mark, given r ▸ rule⟩, rfl⟩
    exact List.mem_range.2 (h.clauses.name_lt_iff.1 (List.mem_range.1 inside))
  · rintro ⟨r, ⟨inside, mark, rule⟩, rfl⟩
    refine ⟨?_, (marks.named r).trans mark, (given r).trans rule⟩
    exact List.mem_range.2 (h.clauses.name_lt_iff.2 (List.mem_range.1 inside))

/-- The texts of the given clauses are the same. -/
theorem describe (h : w.Laden f w') (r : ClauseRef) :
    Alike (fun text text' => text' = id text) (do return (← w.clauses.read r).describe)
      (do return (← w'.clauses.read (f r)).describe) := by
  refine (h.clauses.read r).bind fun c c' hc => ?_
  rw [hc.2]
  rfl

theorem lines_eq (h : w.Laden f w') : w'.lines = w.lines := by
  have required := h.requirements w.conflicting
  rw [← h.conflicting] at required
  refine (Alike.eq_iff.1 (required.bind fun rs rs' e => ?_)).symm
  obtain rfl := e
  refine (Alike.mapM fun r _ => h.describe r).bind fun as as' e => ?_
  rw [e, List.map_id]
  rfl

/-- The explanations are the same. -/
theorem text_eq (h : w.Laden f w') : w'.text = w.text := by
  rw [text, text, h.lines_eq]

end Laden

end Refutation

end ClauseLearning
