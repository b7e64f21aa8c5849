/-
  Trails whose levels begin with decisions.

  Model. On the trail of a search the levels begin at different places, each with the literal that
  was decided on, and these literals are the ones without a reason. So at the root every literal
  has a reason.

  Rule. `Decided.enqueue` appends a forced literal, `Decided.assume` opens a level with a decision,
  and `Decided.backtracks` goes back.
-/
import Mathlib.Data.List.Perm.Subperm
import ClauseLearning.Proofs.Trail.Cut

namespace ClauseLearning.Trail

/-- A valid trail on which exactly the first literal of every level above the root was decided. -/
structure Decided (t : Trail) : Prop extends Valid t where
  /-- No two levels begin at the same place. -/
  strict : t.limits.Pairwise (· < ·)
  /-- Every level has a literal. -/
  begun : ∀ n ∈ t.limits, n < t.length
  /-- The literals without a reason are the first ones of their levels. -/
  reason_iff : ∀ i l, t.literals[i]? = some l → (t.reasonOf l.var = none ↔ i ∈ t.limits)

theorem decided_empty : empty.Decided where
  toValid := valid_empty
  strict := by simp [limits, empty, LevelStack.empty]
  begun := by simp [limits, empty, LevelStack.empty]
  reason_iff i l h := by simp [literals, empty, LevelStack.empty, LevelStack.toList] at h

/-- The second trail is the first one with a further level that begins with the literal. -/
structure Opens (t t' : Trail) (l : Lit) : Prop where
  /-- The literal comes to the end. -/
  literals : t'.literals = t.literals ++ [l]
  /-- A level begins there. -/
  limits : t'.limits = t.limits ++ [t.length]
  /-- No variable comes or goes. -/
  knows : ∀ v, t'.Knows v ↔ t.Knows v
  /-- The literals keep their causes. -/
  causes : ∀ k ∈ t.literals, t'.causeAt k.var = t.causeAt k.var

namespace Decided

variable {t t' : Trail} {l : Lit}

/-- There are at least as many literals as levels. -/
theorem level_le (h : t.Decided) : t.level ≤ t.length := by
  rw [← length_limits]
  have distinct : t.limits.Nodup := h.strict.imp Nat.ne_of_lt
  have sub := distinct.subperm fun n hn => List.mem_range.2 (h.begun n hn)
  simpa using sub.length_le

theorem register (h : t.Decided) (v : Var) :
    Yields (t.register v) fun t' =>
      t'.Decided ∧ t'.literals = t.literals ∧ t'.limits = t.limits ∧
        (∀ w, t'.Knows w ↔ w = v ∨ t.Knows w) ∧ t'.causeAt = t.causeAt := by
  refine (register_valid h.toValid v).mono fun t' ⟨valid, literals, limits, knows, cause⟩ => ?_
  refine ⟨⟨valid, limits ▸ h.strict, fun n hn => ?_, fun i l hl => ?_⟩,
    literals, limits, knows, cause⟩
  · rw [← length_literals, literals, length_literals]
    exact h.begun n (limits ▸ hn)
  · rw [reasonOf, cause, limits]
    exact h.reason_iff i l (literals ▸ hl)

/-- The reasons after a literal has come to the end of the trail. -/
theorem reason_of_append {level : Nat} {reason : Option ClauseRef} {k : Lit}
    (hl : l ∉ t.literals) (hn : -l ∉ t.literals) (literals : t'.literals = t.literals ++ [l])
    (cause : ∀ v, t'.causeAt v = if v = l.var then ⟨level, reason⟩ else t.causeAt v) {i : Nat}
    (hk : t'.literals[i]? = some k) :
    t.literals[i]? = some k ∧ t'.reasonOf k.var = t.reasonOf k.var ∨
      i = t.length ∧ k = l ∧ t'.reasonOf k.var = reason := by
  rw [literals, List.getElem?_append] at hk
  split at hk
  · refine .inl ⟨hk, ?_⟩
    have old := List.mem_of_getElem? hk
    rw [reasonOf, cause, if_neg, reasonOf]
    intro e
    rcases Lit.eq_of_var_eq e with rfl | rfl
    · exact hl old
    · exact hn old
  · rename_i ge
    rw [length_literals] at hk ge
    obtain rfl : k = l := by simpa using List.mem_of_getElem? hk
    have place := (List.getElem?_eq_some_iff.1 hk).1
    rw [List.length_singleton] at place
    refine .inr ⟨by omega, rfl, ?_⟩
    rw [reasonOf, cause, if_pos rfl]

/-- A literal without a value comes to the end of the trail, forced by a clause. -/
theorem enqueue (h : t.Decided) (known : t.Knows l.var) (hl : l ∉ t.literals)
    (hn : -l ∉ t.literals) (r : ClauseRef) :
    Yields (t.enqueue l (some r)) fun x =>
      x.1 = true ∧ x.2.Decided ∧ t.Extends x.2 ∧ x.2.literals = t.literals ++ [l] ∧
        ∀ v, x.2.causeAt v = if v = l.var then ⟨t.level, some r⟩ else t.causeAt v := by
  refine (enqueue_yields h.toValid known hl hn (some r)).mono
    fun ⟨agrees, t'⟩ ⟨yes, valid, ext, literals, cause⟩ => ?_
  refine ⟨yes, ⟨valid, ext.limits ▸ h.strict, fun n hn => ?_, fun i k hk => ?_⟩, ext, literals,
    cause⟩
  · rw [ext.limits] at hn
    exact Nat.lt_of_lt_of_le (h.begun n hn) ext.length_le
  · rw [ext.limits]
    rcases reason_of_append hl hn literals cause hk with ⟨old, e⟩ | ⟨rfl, rfl, e⟩
    · rw [e]
      exact h.reason_iff i k old
    · rw [e]
      have : t.length ∉ t.limits := fun h' => Nat.lt_irrefl _ (h.begun _ h')
      simp [this]

/-- A level is opened with a literal without a value. -/
theorem assume (h : t.Decided) (known : t.Knows l.var) (hl : l ∉ t.literals)
    (hn : -l ∉ t.literals) :
    Yields (t.openLevel.enqueue l none) fun x =>
      x.2.Decided ∧ x.2.literals = t.literals ++ [l] ∧ x.2.limits = t.limits ++ [t.length] ∧
        (∀ v, x.2.Knows v ↔ t.Knows v) ∧
        ∀ v, x.2.causeAt v = if v = l.var then ⟨t.level + 1, none⟩ else t.causeAt v := by
  refine (enqueue_yields (valid_openLevel h.toValid) known hl hn none).mono
    fun ⟨agrees, t'⟩ ⟨_, valid, ext, literals, cause⟩ => ?_
  have limits : t'.limits = t.limits ++ [t.length] := by rw [ext.limits, limits_openLevel]
  have size : t'.length = t.length + 1 := by
    rw [← length_literals, literals, List.length_append, length_literals]
    rfl
  rw [level_openLevel] at cause
  refine ⟨⟨valid, ?_, fun n hn => ?_, fun i k hk => ?_⟩, literals, limits, ext.knows, cause⟩
  · rw [limits, List.pairwise_append]
    refine ⟨h.strict, by simp, fun n hn m hm => ?_⟩
    rw [List.mem_singleton.1 hm]
    exact h.begun n hn
  · rw [limits, List.mem_append, List.mem_singleton] at hn
    rw [size]
    rcases hn with hn | rfl
    · exact Nat.lt_succ_of_lt (h.begun n hn)
    · exact Nat.lt_succ_self _
  · rw [limits, List.mem_append, List.mem_singleton]
    rcases reason_of_append (t := t.openLevel) hl hn literals cause hk with
      ⟨old, e⟩ | ⟨e, rfl, none⟩
    · have place := (List.getElem?_eq_some_iff.1 old).1
      have inside : i ≠ t.length := by
        rw [length_literals] at place
        exact Nat.ne_of_lt place
      rw [e, or_iff_left inside]
      exact h.reason_iff i k old
    · rw [none]
      exact ⟨fun _ => .inr e, fun _ => rfl⟩

/-- Consuming the changes of the assignment changes nothing else. -/
theorem consume (h : t.Decided) : t.consume.Decided := by
  obtain ⟨assignment, causes, entries⟩ := t
  exact ⟨⟨⟨⟨h.counted.assigned, h.counted.known⟩, h.value_iff, h.nodup, h.room⟩, h.sorted,
    h.limit_le, h.level_eq⟩, h.strict, h.begun, h.reason_iff⟩

theorem startOf_mem {k : Nat} (hk : k < t.level) : t.startOf k ∈ t.limits := by
  rw [← length_limits] at hk
  rw [startOf, List.getElem?_eq_getElem hk]
  exact List.getElem_mem hk

/-- Going back leaves the levels that begin with decisions. -/
theorem backtracks {k : Nat} (h : t.Decided) (back : t.Backtracks t' k) (valid : t'.Valid) :
    t'.Decided where
  toValid := valid
  strict := by
    rw [back.limits]
    exact h.strict.sublist (List.take_sublist ..)
  begun n hn := by
    rw [back.limits] at hn
    rw [back.length h.toValid, startOf]
    cases e : t.limits[k]? with
    | none => exact h.begun n (List.mem_of_mem_take hn)
    | some x =>
      obtain ⟨i, hi, rfl⟩ := List.mem_take_iff_getElem.1 hn
      obtain ⟨hk, rfl⟩ := List.getElem?_eq_some_iff.1 e
      exact List.pairwise_iff_getElem.1 h.strict i k (by omega) hk (by omega)
  reason_iff i l hl := by
    obtain ⟨lt, old⟩ := back.getElem? hl
    rw [reasonOf, back.cause_of_mem h.toCoherent (List.mem_of_getElem? hl), back.limits]
    refine (h.reason_iff i l old).trans ⟨fun hi => ?_, List.mem_of_mem_take⟩
    obtain ⟨j, hj, rfl⟩ := List.mem_iff_getElem.1 hi
    refine List.mem_take_iff_getElem.2 ⟨j, ?_, rfl⟩
    rcases Nat.lt_or_ge j k with hjk | hjk
    · omega
    · -- levels from `k` on begin behind the cut
      have : t.startOf k ≤ t.startOf j := h.startOf_mono hjk
      rw [startOf.eq_def t j, List.getElem?_eq_getElem hj, Option.getD_some] at this
      omega

end Decided

end ClauseLearning.Trail
