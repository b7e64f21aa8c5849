/-
  Clauses that are kept on laden states.

  Rule. A clause is taken into account alike when it is kept on both sides (`Laden.addKept`). One
  that is always true is kept on the second side only: at the root it is watched and nothing else
  happens, and the states are laden again under names that leave its reference out
  (`Laden.ballast`).
-/
import ClauseLearning.Proofs.Ballast.Visits
import ClauseLearning.Proofs.Propagation.Admit

namespace ClauseLearning.Propagation

variable {f : ClauseRef → ClauseRef} {p p' : Propagation} {r : ClauseRef} {c : Clause} {n : Nat}

/-! ## On both sides -/

namespace Laden

theorem addKept (h : p.Laden f p') (r : ClauseRef) :
    Alike (LadenWith f) (p.addKept r) (p'.addKept (f r)) := by
  refine (h.clauses.read r).bind fun c c' hc => ?_
  obtain ⟨-, rfl⟩ := hc
  have grown := h.growAll
  rw [Clause.literals_rename]
  rcases c.literals with _ | ⟨x, _ | ⟨y, more⟩⟩
  · exact ⟨rfl, grown []⟩
  · refine ((grown [x]).enqueue x (some r)).bind ?_
    rintro ⟨agrees, q⟩ ⟨_, q'⟩ ⟨rfl, h⟩
    refine And.intro ?_ h
    cases agrees <;> rfl
  · dsimp only
    rw [(grown (x :: y :: more)).trail.isFalse_eq]
    refine ((grown (x :: y :: more)).arrange r _).bind fun q q' h => ?_
    rcases Clause.nonFalseFirst _ (x :: y :: more) with _ | ⟨a, _ | ⟨b, rest⟩⟩
    · rfl
    · rfl
    · dsimp only
      rw [h.trail.isFalse_eq, h.trail.isOpen_eq]
      split
      · exact ⟨rfl, h⟩
      · split
        · refine (h.enqueue a (some r)).bind fun _ _ enqueued => ?_
          exact (enqueued.2.attach r).bind fun _ _ h => ⟨rfl, h⟩
        · exact (h.attach r).bind fun _ _ h => ⟨rfl, h⟩

/-- A learned clause is kept on both sides and gets its name. -/
theorem learn (h : p.Laden f p') (c : Clause) :
    Alike (fun x x' => x'.1 = f x.1 ∧ x.2.Laden f x'.2) (p.learn c) (p'.learn (c.rename f)) := by
  obtain ⟨name, kept⟩ := h.keep c
  unfold Propagation.learn
  change Alike _ (if 2 ≤ c.length then _ else _) (if 2 ≤ c.length then _ else _)
  split
  · have attached := kept.attach (p.keep c).1
    rw [← name] at attached
    exact attached.bind fun _ _ h => ⟨name, h⟩
  · exact ⟨name, kept⟩

theorem cancelUntil (h : p.Laden f p') (k : Nat) :
    Alike (Laden f) (p.cancelUntil k) (p'.cancelUntil k) := by
  refine (h.trail.cancelUntil k).bind fun t t' trail => ?_
  have back := (h.withTrail trail).withNext (min p.next t.length)
  change Laden f { p with trail := t, next := min p.next t.length }
    { p' with trail := t', next := min p'.next t'.length }
  rwa [h.next, trail.length_eq]

end Laden

/-! ## A clause that is always true -/

/-- Watch lists there is room for are not made. -/
theorem Grounded.growAll_eq (h : p.Grounded) {ls : List Lit}
    (known : ∀ l ∈ ls, p.trail.Knows l.var) : ls.foldl (fun p l => p.growWatches l.var) p = p := by
  induction ls with
  | nil => rfl
  | cons l ls ih =>
    have same : p.growWatches l.var = p := by
      have room := h.room l.var (known l (.head _))
      obtain ⟨trail, clauses, watches, next⟩ := p
      rw [Propagation.growWatches, Table.grow, if_pos room]
    rw [List.foldl_cons, same]
    exact ih fun k hk => known k (.tail _ hk)

theorem attach_stirs {a b : Lit} {rest : List Lit} (hc : p.clauses.get? r = some c)
    (e : c.literals = a :: b :: rest) (ha : (-a).code < p.watches.size)
    (hb : (-b).code < p.watches.size) : Yields (p.attach r) (Stirs r p) := by
  unfold attach
  rw [ClauseStore.read_eq hc]
  refine .ok_bind ?_
  rw [e]
  refine (addWatcher_stirs ha ⟨b, r⟩).bind fun q stirs => ?_
  exact (addWatcher_stirs (stirs.size ▸ hb) ⟨a, r⟩).mono fun q' stirs' => stirs.trans stirs'

/-- A clause that is always true is watched; it forces nothing and is not in conflict. -/
theorem addKept_stirs (h : p.Grounded) (hc : p.clauses.get? r = some c) (always : c.HoldsAlways) :
    Yields (p.addKept r) fun x => x.1 = none ∧ Stirs r p x.2 := by
  have falsified := always.not_falsified h.trail.toCoherent
  unfold addKept
  rw [ClauseStore.read_eq hc]
  refine .ok_bind ?_
  dsimp only
  rw [h.growAll_eq (h.known r c hc)]
  match e : c.literals with
  | [] => exact absurd (by simp [e]) falsified
  | [l] =>
    obtain ⟨k, hk, hn⟩ := always
    rw [e, List.mem_singleton] at hk hn
    exact absurd (hn.trans hk.symm) (Lit.neg_ne_self k)
  | x :: y :: more =>
    have perm : (Clause.nonFalseFirst p.trail.isFalse (x :: y :: more)).Perm c.literals :=
      e ▸ Clause.nonFalseFirst_perm ..
    obtain ⟨a, b, rest, front⟩ : ∃ a b rest,
        Clause.nonFalseFirst p.trail.isFalse (x :: y :: more) = a :: b :: rest := by
      match Clause.nonFalseFirst p.trail.isFalse (x :: y :: more), e ▸ perm.length_eq with
      | a :: b :: rest, _ => exact ⟨a, b, rest, rfl⟩
    refine (arrange_stirs hc perm).bind fun q ⟨stirs, hq⟩ => ?_
    rw [front] at perm hq ⊢
    dsimp only
    rw [stirs.trail]
    split
    · rename_i falseA
      refine absurd (fun k hk => ?_) falsified
      rw [← h.trail.isFalse_iff]
      rcases List.mem_cons.1 (perm.mem_iff.2 hk) with rfl | hk
      · exact falseA
      · exact Clause.nonFalseFirst_sorted (front.trans (List.nil_append _).symm) falseA hk
    · split
      · rename_i forced
        rw [Bool.and_eq_true, h.trail.isOpen_iff] at forced
        refine absurd (always.mem_of_others h.trail.toCoherent fun k hk ne => ?_) forced.2.1
        rw [← h.trail.isFalse_iff]
        rcases List.mem_cons.1 (perm.mem_iff.2 hk) with rfl | hk
        · exact absurd rfl ne
        · rcases List.mem_cons.1 hk with rfl | hk
          · exact forced.1
          · have split : a :: b :: rest = [a] ++ b :: rest := rfl
            exact Clause.nonFalseFirst_sorted (front.trans split) forced.1 hk
      · have room : ∀ l ∈ a :: b :: rest, (-l).code < q.watches.size := fun l hl =>
          stirs.size ▸ h.watched (h.known r c hc l (perm.mem_iff.1 hl)) rfl
        refine (attach_stirs hq rfl (room a (by simp)) (room b (by simp))).bind fun q' stirs' => ?_
        exact .pure ⟨rfl, stirs.trans stirs'⟩

/-- A clause that is always true is kept on the second side only. Of the names only those of the
    clauses to come change. -/
theorem Laden.ballast (h : p.Laden f p') (watchful : p.Watchful none n)
    (derived : p.clauses.Derived) (watchful' : p'.Watchful none p'.next)
    (nodup : c.literals.Nodup) (known : ∀ l ∈ c.literals, p'.trail.Knows l.var)
    (always : c.HoldsAlways) :
    Yields ((p'.keep c).2.addKept p'.clauses.size) fun x =>
      x.1 = none ∧ p.Laden (ClauseRef.skipping p.clauses.size f) x.2 := by
  have hc : (p'.keep c).2.clauses.get? p'.clauses.size = some c := ClauseStore.get?_add_self ..
  have same : ∀ r, r < p.clauses.size → ClauseRef.skipping p.clauses.size f r = f r :=
    fun r lt => if_pos lt
  have kept : p.Laden (ClauseRef.skipping p.clauses.size f) (p'.keep c).2 := by
    refine ⟨h.trail.congr fun l hl r reason => ?_, h.clauses.ballast always ?_, h.size,
      fun l => (h.lists l).congr (fun w hw => ?_) fun w hw new q => ?_, h.next⟩
    · obtain ⟨i, hi⟩ := List.getElem?_of_mem hl
      obtain ⟨d, hd, -⟩ := watchful.forced i l r hi reason
      exact same r (ClauseStore.lt_size_of_get? hd)
    · intro r d hd learned a ha
      exact Nat.lt_trans ((derived r d hd learned).1 a ha) (ClauseStore.lt_size_of_get? hd)
    · obtain ⟨-, d, _, _, _, hd, -⟩ := watchful.indexes.watched hw
      exact same _ (ClauseStore.lt_size_of_get? hd)
    · intro e
      obtain ⟨-, d, _, _, _, hd, -⟩ := watchful'.indexes.watched hw
      have le := Nat.le_of_lt (ClauseStore.lt_size_of_get? hd)
      exact new q (h.clauses.eq_of_skipping e le).2
  refine (addKept_stirs (watchful'.toGrounded.keep nodup known) hc always).mono ?_
  rintro ⟨_, q⟩ ⟨rfl, stirs⟩
  refine ⟨rfl, kept.stir stirs fun r e => ?_⟩
  obtain ⟨lt, e'⟩ := h.clauses.eq_of_skipping e (Nat.le_refl _)
  exact Nat.ne_of_lt lt (h.clauses.name_eq_size_iff.1 e')

end ClauseLearning.Propagation
