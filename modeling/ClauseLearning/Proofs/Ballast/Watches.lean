/-
  States of propagation laden with clauses that are always true.

  Model. A state is laden when its clauses are (`ClauseStore.Laden`), when its trail has the reasons
  under their new names, and when every watch list has the watchers of the other state in their
  order, with others in between whose clauses have no name (`Interleaved`).

  Rule. The operations between visits are alike on such states: what is done to the clause `r` on
  the one side is done to `f r` on the other.
-/
import ClauseLearning.Proofs.Ballast.Clauses
import ClauseLearning.Proofs.Ballast.Trail
import ClauseLearning.Proofs.Propagation.Watches

namespace ClauseLearning

variable {f g : ClauseRef → ClauseRef}

/-- The watcher with a new name for its clause. -/
def Watcher.rename (f : ClauseRef → ClauseRef) (w : Watcher) : Watcher :=
  { w with clause := f w.clause }

/-- The second list has the watchers of the first one under new names, and others whose clauses
    have no name. -/
inductive Interleaved (f : ClauseRef → ClauseRef) : List Watcher → List Watcher → Prop where
  /-- The lists without watchers. -/
  | nil : Interleaved f [] []
  /-- A watcher that is in both lists. -/
  | both (w : Watcher) {ws ws' : List Watcher} (rest : Interleaved f ws ws') :
    Interleaved f (w :: ws) (w.rename f :: ws')
  /-- A watcher that is in the second list only. -/
  | extra (w : Watcher) {ws ws' : List Watcher} (new : ∀ r, f r ≠ w.clause)
    (rest : Interleaved f ws ws') : Interleaved f ws (w :: ws')

namespace Interleaved

variable {ws ws' xs xs' : List Watcher}

theorem append (h : Interleaved f ws ws') (h' : Interleaved f xs xs') :
    Interleaved f (ws ++ xs) (ws' ++ xs') := by
  induction h with
  | nil => exact h'
  | both w rest ih => exact .both w ih
  | extra w new rest ih => exact .extra w new ih

theorem single (w : Watcher) : Interleaved f [w] [w.rename f] := .both w .nil

theorem extras (new : ∀ w ∈ xs, ∀ r, f r ≠ w.clause) : Interleaved f [] xs := by
  induction xs with
  | nil => exact .nil
  | cons w xs ih => exact .extra w (new w (.head _)) (ih fun x hx => new x (.tail _ hx))

/-- The names may be others as long as they are the same for the watchers of the first list and
    are not given to those that are in the second list only. -/
theorem congr (h : Interleaved f ws ws') (same : ∀ w ∈ ws, g w.clause = f w.clause)
    (new : ∀ w ∈ ws', (∀ r, f r ≠ w.clause) → ∀ r, g r ≠ w.clause) : Interleaved g ws ws' := by
  induction h with
  | nil => exact .nil
  | both w rest ih =>
    have e : w.rename f = w.rename g := by rw [Watcher.rename, Watcher.rename, same w (.head _)]
    exact e ▸ .both w (ih (fun x hx => same x (.tail _ hx)) fun x hx => new x (.tail _ hx))
  | extra w none rest ih =>
    exact .extra w (new w (.head _) none) (ih same fun x hx => new x (.tail _ hx))

end Interleaved

namespace Propagation

/-- The second state is the first one laden with clauses that are always true. -/
structure Laden (f : ClauseRef → ClauseRef) (p p' : Propagation) : Prop where
  /-- The trails. -/
  trail : p.trail.Renamed f p'.trail
  /-- The clauses. -/
  clauses : p.clauses.Laden f p'.clauses
  /-- The number of watch lists. -/
  size : p'.watches.size = p.watches.size
  /-- The watch lists. -/
  lists : ∀ l, Interleaved f (p.watchers l) (p'.watchers l)
  /-- The place of the queue on the trail. -/
  next : p'.next = p.next

/-- The second result has the clause of the first one under its new name, and a laden state. -/
def LadenWith (f : ClauseRef → ClauseRef) (x x' : Option ClauseRef × Propagation) : Prop :=
  x'.1 = x.1.map f ∧ x.2.Laden f x'.2

theorem laden_empty : empty.Laden id empty where
  trail := Trail.renamed_empty
  clauses := ClauseStore.laden_empty
  size := rfl
  lists l := by
    rw [show empty.watchers l = [] by simp [watchers, empty]]
    exact .nil
  next := rfl

namespace Laden

variable {p p' : Propagation}

theorem withTrail (h : p.Laden f p') {t t' : Trail} (trail : t.Renamed f t') :
    Laden f { p with trail := t } { p' with trail := t' } :=
  ⟨trail, h.clauses, h.size, h.lists, h.next⟩

theorem withClauses (h : p.Laden f p') {s s' : ClauseStore} (clauses : s.Laden f s') :
    Laden f { p with clauses := s } { p' with clauses := s' } :=
  ⟨h.trail, clauses, h.size, h.lists, h.next⟩

theorem withNext (h : p.Laden f p') (n : Nat) :
    Laden f { p with next := n } { p' with next := n } :=
  ⟨h.trail, h.clauses, h.size, h.lists, rfl⟩

theorem growWatches (h : p.Laden f p') (v : Var) :
    (p.growWatches v).Laden f (p'.growWatches v) := by
  refine ⟨h.trail, h.clauses, ?_, fun l => ?_, h.next⟩
  · change (p'.watches.grow _ _).size = (p.watches.grow _ _).size
    rw [Table.size_grow, Table.size_grow, h.size]
  · rw [watchers_growWatches, watchers_growWatches]
    exact h.lists l

theorem growAll (h : p.Laden f p') (ls : List Lit) :
    (ls.foldl (fun p l => p.growWatches l.var) p).Laden f
      (ls.foldl (fun p l => p.growWatches l.var) p') := by
  induction ls generalizing p p' with
  | nil => exact h
  | cons l ls ih => exact ih (h.growWatches l.var)

theorem register (h : p.Laden f p') (v : Var) :
    Alike (Laden f) (p.register v) (p'.register v) :=
  (h.trail.register v).bind fun _ _ trail => (h.withTrail trail).growWatches v

theorem enqueue (h : p.Laden f p') (l : Lit) (reason : Option ClauseRef) :
    Alike (Beside (Laden f)) (p.enqueue l reason) (p'.enqueue l (reason.map f)) :=
  (h.trail.enqueue l reason).bind fun _ _ ⟨agrees, trail⟩ => ⟨agrees, h.withTrail trail⟩

theorem arrange (h : p.Laden f p') (r : ClauseRef) (ls : List Lit) :
    Alike (Laden f) (p.arrange r ls) (p'.arrange (f r) ls) :=
  (h.clauses.arrange r ls).bind fun _ _ clauses => h.withClauses clauses

theorem addWatcher (h : p.Laden f p') (l : Lit) (w : Watcher) :
    Alike (Laden f) (p.addWatcher l w) (p'.addWatcher l (w.rename f)) := by
  by_cases room : l.code < p.watches.size
  · obtain ⟨_, e, ws, rfl, size, lists⟩ := addWatcher_yields room w
    obtain ⟨_, e', ws', rfl, size', lists'⟩ :=
      addWatcher_yields (p := p') (h.size ▸ room) (w.rename f)
    rw [e, e']
    refine Laden.mk h.trail h.clauses (size'.trans (h.size.trans size.symm)) (fun k => ?_) h.next
    rw [lists, lists']
    split
    · exact (h.lists l).append (.single w)
    · exact h.lists k
  · have e : p.addWatcher l w = .error .outOfRange := by
      rw [Propagation.addWatcher, Table.update, if_neg room]
      rfl
    have e' : p'.addWatcher l (w.rename f) = .error .outOfRange := by
      rw [Propagation.addWatcher, Table.update, if_neg (h.size ▸ room)]
      rfl
    rw [e, e']
    rfl

theorem takeWatchers (h : p.Laden f p') (t : Lit) :
    Alike (fun x x' => Interleaved f x.1.toList x'.1.toList ∧ x.2.Laden f x'.2)
      (p.takeWatchers t) (p'.takeWatchers t) := by
  by_cases room : t.code < p.watches.size
  · obtain ⟨⟨list, _⟩, e, taken, ws, rfl, size, lists⟩ := takeWatchers_yields room
    obtain ⟨⟨list', _⟩, e', taken', ws', rfl, size', lists'⟩ :=
      takeWatchers_yields (p := p') (h.size ▸ room)
    rw [e, e']
    refine And.intro (taken ▸ taken' ▸ h.lists t) ?_
    refine Laden.mk h.trail h.clauses (size'.trans (h.size.trans size.symm)) (fun k => ?_) h.next
    rw [lists, lists']
    split
    · exact .nil
    · exact h.lists k
  · have none := Table.get?_eq_none_iff.2 (Nat.le_of_not_lt room)
    have none' := Table.get?_eq_none_iff.2 (Nat.le_of_not_lt (h.size ▸ room))
    rw [Propagation.takeWatchers, Propagation.takeWatchers, Table.read, Table.read, none, none']
    rfl

theorem putWatchers (h : p.Laden f p') (t : Lit) {list list' : Array Watcher}
    (new : Interleaved f list.toList list'.toList) :
    Alike (Laden f) (p.putWatchers t list) (p'.putWatchers t list') := by
  by_cases room : t.code < p.watches.size
  · obtain ⟨_, e, ws, rfl, size, lists⟩ := putWatchers_yields room list
    obtain ⟨_, e', ws', rfl, size', lists'⟩ :=
      putWatchers_yields (p := p') (h.size ▸ room) list'
    rw [e, e']
    refine Laden.mk h.trail h.clauses (size'.trans (h.size.trans size.symm)) (fun k => ?_) h.next
    rw [lists, lists']
    split
    · exact new
    · exact h.lists k
  · rw [Propagation.putWatchers, Propagation.putWatchers, Table.set, Table.set, if_neg room,
      if_neg (h.size ▸ room)]
    rfl

theorem attach (h : p.Laden f p') (r : ClauseRef) :
    Alike (Laden f) (p.attach r) (p'.attach (f r)) := by
  refine (h.clauses.read r).bind fun c c' hc => ?_
  obtain ⟨-, rfl⟩ := hc
  rw [Clause.literals_rename]
  rcases c.literals with _ | ⟨a, _ | ⟨b, rest⟩⟩
  · rfl
  · rfl
  · exact (h.addWatcher (-a) ⟨b, r⟩).bind fun _ _ h => h.addWatcher (-b) ⟨a, r⟩

/-- A clause that is kept on both sides gets its name. -/
theorem keep (h : p.Laden f p') (c : Clause) :
    (p'.keep (c.rename f)).1 = f (p.keep c).1 ∧ (p.keep c).2.Laden f (p'.keep (c.rename f)).2 :=
  ⟨h.clauses.name_size.symm, h.withClauses (h.clauses.add c)⟩

end Laden

end Propagation

end ClauseLearning
