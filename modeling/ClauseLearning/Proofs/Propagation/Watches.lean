/-
  Watch lists as an index.

  Model. A kept clause with two literals is watched through its first two, all but one clause
  that may be bare: the one that is just being added, or that was false when it was added. The
  watch lists index the clauses when the list of a literal has exactly one watcher for every
  clause watched through its negation, and the literal cached in a watcher is another one of the
  clause (`Indexes`). The lists are given as a function, so that the index can also be stated
  while one of them is being visited.

  Rule. The operations on watch lists are stated by what they do to the lists (`watchers`):
  `addWatcher_yields`, `takeWatchers_yields`, `putWatchers_yields`, `attach_appends`.
-/
import Mathlib.Data.List.Nodup
import ClauseLearning.Propagation
import ClauseLearning.Proofs.Clause.Kept

namespace ClauseLearning

theorem Lit.code_le (l : Lit) : l.code ≤ Lit.code ⟨l.var, true⟩ := by
  have := l.positive.toNat_le
  simp only [Lit.code, Bool.toNat_true]
  omega

theorem Lit.neg_eq_iff {l k : Lit} : -l = k ↔ l = -k := by
  constructor
  · rintro rfl
    exact (Lit.neg_neg l).symm
  · rintro rfl
    exact Lit.neg_neg k

namespace ClauseStore

/-- The clause `r`, unless it is the bare one, is watched through the literal `l`. -/
def Watches (s : ClauseStore) (bare : Option ClauseRef) (r : ClauseRef) (l : Lit) : Prop :=
  bare ≠ some r ∧
    ∃ c a b rest, s.get? r = some c ∧ c.literals = a :: b :: rest ∧ (l = a ∨ l = b)

variable {s : ClauseStore} {bare : Option ClauseRef} {r q : ClauseRef} {l : Lit}

theorem Watches.mem (h : s.Watches bare r l) {c : Clause} (hc : s.get? r = some c) :
    l ∈ c.literals := by
  obtain ⟨-, d, a, b, rest, hd, e, hl⟩ := h
  cases hd.symm.trans hc
  rw [e]
  rcases hl with rfl | rfl <;> simp

theorem watches_iff {c : Clause} {a b : Lit} {rest : List Lit} (hc : s.get? r = some c)
    (e : c.literals = a :: b :: rest) :
    s.Watches bare r l ↔ bare ≠ some r ∧ (l = a ∨ l = b) := by
  constructor
  · rintro ⟨hr, d, a', b', rest', hd, e', hl⟩
    cases hd.symm.trans hc
    cases e.symm.trans e'
    exact ⟨hr, hl⟩
  · rintro ⟨hr, hl⟩
    exact ⟨hr, c, a, b, rest, hc, e, hl⟩

/-- Whether a clause is watched depends on that clause only. -/
theorem watches_congr {s' : ClauseStore} (h : s'.get? r = s.get? r) :
    s'.Watches bare r l ↔ s.Watches bare r l := by
  rw [Watches, Watches, h]

theorem not_watches_of_short {c : Clause} (hc : s.get? r = some c) (short : c.length < 2) :
    ¬ s.Watches bare r l := by
  rintro ⟨-, d, a, b, rest, hd, e, -⟩
  cases hd.symm.trans hc
  rw [Clause.length, e, List.length_cons, List.length_cons] at short
  omega

/-- A clause that is kept is bare at first, and the others are watched as before. -/
theorem watches_add (c : Clause) :
    (s.add c).2.Watches (some s.size) r l ↔ s.Watches none r l := by
  constructor
  · rintro ⟨hr, d, a, b, rest, hd, e, hl⟩
    rw [get?_add, if_neg fun h => hr (by rw [h])] at hd
    exact ⟨by simp, d, a, b, rest, hd, e, hl⟩
  · rintro ⟨-, d, a, b, rest, hd, e, hl⟩
    have := Nat.ne_of_lt (lt_size_of_get? hd)
    refine ⟨fun h => this (Option.some.inj h).symm, d, a, b, rest, ?_, e, hl⟩
    exact get?_add_of_get? hd c

/-- What the list of `l` gets when the clause `r` is watched through `a` and `b`: each of the two
    watchers caches the other literal. -/
def pairWatchers (r : ClauseRef) (a b l : Lit) : List Watcher :=
  (if l = -a then [⟨b, r⟩] else []) ++ if l = -b then [⟨a, r⟩] else []

theorem mem_pairWatchers {a b : Lit} {w : Watcher} (h : w ∈ pairWatchers r a b l) :
    l = -a ∧ w = ⟨b, r⟩ ∨ l = -b ∧ w = ⟨a, r⟩ := by
  rw [pairWatchers, List.mem_append] at h
  rcases h with h | h
  · split at h
    · exact .inl ⟨‹_›, List.mem_singleton.1 h⟩
    · cases h
  · split at h
    · exact .inr ⟨‹_›, List.mem_singleton.1 h⟩
    · cases h

theorem clause_pairWatchers {a b : Lit} (hab : a ≠ b) (r : ClauseRef) (l : Lit) :
    (pairWatchers r a b l).map Watcher.clause = if l = -a ∨ l = -b then [r] else [] := by
  have apart : -b ≠ -a := fun h => hab (Lit.neg_inj h).symm
  unfold pairWatchers
  by_cases hla : l = -a
  · have hlb : l ≠ -b := fun h => apart (h.symm.trans hla)
    rw [if_pos hla, if_neg hlb, if_pos (.inl hla)]
    rfl
  · by_cases hlb : l = -b <;> simp [hla, hlb, apart]

/-- The lists have exactly one watcher for every literal through which a clause is watched. -/
structure Indexes (s : ClauseStore) (bare : Option ClauseRef) (lists : Lit → List Watcher) :
    Prop where
  /-- No list has two watchers of a clause. -/
  once : ∀ l, ((lists l).map Watcher.clause).Nodup
  /-- A list has a watcher of the clauses watched through the negation of its literal. -/
  mem_iff : ∀ l r, r ∈ (lists l).map Watcher.clause ↔ s.Watches bare r (-l)
  /-- A watcher has cached another literal of its clause. -/
  cached : ∀ l, ∀ w ∈ lists l, ∀ c, s.get? w.clause = some c →
    w.cached ∈ c.literals ∧ w.cached ≠ -l

namespace Indexes

variable {s' : ClauseStore} {lists lists' : Lit → List Watcher}

/-- The clause of a watcher, with the watched literal as one of the first two. -/
theorem watched (h : s.Indexes bare lists) {l : Lit} {w : Watcher} (hw : w ∈ lists l) :
    s.Watches bare w.clause (-l) :=
  (h.mem_iff l _).1 (List.mem_map_of_mem hw)

/-- The index lasts when the clauses are watched as before and the lists have watchers of the
    same clauses. -/
theorem congr (h : s.Indexes bare lists) (rearranges : s'.Rearranges s)
    (watches : ∀ r l, s'.Watches bare r l ↔ s.Watches bare r l)
    (same : ∀ l, (lists' l).map Watcher.clause = (lists l).map Watcher.clause)
    (cached : ∀ l, ∀ w ∈ lists' l, w ∈ lists l ∨
      ∀ c, s.get? w.clause = some c → w.cached ∈ c.literals ∧ w.cached ≠ -l) :
    s'.Indexes bare lists' where
  once l := same l ▸ h.once l
  mem_iff l r := by rw [same l, h.mem_iff, watches]
  cached l w hw c hc := by
    obtain ⟨d, hd, e⟩ := rearranges.origin hc
    rw [e.mem_iff]
    rcases cached l w hw with old | new
    · exact h.cached l w old d hd
    · exact new d hd

/-- A bare clause that is too short to be watched need not be told apart. -/
theorem short (h : s.Indexes (some r) lists) {c : Clause} (hc : s.get? r = some c)
    (short : c.length < 2) : s.Indexes none lists where
  once := h.once
  mem_iff l q := by
    rw [h.mem_iff]
    constructor
    · rintro ⟨-, rest⟩
      exact ⟨by simp, rest⟩
    · intro hq
      refine ⟨fun e => ?_, hq.2⟩
      cases e
      exact not_watches_of_short hc short hq
  cached := h.cached

theorem add (h : s.Indexes none lists) (c : Clause) :
    (s.add c).2.Indexes (some s.size) lists where
  once := h.once
  mem_iff l r := by rw [h.mem_iff, watches_add]
  cached l w hw d hd := by
    rcases get?_of_add hd with ⟨e, -⟩ | old
    · obtain ⟨-, d', _, _, _, hd', _⟩ := h.watched hw
      exact absurd (e ▸ lt_size_of_get? hd') (Nat.lt_irrefl _)
    · exact h.cached l w hw d old

/-- The bare clause is watched through `a` and `b` from now on. -/
theorem attach {c : Clause} {a b : Lit} {rest : List Lit} (h : s.Indexes (some r) lists)
    (hc : s.get? r = some c) (e : c.literals = a :: b :: rest) (hab : a ≠ b)
    (attached : ∀ l, lists' l = lists l ++ pairWatchers r a b l) : s.Indexes none lists' := by
  have fresh : ∀ l, r ∉ (lists l).map Watcher.clause := fun l hmem =>
    ((h.mem_iff l r).1 hmem).1 rfl
  refine ⟨fun l => ?_, fun l q => ?_, fun l w hw d hd => ?_⟩
  · rw [attached, List.map_append, clause_pairWatchers hab]
    split
    · rw [List.nodup_append]
      refine ⟨h.once l, by simp, fun q hq q' hq' => ?_⟩
      rintro rfl
      exact fresh l (List.mem_singleton.1 hq' ▸ hq)
    · rw [List.append_nil]
      exact h.once l
  · rw [attached, List.map_append, clause_pairWatchers hab, List.mem_append, h.mem_iff]
    by_cases hq : q = r
    · subst hq
      rw [watches_iff hc e, watches_iff hc e, Lit.neg_eq_iff, Lit.neg_eq_iff]
      by_cases hl : l = -a ∨ l = -b <;> simp [hl]
    · have absent : q ∉ (if l = -a ∨ l = -b then [r] else []) := by
        split <;> simp [hq]
      rw [or_iff_left absent]
      exact ⟨fun h => ⟨by simp, h.2⟩, fun h => ⟨fun e => hq (Option.some.inj e).symm, h.2⟩⟩
  · rw [attached, List.mem_append] at hw
    rcases hw with old | new
    · exact h.cached l w old d hd
    · rcases mem_pairWatchers new with ⟨rfl, rfl⟩ | ⟨rfl, rfl⟩
      · cases hc.symm.trans hd
        rw [e, Lit.neg_neg]
        exact ⟨by simp, hab.symm⟩
      · cases hc.symm.trans hd
        rw [e, Lit.neg_neg]
        exact ⟨by simp, hab⟩

/-- A clause watched through `a` and `b` is watched through `a` and `k` from now on. -/
theorem move {a b k : Lit} {front behind : List Watcher} {w : Watcher}
    (h : s.Indexes bare lists) (rearranges : s'.Rearranges s)
    (others : ∀ q, q ≠ r → s'.get? q = s.get? q)
    (old : ∀ l, s.Watches bare r l ↔ l = a ∨ l = b)
    (new : ∀ l, s'.Watches bare r l ↔ l = a ∨ l = k) (hab : a ≠ b) (hka : k ≠ a) (hkb : k ≠ b)
    (hw : w.clause = r) (split : lists (-b) = front ++ w :: behind)
    (moved : ∀ l, lists' l = if l = -b then front ++ behind
      else if l = -k then lists l ++ [⟨a, r⟩] else lists l) : s'.Indexes bare lists' := by
  have hbk : -b ≠ -k := fun e => hkb (Lit.neg_inj e).symm
  have onceB : ((front ++ w :: behind).map Watcher.clause).Nodup := split ▸ h.once (-b)
  rw [List.map_append, List.map_cons, hw] at onceB
  have absentB : r ∉ (front ++ behind).map Watcher.clause := by
    rw [List.map_append]
    exact (List.nodup_middle.1 onceB).notMem
  have absentK : r ∉ (lists (-k)).map Watcher.clause := by
    rw [h.mem_iff, old, Lit.neg_neg]
    exact fun e => e.elim hka hkb
  refine ⟨fun l => ?_, fun l q => ?_, fun l x hx d hd => ?_⟩
  · rw [moved]
    split
    · rw [List.map_append]
      exact (List.nodup_middle.1 onceB).of_cons
    · split
      · rename_i e
        rw [List.map_append, List.nodup_append]
        refine ⟨h.once l, by simp, fun q hq q' hq' => ?_⟩
        rintro rfl
        obtain rfl : q = r := by simpa using hq'
        exact absentK (e ▸ hq)
      · exact h.once l
  · by_cases hq : q = r
    · subst hq
      rw [new, moved]
      by_cases eb : l = -b
      · rw [if_pos eb, eb, Lit.neg_neg]
        exact iff_of_false absentB fun e => e.elim (fun e => hab e.symm) fun e => hkb e.symm
      · rw [if_neg eb]
        by_cases ek : l = -k
        · rw [if_pos ek, ek, Lit.neg_neg]
          exact iff_of_true (by simp) (.inr rfl)
        · rw [if_neg ek, h.mem_iff, old]
          exact or_congr_right (iff_of_false (fun e => eb (Lit.neg_eq_iff.1 e))
            fun e => ek (Lit.neg_eq_iff.1 e))
    · rw [watches_congr (others q hq), ← h.mem_iff, moved]
      have hq' : q ≠ w.clause := hw ▸ hq
      split
      · rename_i e
        simp [e, split, hq']
      · split
        · simp [hq]
        · rfl
  · obtain ⟨c, hc, e⟩ := rearranges.origin hd
    rw [e.mem_iff]
    have cases : x ∈ lists l ∨ l = -k ∧ x = ⟨a, r⟩ := by
      rw [moved] at hx
      split at hx
      · rename_i eb
        refine .inl (eb ▸ split ▸ ?_)
        simp only [List.mem_append, List.mem_cons] at hx ⊢
        exact hx.elim .inl fun hx => .inr (.inr hx)
      · split at hx
        · rename_i ek
          simpa [ek] using hx
        · exact .inl hx
    rcases cases with hx | ⟨rfl, rfl⟩
    · exact h.cached l x hx c hc
    · exact ⟨Watches.mem ((old a).2 (.inl rfl)) hc, by rw [Lit.neg_neg]; exact hka.symm⟩

end Indexes

end ClauseStore

namespace Propagation

/-- The watchers in the list of a literal. -/
def watchers (p : Propagation) (l : Lit) : List Watcher :=
  ((p.watches.get? l.code).getD #[]).toList

variable {p : Propagation}

theorem addWatcher_yields {l : Lit} (hl : l.code < p.watches.size) (w : Watcher) :
    Yields (p.addWatcher l w) fun p' => ∃ ws, p' = { p with watches := ws } ∧
      ws.size = p.watches.size ∧
      ∀ k, watchers { p with watches := ws } k =
        if k = l then p.watchers l ++ [w] else p.watchers k := by
  obtain ⟨trail, clauses, watches, next⟩ := p
  refine (Table.update_yields hl _).bind fun ws ⟨size, get⟩ => .pure ⟨ws, rfl, size, fun k => ?_⟩
  rw [watchers, get]
  by_cases e : k = l
  · subst e
    obtain ⟨list, hlist⟩ := Table.get?_isSome_of_lt hl
    simp only at hlist
    simp [watchers, hlist]
  · rw [if_neg fun h => e (Lit.code_inj h), if_neg e]
    rfl

theorem takeWatchers_yields {t : Lit} (ht : t.code < p.watches.size) :
    Yields (p.takeWatchers t) fun r => r.1.toList = p.watchers t ∧
      ∃ ws, r.2 = { p with watches := ws } ∧ ws.size = p.watches.size ∧
        ∀ k, watchers { p with watches := ws } k = if k = t then [] else p.watchers k := by
  obtain ⟨trail, clauses, watches, next⟩ := p
  obtain ⟨list, hlist⟩ := Table.get?_isSome_of_lt ht
  simp only at hlist
  simp only [takeWatchers, Table.read_eq_ok_iff.2 hlist]
  refine .ok_bind ?_
  refine (Table.set_yields ht _).bind fun ws ⟨size, get⟩ => .pure ⟨?_, ws, rfl, size, fun k => ?_⟩
  · simp [watchers, hlist]
  · rw [watchers, get]
    by_cases e : k = t
    · simp [e]
    · rw [if_neg fun h => e (Lit.code_inj h), if_neg e]
      rfl

theorem putWatchers_yields {t : Lit} (ht : t.code < p.watches.size) (list : Array Watcher) :
    Yields (p.putWatchers t list) fun p' => ∃ ws, p' = { p with watches := ws } ∧
      ws.size = p.watches.size ∧
      ∀ k, watchers { p with watches := ws } k =
        if k = t then list.toList else p.watchers k := by
  obtain ⟨trail, clauses, watches, next⟩ := p
  refine (Table.set_yields ht _).bind fun ws ⟨size, get⟩ => .pure ⟨ws, rfl, size, fun k => ?_⟩
  rw [watchers, get]
  by_cases e : k = t
  · simp [e]
  · rw [if_neg fun h => e (Lit.code_inj h), if_neg e]
    rfl

theorem watchers_growWatches (p : Propagation) (v : Var) (l : Lit) :
    (p.growWatches v).watchers l = p.watchers l := by
  obtain ⟨trail, clauses, watches, next⟩ := p
  exact congrArg Array.toList (watches.getD_grow ..)

/-- A clause is watched through its first two literals from now on. -/
theorem attach_appends {r : ClauseRef} {c : Clause} {a b : Lit} {rest : List Lit}
    (hc : p.clauses.get? r = some c) (e : c.literals = a :: b :: rest)
    (ha : (-a).code < p.watches.size) (hb : (-b).code < p.watches.size) :
    Yields (p.attach r) fun p' => ∃ ws, p' = { p with watches := ws } ∧
      ws.size = p.watches.size ∧ ∀ l, watchers { p with watches := ws } l =
        p.watchers l ++ ClauseStore.pairWatchers r a b l := by
  unfold attach
  rw [ClauseStore.read_eq hc]
  refine .ok_bind ?_
  rw [e]
  refine (addWatcher_yields ha ⟨b, r⟩).bind ?_
  rintro _ ⟨ws₁, rfl, size₁, lists₁⟩
  refine (addWatcher_yields (size₁ ▸ hb) ⟨a, r⟩).mono ?_
  rintro _ ⟨ws₂, rfl, size₂, lists₂⟩
  refine ⟨ws₂, rfl, size₂.trans size₁, fun l => ?_⟩
  have first : ∀ k, watchers { p with watches := ws₁ } k =
      p.watchers k ++ if k = -a then [⟨b, r⟩] else [] := by
    intro k
    rw [lists₁]
    by_cases hk : k = -a <;> simp [hk]
  rw [lists₂, ClauseStore.pairWatchers, ← List.append_assoc, ← first]
  by_cases hl : l = -b <;> simp [hl]

/-- A bare clause is watched through its first two literals. -/
theorem attach_yields {r : ClauseRef} {c : Clause} {a b : Lit} {rest : List Lit}
    (indexes : p.clauses.Indexes (some r) p.watchers) (hc : p.clauses.get? r = some c)
    (e : c.literals = a :: b :: rest) (hab : a ≠ b) (ha : (-a).code < p.watches.size)
    (hb : (-b).code < p.watches.size) :
    Yields (p.attach r) fun p' => ∃ ws, p' = { p with watches := ws } ∧
      ws.size = p.watches.size ∧ p.clauses.Indexes none (watchers { p with watches := ws }) := by
  refine (attach_appends hc e ha hb).mono ?_
  rintro _ ⟨ws, rfl, size, attached⟩
  exact ⟨ws, rfl, size, indexes.attach hc e hab attached⟩

end Propagation

end ClauseLearning
