/-
  What the index of the clauses knows.

  Model. The index leads to clauses of the store only when every clause it names is one it has
  taken in, and it has taken in no more than there are (`ClauseIndex.Within`). This is all that
  taking in clauses and noting changes need to meet no fault. It is exact when it names for every
  variable just the clauses taken in that mention it (`ClauseIndex.Exact`).

  Rule. What taking in clauses adds is the same for every index (`Gains`, `addNew_yields`), and so
  is which marks noting changes renews (`Looked`, `noteChanges_yields`); that an index stays within
  the store, and stays exact, follows from this.

  The marks are right for the states the index has seen last, but for clauses at which it has not
  looked since it took them in: these count as open whatever they are (`Marked`). A look at the
  changes leaves only those of them in which no variable has changed (`Marked.noteChanges`).
-/
import ClauseLearning.Policy.ClauseIndex
import ClauseLearning.Proofs.Assignment.Changes
import ClauseLearning.Proofs.Clause.Kept
import ClauseLearning.Proofs.Success

namespace ClauseLearning

/-- A variable occurs in the clause of the reference. -/
def ClauseStore.Mentions (store : ClauseStore) (r : ClauseRef) (v : Var) : Prop :=
  ∃ c, store.get? r = some c ∧ ∃ l ∈ c.literals, l.var = v

namespace ClauseIndex

variable {i j k : ClauseIndex} {store : ClauseStore} {n : Nat} {r : ClauseRef} {v : Var}
  {a : Assignment}

/-- The clauses noted for the variables are below `n`. -/
def Below (i : ClauseIndex) (n : Nat) : Prop :=
  ∀ v refs, i.occurrences.get? v = some refs → ∀ r ∈ refs, r < n

/-- The index has taken in clauses of the store, and leads to no others. -/
structure Within (i : ClauseIndex) (store : ClauseStore) : Prop where
  /-- The clauses that were taken in. -/
  size : i.size ≤ store.size
  /-- The clauses noted for the variables. -/
  below : i.Below i.size

theorem within_empty (store : ClauseStore) : empty.Within store where
  size := Nat.zero_le _
  below v refs h := by simp [empty] at h

theorem below_iff : i.Below n ↔ ∀ v, ∀ r ∈ i.clausesOf v, r < n := by
  unfold Below clausesOf
  refine forall_congr' fun v => ?_
  cases i.occurrences.get? v with
  | none => simp
  | some refs => simp

theorem Within.lt_size (h : i.Within store) (mem : r ∈ i.clausesOf v) : r < i.size :=
  below_iff.1 h.below v r mem

/-- The variables listed are those for which a clause is noted. -/
def Listed (i : ClauseIndex) : Prop := ∀ v, v ∈ i.occurring ↔ ∃ r, r ∈ i.clausesOf v

/-- The index has taken in clauses of the store, and has noted just where each variable occurs in
    them. -/
structure Exact (i : ClauseIndex) (store : ClauseStore) : Prop where
  /-- The clauses that were taken in. -/
  size : i.size ≤ store.size
  /-- The clauses noted for the variables. -/
  mem : ∀ r v, r ∈ i.clausesOf v ↔ r < i.size ∧ store.Mentions r v
  /-- The variables. -/
  listed : i.Listed

theorem exact_empty (store : ClauseStore) : empty.Exact store where
  size := Nat.zero_le _
  mem r v := by
    refine ⟨fun mem => ?_, fun known => absurd known.1 (Nat.not_lt_zero r)⟩
    simp [empty, clausesOf] at mem
  listed v := by simp [empty, clausesOf]

theorem Exact.within (h : i.Exact store) : i.Within store :=
  ⟨h.size, below_iff.2 fun v r mem => ((h.mem r v).1 mem).1⟩

/-- An exact index stays exact when the store grows. -/
theorem Exact.grow (h : i.Exact store) (c : Clause) : i.Exact (store.add c).2 where
  size := Nat.le_trans h.size (Nat.le_of_lt (by
    rw [show (store.add c).2.size = store.size + 1 from Table.size_push ..]
    exact Nat.lt_succ_self _))
  mem r v := by
    refine (h.mem r v).trans (and_congr_right fun known => ?_)
    unfold ClauseStore.Mentions
    rw [ClauseStore.get?_add, if_neg (Nat.ne_of_lt (Nat.lt_of_lt_of_le known h.size))]
  listed := h.listed

theorem lt_size_of_isOpen (h : i.isOpen r = true) : r < i.size := by
  unfold isOpen at h
  cases e : i.openTable.get? r with
  | some b => exact Table.lt_size_of_get? e
  | none => simp [e] at h

/-! ## Taking in clauses -/

/-- The second index has some occurrences more than the first one. -/
structure Gains (i j : ClauseIndex) (more : ClauseRef → Var → Prop) : Prop where
  /-- The clauses noted for the variables. -/
  mem : ∀ r v, r ∈ j.clausesOf v ↔ r ∈ i.clausesOf v ∨ more r v
  /-- Variables are listed as before. -/
  listed : i.Listed → j.Listed

theorem Gains.refl (i : ClauseIndex) : i.Gains i fun _ _ => False :=
  ⟨fun r v => by simp, id⟩

theorem Gains.trans {more more' both : ClauseRef → Var → Prop} (h : i.Gains j more)
    (h' : j.Gains k more') (e : ∀ r v, both r v ↔ more r v ∨ more' r v) : i.Gains k both :=
  ⟨fun r v => by rw [h'.mem, h.mem, e, or_assoc], fun listed => h'.listed (h.listed listed)⟩

theorem addOccurrence_yields (i : ClauseIndex) (r : ClauseRef) (v : Var) :
    Yields (i.addOccurrence r v) fun j =>
      j.openTable = i.openTable ∧ i.Gains j fun q w => q = r ∧ w = v := by
  obtain ⟨occurring, occurrences, openTable⟩ := i
  unfold addOccurrence
  dsimp only
  have room := occurrences.lt_size_grow v #[]
  refine (Table.update_yields room _).bind fun occurrences' ⟨_, get⟩ => .pure ⟨rfl, ?_⟩
  have mem : ∀ q w, q ∈ (occurrences'.get? w).getD #[] ↔
      q ∈ (occurrences.get? w).getD #[] ∨ q = r ∧ w = v := by
    intro q w
    rw [get, ← occurrences.getD_grow v #[] w]
    split
    · rename_i same
      subst same
      obtain ⟨refs, here⟩ := Table.get?_isSome_of_lt room
      simp [here, Array.mem_push]
    · rename_i different
      simp [different]
  refine ⟨mem, fun listed w => ?_⟩
  change (w ∈ if ((occurrences.get? v).getD #[]).isEmpty then v :: occurring else occurring) ↔
    ∃ q, q ∈ (occurrences'.get? w).getD #[]
  have before : w ∈ occurring ↔ ∃ q, q ∈ (occurrences.get? w).getD #[] := listed w
  simp only [mem, exists_or, ← before]
  split
  · simp [or_comm]
  · -- a variable that occurs already is listed already
    rename_i known
    rw [Array.isEmpty_iff, Array.eq_empty_iff_forall_not_mem, not_forall] at known
    obtain ⟨q, mem⟩ := known
    have here : v ∈ occurring := (listed v).2 ⟨q, not_not.1 mem⟩
    refine ⟨.inl, ?_⟩
    rintro (w | ⟨_, _, rfl⟩)
    · exact w
    · exact here

theorem add_yields (i : ClauseIndex) (c : Clause) :
    Yields (i.add c) fun j => j.size = i.size + 1 ∧
      (∀ r, j.isOpen r = true ↔ i.isOpen r = true ∨ r = i.size) ∧
        i.Gains j fun r v => r = i.size ∧ ∃ l ∈ c.literals, l.var = v := by
  unfold add
  dsimp only
  refine (Yields.foldlM (fun done (j : ClauseIndex) => j.openTable = i.openTable ∧
    i.Gains j fun r v => r = i.size ∧ ∃ l ∈ done, l.var = v) c.literals
    ⟨rfl, ⟨fun r v => by simp, id⟩⟩ fun done l _ j ⟨same, gains⟩ => ?_).bind
    fun j ⟨same, gains⟩ => .pure ?_
  · refine (addOccurrence_yields j i.size l.var).mono fun j' ⟨same', gains'⟩ =>
      ⟨same'.trans same, gains.trans gains' fun r v => ?_⟩
    rw [← and_or_left]
    refine and_congr_right fun _ => ?_
    simp only [List.mem_append, List.mem_singleton, or_and_right, exists_or, exists_eq_left]
    rw [eq_comm ]
  · obtain ⟨occurring, occurrences, openTable⟩ := j
    obtain rfl : openTable = i.openTable := same
    refine ⟨Table.size_push .., fun r => ?_, ⟨gains.mem, gains.listed⟩⟩
    simp only [isOpen, addOpen, Table.get?_push]
    split
    · rename_i new
      simp [new, size]
    · rename_i old
      simp [old, size]

/-- Taking in the clauses of the store from the next one on. -/
theorem addRange_yields (i : ClauseIndex) (inside : i.size + n ≤ store.size) :
    Yields ((List.range' i.size n).foldlM (fun i r => do i.add (← store.read r)) i) fun j =>
      j.size = i.size + n ∧
      (∀ r, j.isOpen r = true ↔ i.isOpen r = true ∨ r ∈ List.range' i.size n) ∧
        i.Gains j fun r v => r ∈ List.range' i.size n ∧ store.Mentions r v := by
  induction n generalizing i with
  | zero => exact .ok ⟨rfl, by simp, ⟨by simp, id⟩⟩
  | succ n ih =>
    rw [List.range'_succ, List.foldlM_cons]
    have here : i.size < store.size :=
      Nat.lt_of_lt_of_le (Nat.lt_add_of_pos_right n.succ_pos) inside
    obtain ⟨c, read⟩ := ClauseStore.get?_isSome_of_lt here
    rw [ClauseStore.read_eq read]
    refine Yields.bind (add_yields i c) fun j ⟨size, marks, gains⟩ => ?_
    have next := ih j (by omega)
    rw [size] at next
    refine next.mono fun j' ⟨size', marks', gains'⟩ => ⟨by omega, fun r => ?_, ?_⟩
    · rw [marks', marks, List.mem_cons, or_assoc]
    · refine gains.trans gains' fun r v => ?_
      rw [List.mem_cons, or_and_right]
      refine or_congr_left (and_congr_right fun here => ?_)
      subst here
      exact ⟨fun ⟨c', read', l⟩ => by cases read.symm.trans read'; exact l, fun l => ⟨c, read, l⟩⟩

theorem addNew_yields (h : i.size ≤ store.size) :
    Yields (i.addNew store) fun j => j.size = store.size ∧
      (∀ r, j.isOpen r = true ↔
        i.isOpen r = true ∨ r ∈ List.range' i.size (store.size - i.size)) ∧
      i.Gains j fun r v => r ∈ List.range' i.size (store.size - i.size) ∧ store.Mentions r v := by
  have all := Nat.add_sub_cancel' h
  refine (addRange_yields i (Nat.le_of_eq all)).mono fun j ⟨size, rest⟩ => ⟨size.trans all, rest⟩

theorem Within.addNew (h : i.Within store) : Yields (i.addNew store) (·.Within store) := by
  refine (addNew_yields h.size).mono fun j ⟨size, _, gains⟩ => ⟨Nat.le_of_eq size, ?_⟩
  rw [size, below_iff]
  intro v r mem
  rcases (gains.mem r v).1 mem with old | ⟨new, -⟩
  · exact Nat.lt_of_lt_of_le (h.lt_size old) h.size
  · exact Nat.lt_of_lt_of_eq (List.mem_range'_1.1 new).2 (Nat.add_sub_cancel' h.size)

theorem Exact.addNew (h : i.Exact store) :
    Yields (i.addNew store) fun j => j.size = store.size ∧ j.Exact store ∧
      ∀ r, j.isOpen r = true ↔
        i.isOpen r = true ∨ r ∈ List.range' i.size (store.size - i.size) := by
  refine (addNew_yields h.size).mono fun j ⟨size, marks, gains⟩ =>
    ⟨size, ⟨Nat.le_of_eq size, fun r v => ?_, gains.listed h.listed⟩, marks⟩
  have inside : ∀ {r : Nat}, r < i.size ∨ i.size ≤ r ∧ r < i.size + (store.size - i.size) ↔
      r < store.size := by
    have := h.size
    omega
  rw [gains.mem, h.mem, ← or_and_right, List.mem_range'_1, size, inside]

/-! ## Noting changes -/

/-- The second index is the first one after another look at some of the clauses. -/
structure Looked (i : ClauseIndex) (a : Assignment) (store : ClauseStore)
    (at_ : ClauseRef → Prop) (j : ClauseIndex) : Prop where
  /-- The variables. -/
  occurring : j.occurring = i.occurring
  /-- The clauses noted for the variables. -/
  occurrences : j.occurrences = i.occurrences
  /-- The number of clauses. -/
  size : j.size = i.size
  /-- The marks that are renewed. -/
  renewed : ∀ r c, at_ r → store.get? r = some c → j.isOpen r = !a.satisfies c.literals
  /-- The other marks. -/
  kept : ∀ r, ¬ at_ r → j.isOpen r = i.isOpen r

namespace Looked

variable {at_ at' both : ClauseRef → Prop}

theorem clausesOf (h : i.Looked a store at_ j) (v : Var) : j.clausesOf v = i.clausesOf v := by
  rw [ClauseIndex.clausesOf, h.occurrences, ClauseIndex.clausesOf]

theorem trans (h : i.Looked a store at_ j) (h' : j.Looked a store at' k)
    (e : ∀ r, both r ↔ at_ r ∨ at' r) : i.Looked a store both k where
  occurring := h'.occurring.trans h.occurring
  occurrences := h'.occurrences.trans h.occurrences
  size := h'.size.trans h.size
  renewed r c looked hc := by
    by_cases second : at' r
    · exact h'.renewed r c second hc
    · rw [h'.kept r second]
      exact h.renewed r c (((e r).1 looked).resolve_right second) hc
  kept r unseen := by
    rw [e, not_or] at unseen
    rw [h'.kept r unseen.2, h.kept r unseen.1]

theorem within (h : i.Looked a store at_ j) (within : i.Within store) : j.Within store where
  size := h.size ▸ within.size
  below := by
    rw [h.size, below_iff]
    intro v r mem
    exact within.lt_size (h.clausesOf v ▸ mem)

theorem exact (h : i.Looked a store at_ j) (exact : i.Exact store) : j.Exact store where
  size := h.size ▸ exact.size
  mem r v := by rw [h.clausesOf, exact.mem, h.size]
  listed v := by rw [h.occurring, exact.listed v, h.clausesOf]

end Looked

/-- One more look at clauses that were taken in. -/
theorem looks_yields (a : Assignment) {openTable : Table Bool} {refs : List ClauseRef}
    (inside : ∀ r ∈ refs, r < openTable.size) (size : openTable.size ≤ store.size) :
    Yields (refs.foldlM (lookAgain a store) openTable) fun t => t.size = openTable.size ∧
      (∀ r c, r ∈ refs → store.get? r = some c → t.get? r = some !a.satisfies c.literals) ∧
        ∀ r, r ∉ refs → t.get? r = openTable.get? r := by
  refine Yields.foldlM (fun done (t : Table Bool) => t.size = openTable.size ∧
    (∀ r c, r ∈ done → store.get? r = some c → t.get? r = some !a.satisfies c.literals) ∧
      ∀ r, r ∉ done → t.get? r = openTable.get? r) refs ⟨rfl, by simp, by simp⟩ ?_
  intro done q hq t ⟨same, renewed, kept⟩
  have known : q < openTable.size := inside q hq
  refine (Table.read_yields (t := store.clauses) (Nat.lt_of_lt_of_le known size)).bind
    fun d read => ?_
  refine (Table.set_yields (same ▸ known) _).mono fun t' ⟨same', get⟩ =>
    ⟨same'.trans same, fun r c mem hc => ?_, fun r new => ?_⟩
  · rw [get]
    split
    · rename_i here
      subst here
      cases hc.symm.trans read
      rfl
    · rename_i other
      exact renewed r c ((List.mem_append.1 mem).resolve_right (by simpa using other)) hc
  · rw [List.mem_append, not_or, List.mem_singleton] at new
    rw [get, if_neg new.2]
    exact kept r new.1

theorem note_yields (h : i.Within store) (a : Assignment) (v : Var) :
    Yields (i.note a store v) (i.Looked a store (· ∈ i.clausesOf v)) := by
  have inside : ∀ r ∈ (i.clausesOf v).toList, r < i.size := fun r mem =>
    h.lt_size (Array.mem_toList_iff.1 mem)
  obtain ⟨occurring, occurrences, openTable⟩ := i
  unfold note
  dsimp only
  rw [← Array.foldlM_toList]
  refine (looks_yields a inside h.size).bind fun t ⟨size, renewed, kept⟩ =>
    .pure ⟨rfl, rfl, size, fun r c mem hc => ?_, fun r new => ?_⟩
  · rw [isOpen, renewed r c (Array.mem_toList_iff.2 mem) hc, Option.getD_some]
  · rw [isOpen, kept r fun mem => new (Array.mem_toList_iff.1 mem), isOpen]

theorem noteChanges_yields (h : i.Within store) (a : Assignment) :
    Yields (i.noteChanges a store)
      (i.Looked a store fun r => ∃ ch ∈ a.changes, r ∈ i.clausesOf ch.var) := by
  refine Yields.foldlM (fun done (j : ClauseIndex) =>
    i.Looked a store (fun r => ∃ ch ∈ done, r ∈ i.clausesOf ch.var) j) a.changes
    ⟨rfl, rfl, rfl, by simp, fun _ _ => rfl⟩ fun done ch _ j looked => ?_
  refine (note_yields (looked.within h) a ch.var).mono fun j' looked' =>
    looked.trans looked' fun r => ?_
  simp only [looked.clausesOf, List.mem_append, List.mem_singleton, or_and_right, exists_or,
    exists_eq_left]

/-! ## The marks -/

theorem isUnassigned_of_mem_candidates (h : v ∈ i.candidates a) : a.isUnassigned v = true :=
  (Bool.and_eq_true_iff.1 (List.mem_filter.1 h).2).1

/-- The candidates are the unassigned variables that are mentioned in a clause that counts as
    open. -/
theorem Exact.mem_candidates (h : i.Exact store) :
    v ∈ i.candidates a ↔
      a.isUnassigned v = true ∧ ∃ r, store.Mentions r v ∧ i.isOpen r = true := by
  have occurs : i.occursOpen v = true ↔ ∃ r, store.Mentions r v ∧ i.isOpen r = true := by
    rw [occursOpen, Array.any_eq_true']
    refine exists_congr fun r => ?_
    rw [h.mem, and_assoc, and_iff_right_iff_imp]
    exact fun counted => lt_size_of_isOpen counted.2
  rw [candidates, List.mem_filter, Bool.and_eq_true, occurs, and_iff_right_iff_imp]
  rintro ⟨-, r, mentions, counted⟩
  exact (h.listed v).2 ⟨r, (h.mem r v).2 ⟨lt_size_of_isOpen counted, mentions⟩⟩

/-- Whether no variable of a clause has changed since the states were `seen`. -/
def isUntouched (seen now : Var → VarState) (store : ClauseStore) (r : ClauseRef) : Bool :=
  (store.get? r).all fun c => c.literals.all fun l => decide (seen l.var = now l.var)

theorem isUntouched_iff {seen now : Var → VarState} {c : Clause} (hc : store.get? r = some c) :
    isUntouched seen now store r = true ↔ ∀ l ∈ c.literals, seen l.var = now l.var := by
  simp [isUntouched, hc]

theorem isUntouched_self (now : Var → VarState) (store : ClauseStore) (r : ClauseRef) :
    isUntouched now now store r = true := by
  cases hc : store.get? r with
  | none => simp [isUntouched, hc]
  | some c => exact (isUntouched_iff hc).2 fun _ _ => rfl

/-- The index is exact, and a clause counts as open if it is among the fresh ones or had no true
    literal when the states were `seen`. -/
structure Marked (i : ClauseIndex) (store : ClauseStore) (seen : Var → VarState)
    (fresh : List ClauseRef) : Prop where
  /-- The clauses noted for the variables. -/
  exact : i.Exact store
  /-- The marks. -/
  isOpen : ∀ r c, r < i.size → store.get? r = some c →
    (i.isOpen r = true ↔ r ∈ fresh ∨ ∀ l ∈ c.literals, seen l.var ≠ .assigned l.positive)

namespace Marked

variable {seen : Var → VarState} {fresh : List ClauseRef}

theorem start (store : ClauseStore) (seen : Var → VarState) : empty.Marked store seen [] where
  exact := exact_empty store
  isOpen r _ known := absurd known (Nat.not_lt_zero r)

theorem grow (h : i.Marked store seen fresh) (c : Clause) :
    i.Marked (store.add c).2 seen fresh where
  exact := h.exact.grow c
  isOpen r d known hd := by
    rw [ClauseStore.get?_add, if_neg (Nat.ne_of_lt (Nat.lt_of_lt_of_le known h.exact.size))] at hd
    exact h.isOpen r d known hd

/-- The clauses that are taken in are fresh. -/
theorem addNew (h : i.Marked store seen fresh) :
    Yields (i.addNew store) fun j => j.size = store.size ∧
      j.Marked store seen (fresh ++ List.range' i.size (store.size - i.size)) := by
  refine h.exact.addNew.mono fun j ⟨size, exact, marks⟩ => ⟨size, exact, fun r c known hc => ?_⟩
  rw [marks, List.mem_append]
  by_cases new : r ∈ List.range' i.size (store.size - i.size)
  · simp [new]
  · have old : r < i.size := by
      rw [List.mem_range'_1, Nat.add_sub_cancel' h.exact.size, ← size] at new
      exact Nat.lt_of_not_le fun le => new ⟨le, known⟩
    rw [or_iff_left new, or_iff_left new, h.isOpen r c old hc]

/-- The clauses at which the index looks are those in which a variable has changed. -/
theorem looks_iff (h : i.Marked store seen fresh) (since : a.Since seen) {c : Clause}
    (known : r < i.size) (hc : store.get? r = some c) :
    (∃ ch ∈ a.changes, r ∈ i.clausesOf ch.var) ↔ ¬ isUntouched seen a.state store r = true := by
  simp only [isUntouched_iff hc, not_forall, h.exact.mem, since.mem_changes]
  constructor
  · rintro ⟨ch, ⟨changed, -⟩, -, d, hd, l, mem, same⟩
    cases hc.symm.trans hd
    exact ⟨l, mem, same ▸ changed⟩
  · rintro ⟨l, mem, changed⟩
    exact ⟨⟨l.var, seen l.var, a.state l.var⟩, ⟨changed, rfl, rfl⟩, known, c, hc, l, mem, rfl⟩

/-- Noting the changes brings the marks up to date, and leaves the fresh clauses fresh in which
    nothing has changed. -/
theorem noteChanges (h : i.Marked store seen fresh) (since : a.Since seen) :
    Yields (i.noteChanges a store) fun j => j.size = i.size ∧
      j.Marked store a.state (fresh.filter (isUntouched seen a.state store)) := by
  refine (noteChanges_yields h.exact.within a).mono fun j looked =>
    ⟨looked.size, looked.exact h.exact, fun r c known hc => ?_⟩
  rw [looked.size] at known
  have looks := h.looks_iff since known hc
  rw [List.mem_filter]
  by_cases untouched : isUntouched seen a.state store r = true
  · have same := (isUntouched_iff hc).1 untouched
    rw [looked.kept r (mt looks.1 (not_not.2 untouched)), h.isOpen r c known hc,
      and_iff_left untouched]
    exact or_congr_right (forall₂_congr fun l mem => by rw [same l mem])
  · rw [looked.renewed r c (looks.2 untouched) hc, Bool.not_eq_true',
      or_iff_right fun fresh => untouched fresh.2]
    exact Assignment.satisfies_eq_false_iff

end Marked

end ClauseIndex

end ClauseLearning
