/-
  The changes as the net difference between two moments.

  Model. An assignment is edited: variables are set, variables go, and the changes are consumed
  (`Edit`). Beside it stands the account of somebody who writes down the state of every variable,
  and once more whenever the changes are consumed (`Account`); it knows of no log and of no numbers.

  The log notes the state of a variable when the variable is touched for the first time, and never
  forgets it before it is cleared. To whoever reads it, an entry appears when a variable leaves the
  state it had, keeps that state while the variable goes from one state to another, and is gone
  when the variable is back (`Since.original?_of_state`). So it is a map of the states that were
  left (`Originals`), and shows after any edits what such a map holds (`mem_changes_of_edits`).

  Rule. After any edits the changes are the difference between the two columns of the account, in
  increasing order of the variables, and the numbers count the second one (`changes_exact`). The
  one fault is that of a variable set to the other value.
-/
import Mathlib.Data.Set.Card
import ClauseLearning.Proofs.Assignment.Changes
import ClauseLearning.Proofs.Sorted

namespace ClauseLearning

/-! ## The log -/

namespace ChangeLog

variable {c : ChangeLog} {seen now : Var → VarState} {v : Var}

/-- A variable is on the list once. -/
theorem Tracks.nodup_note (t : c.Tracks seen now) (once : c.touched.Nodup) (v : Var)
    (previous : VarState) : (c.note v previous).touched.Nodup := by
  obtain ⟨earlier, list⟩ := c
  unfold ChangeLog.note
  dsimp only
  split
  · exact once
  · rename_i unknown
    exact List.nodup_cons.2 ⟨fun mem => unknown ((t.touched v).1 mem), once⟩

theorem var_of_change? {x : VarState} {ch : Change} (h : c.change? v x = some ch) : ch.var = v := by
  unfold change? at h
  split at h
  · cases h
  · split at h
    · cases h
    · cases h
      rfl

theorem changes_increasing (once : c.touched.Nodup) (now : Var → VarState) :
    (c.changes now).Pairwise fun x y => x.var < y.var := by
  unfold changes
  rw [List.pairwise_filterMap]
  refine (pairwise_lt_mergeSort once).imp fun lt x hx y hy => ?_
  rw [var_of_change? hx, var_of_change? hy]
  exact lt

theorem hasChanges_iff : c.hasChanges now = true ↔ c.changes now ≠ [] := by
  have same : c.changes now = [] ↔ ∀ v ∈ c.touched, c.change? v (now v) = none := by
    unfold changes
    rw [List.filterMap_eq_nil_iff]
    simp only [(List.mergeSort_perm _ _).mem_iff]
  rw [ne_eq, same, hasChanges, List.any_eq_true]
  simp only [Option.isSome_iff_ne_none, not_forall, exists_prop, ne_eq]

end ChangeLog

/-! ## The numbers -/

namespace Assignment

variable {a a' : Assignment} {seen : Var → VarState} {v : Var} {value : Option Bool}

/-- Counting the entries of the table is counting the variables; beyond the end of the table they
    are missing. -/
theorem encard_state (a : Assignment) {has : VarState → Bool} (missing : has .missing = false) :
    {v | has (a.state v) = true}.encard = a.states.count has := by
  have once : (a.states.keysWith has).Nodup := by
    rw [Table.keysWith_eq_filter]
    exact List.nodup_range.filter _
  have same : {v | has (a.state v) = true} = ((a.states.keysWith has).toFinset : Set Var) := by
    ext v
    rw [Set.mem_ofPred_eq, Finset.mem_coe, List.mem_toFinset, Table.keysWith_eq_filter,
      List.mem_filter, Table.keys, List.mem_range, state, stateIn]
    cases e : a.states.get? v with
    | none => simp [missing]
    | some x => simp [Table.lt_size_of_get? e]
  rw [same, Set.encard_coe_eq_coe_finsetCard, List.toFinset_card_of_nodup once,
    Table.length_keysWith]

theorem Counted.encard_assigned (c : a.Counted) :
    {v | ∃ b, a.state v = .assigned b}.encard = a.numAssigned := by
  rw [c.assigned, ← encard_state a rfl]
  congr 1
  ext v
  cases h : a.state v <;> simp [h, VarState.isAssigned]

theorem Counted.encard_known (c : a.Counted) :
    {v | a.state v ≠ .missing}.encard = a.numVariables := by
  rw [c.known, ← encard_state a rfl]
  congr 1
  ext v
  cases h : a.state v <;> simp [h, VarState.isKnown]

/-! ## One edit -/

/-- A call that changes an assignment. -/
inductive Edit where
  /-- A variable is set. -/
  | set (v : Var) (value : Option Bool)
  /-- A variable goes. -/
  | remove (v : Var)
  /-- The changes are consumed. -/
  | consume
  deriving DecidableEq, Repr

/-- What the call does. -/
def edit (a : Assignment) : Edit → Except Fault Assignment
  | .set v value => a.set v value
  | .remove v => a.remove v
  | .consume => .ok a.consume

/-- What somebody has written down who watches the variables. -/
structure Account where
  /-- The states when the changes were consumed. -/
  seen : Var → VarState
  /-- The states now. -/
  now : Var → VarState

/-- Every variable is missing. -/
def Account.start : Account := ⟨fun _ => .missing, fun _ => .missing⟩

/-- What is written down when the call is made. -/
def Account.after (w : Account) : Edit → Account
  | .set v value => { w with now := Function.update w.now v (.ofValue value) }
  | .remove v => { w with now := Function.update w.now v .missing }
  | .consume => { w with seen := w.now }

/-- The assignment is as the account says, and no variable is twice in the log. -/
structure Matches (a : Assignment) (w : Account) : Prop where
  /-- The numbers and the log. -/
  since : a.Since w.seen
  /-- The states. -/
  state : a.state = w.now
  /-- The list of the log. -/
  once : a.log.touched.Nodup

theorem log_reserve (a : Assignment) (v : Var) : (a.reserve v).log = a.log := rfl

theorem put_of_set (e : a.set v value = .ok a') : (a.reserve v).put v (.ofValue value) = .ok a' := by
  unfold set at e
  split at e
  · cases e
  · cases e
  · exact e

theorem log_of_set (e : a.set v value = .ok a') : a'.log = a.log.note v (a.state v) := by
  rw [log_of_put (put_of_set e), log_reserve, state_reserve]

theorem matches_start : empty.Matches .start := ⟨since_empty, rfl, List.nodup_nil⟩

/-! What the log shows of a variable. -/

/-- The state the variable had when the changes were consumed, if it has another one now. -/
def original? (a : Assignment) (v : Var) : Option VarState :=
  (a.log.change? v (a.state v)).map Change.previous

theorem Since.original?_eq (s : a.Since seen) (v : Var) :
    a.original? v = if seen v = a.state v then none else some (seen v) := by
  unfold original?
  rw [s.tracks.change?_eq]
  split <;> rfl

/-- When the state of a variable changes, what the log shows is what a map would hold that takes
    the old state in when there is none yet and drops it when it is the new state. -/
theorem Since.original?_of_state (s : a.Since seen) (s' : a'.Since seen) {new : VarState}
    (state : ∀ w, a'.state w = if w = v then new else a.state w) (w : Var) :
    a'.original? w = if w = v then
        let original := (a.original? v).getD (a.state v)
        if original = new then none else some original
      else a.original? w := by
  have original : (a.original? v).getD (a.state v) = seen v := by
    rw [s.original?_eq]
    split
    · rename_i same
      exact same.symm
    · rfl
  rw [s'.original?_eq, s.original?_eq w, state w]
  split
  · rename_i same
    rw [original, same]
  · rfl

/-! The account. -/

/-- A call makes of the assignment what the account says, unless it sets a variable to the other
    value. -/
theorem Matches.edit {w : Account} (m : a.Matches w) (call : Edit) :
    Ends (a.edit call) (·.Matches (w.after call)) fun fault =>
      ∃ v b, call = .set v (some !b) ∧ w.now v = .assigned b ∧
        fault = .reassigned v (.assigned b) (.assigned !b) := by
  cases call with
  | set v value =>
    show Ends (a.set v value) _ _
    have ends := m.since.set v value
    cases e : a.set v value with
    | ok a' =>
      obtain ⟨since, state⟩ := ends.of_ok e
      refine ⟨since, ?_, ?_⟩
      · funext x
        rw [state x, m.state]
        exact (Function.update_apply ..).symm
      · rw [log_of_set e]
        exact m.since.tracks.nodup_note m.once v _
    | error fault =>
      rw [e] at ends
      obtain ⟨b, old, rfl, rfl⟩ := ends
      exact ⟨v, b, rfl, m.state ▸ old, rfl⟩
  | remove v =>
    obtain ⟨a', e, since, state⟩ := m.since.remove v
    show Ends (a.remove v) _ _
    rw [e]
    refine ⟨since, ?_, ?_⟩
    · funext x
      rw [state x, m.state]
      exact (Function.update_apply ..).symm
    · unfold Assignment.remove at e
      split at e
      · rw [log_of_put e]
        exact m.since.tracks.nodup_note m.once v _
      · cases e
        exact m.once
  | consume =>
    refine ⟨?_, m.state, List.nodup_nil⟩
    show a.consume.Since w.now
    rw [← m.state]
    exact since_consume m.since.counted

/-! ## All edits -/

theorem Matches.edits {w : Account} (m : a.Matches w) (calls : List Edit) :
    Ends (calls.foldlM Assignment.edit a) (·.Matches (calls.foldl Account.after w)) fun fault =>
      ∃ before v b rest, calls = before ++ .set v (some !b) :: rest ∧
        (before.foldl Account.after w).now v = .assigned b ∧
        fault = .reassigned v (.assigned b) (.assigned !b) := by
  induction calls generalizing a w with
  | nil => exact m
  | cons call calls ih =>
    rw [List.foldlM_cons]
    have first := m.edit call
    cases e : a.edit call with
    | error fault =>
      rw [e] at first
      obtain ⟨v, b, rfl, old, rfl⟩ := first
      exact ⟨[], v, b, calls, rfl, old, rfl⟩
    | ok a' =>
      refine .ok_bind ((ih (first.of_ok e)).mono (fun _ => id) ?_)
      rintro fault ⟨before, v, b, rest, rfl, old, rfl⟩
      exact ⟨call :: before, v, b, rest, rfl, old, rfl⟩

/-! The map of the states left. -/

/-- What somebody has written down who keeps the state a variable had only as long as the variable
    has another one. -/
structure Originals where
  /-- The states now. -/
  now : Var → VarState
  /-- The state a variable had when the changes were consumed, if it is written down. -/
  original? : Var → Option VarState

namespace Originals

/-- Every variable is missing, and nothing is written down. -/
def start : Originals := ⟨fun _ => .missing, fun _ => none⟩

/-- A variable goes to the state `new`. The state it leaves is written down if there is none yet,
    and what is written down is crossed out when it is the new state. -/
def enter (o : Originals) (v : Var) (new : VarState) : Originals :=
  let original := (o.original? v).getD (o.now v)
  ⟨Function.update o.now v new,
    Function.update o.original? v (if original = new then none else some original)⟩

/-- What is written down when the call is made. -/
def after (o : Originals) : Edit → Originals
  | .set v value => o.enter v (.ofValue value)
  | .remove v => if (o.now v).isKnown then o.enter v .missing else o
  | .consume => { o with original? := fun _ => none }

end Originals

/-- The log shows what is written down. -/
structure Shows (a : Assignment) (o : Originals) : Prop where
  /-- The log is in step with some states. -/
  since : ∃ seen, a.Since seen
  /-- The states. -/
  state : a.state = o.now
  /-- The states that were left. -/
  original : a.original? = o.original?

theorem shows_start : empty.Shows .start := ⟨⟨_, since_empty⟩, rfl, rfl⟩

theorem Shows.enter {o : Originals} (shows : a.Shows o) (s : a.Since seen) (s' : a'.Since seen)
    {new : VarState} (state : ∀ w, a'.state w = if w = v then new else a.state w) :
    a'.Shows (o.enter v new) := by
  refine ⟨⟨seen, s'⟩, ?_, ?_⟩
  · funext w
    rw [state w, shows.state]
    exact (Function.update_apply ..).symm
  · funext w
    rw [s.original?_of_state s' state w, shows.state, shows.original]
    exact (Function.update_apply ..).symm

/-- What a call does to the log is what it does to the map. -/
theorem Shows.edit {o : Originals} {call : Edit} (shows : a.Shows o) (e : a.edit call = .ok a') :
    a'.Shows (o.after call) := by
  obtain ⟨seen, s⟩ := shows.since
  cases call with
  | set v value =>
    obtain ⟨s', state⟩ := (s.set v value).of_ok e
    exact shows.enter s s' state
  | remove v =>
    unfold Originals.after
    dsimp only
    rw [← shows.state]
    split
    · obtain ⟨s', state⟩ := (s.remove v).of_ok e
      exact shows.enter s s' state
    · rename_i unknown
      have same : a.remove v = .ok a := if_neg unknown
      cases same.symm.trans e
      exact shows
  | consume =>
    cases e
    exact ⟨⟨_, since_consume s.counted⟩, shows.state, rfl⟩

theorem Shows.edits {o : Originals} {calls : List Edit} (shows : a.Shows o)
    (e : calls.foldlM Assignment.edit a = .ok a') : a'.Shows (calls.foldl Originals.after o) := by
  induction calls generalizing a o with
  | nil =>
    cases e
    exact shows
  | cons call calls ih =>
    rw [List.foldlM_cons] at e
    obtain ⟨_, first, rest⟩ := Yields.exists_of_bind e
    exact ih (shows.edit first) rest

/-- After any edits of the assignment in which every variable is missing, the log shows of every
    variable what the map holds, and the changes are the entries of the map. -/
theorem mem_changes_of_edits {calls : List Edit} (e : calls.foldlM edit .empty = .ok a) :
    ∃ o : Originals, o = calls.foldl Originals.after .start ∧
      (∀ v, a.original? v = o.original? v) ∧
      (∀ ch : Change, ch ∈ a.changes ↔
        o.original? ch.var = some ch.previous ∧ ch.current = o.now ch.var) ∧
      (a.hasChanges = true ↔ ∃ v, o.original? v ≠ none) := by
  have shows := shows_start.edits e
  obtain ⟨seen, s⟩ := shows.since
  have entries : ∀ ch : Change, ch ∈ a.changes ↔
      a.original? ch.var = some ch.previous ∧ ch.current = a.state ch.var := by
    intro ch
    rw [s.original?_eq, s.mem_changes]
    split
    · rename_i same
      simp [same]
    · rename_i different
      simp [different, eq_comm]
  refine ⟨_, rfl, congrFun shows.original, ?_, ?_⟩
  · rw [← shows.original, ← shows.state]
    exact entries
  · rw [← shows.original]
    refine ChangeLog.hasChanges_iff.trans ⟨fun some => ?_, ?_⟩
    · obtain ⟨ch, mem⟩ := List.exists_mem_of_ne_nil _ some
      exact ⟨ch.var, ne_of_eq_of_ne ((entries ch).1 mem).1 (Option.some_ne_none _)⟩
    · rintro ⟨v, left⟩
      obtain ⟨x, held⟩ := Option.ne_none_iff_exists'.1 left
      exact List.ne_nil_of_mem ((entries ⟨v, x, a.state v⟩).2 ⟨held, rfl⟩)

/-! The changes. -/

/-- Whatever edits are made of the assignment in which every variable is missing, the changes are
    the net difference: in increasing order of the variables, those whose state differs from the one
    they had when the changes were last consumed, with both states. So what cancels out leaves no
    entry. The edits fail only where one sets a variable to the other value. -/
theorem changes_exact (calls : List Edit) :
    Ends (calls.foldlM edit .empty)
      (fun a => ∃ w : Account, w = calls.foldl Account.after .start ∧ (∀ v, a.state v = w.now v) ∧
        a.changes.Pairwise (fun x y => x.var < y.var) ∧
        (∀ ch : Change, ch ∈ a.changes ↔ w.seen ch.var ≠ w.now ch.var ∧
          ch.previous = w.seen ch.var ∧ ch.current = w.now ch.var) ∧
        (a.hasChanges = true ↔ a.changes ≠ []) ∧
        {v | ∃ b, w.now v = .assigned b}.encard = a.numAssigned ∧
        {v | w.now v ≠ .missing}.encard = a.numVariables ∧
        ((∀ v, w.now v = w.seen v) → a.changes = []))
      fun fault => ∃ before v b rest, calls = before ++ .set v (some !b) :: rest ∧
        (before.foldl Account.after .start).now v = .assigned b ∧
        fault = .reassigned v (.assigned b) (.assigned !b) := by
  refine (matches_start.edits calls).mono (fun a m => ?_) fun _ => id
  have mem := fun ch => m.state ▸ m.since.mem_changes ch
  refine ⟨_, rfl, congrFun m.state, ChangeLog.changes_increasing m.once _, mem,
    ChangeLog.hasChanges_iff, ?_, ?_, fun back => ?_⟩
  · rw [← m.state]
    exact m.since.counted.encard_assigned
  · rw [← m.state]
    exact m.since.counted.encard_known
  · refine List.eq_nil_iff_forall_not_mem.2 fun ch hch => ?_
    exact ((mem ch).1 hch).1 (back ch.var).symm

end Assignment

end ClauseLearning
