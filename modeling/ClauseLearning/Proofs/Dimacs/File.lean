/-
  What an accepted file holds.

  Model. A file is a header and the lines above and below it. Above stand no clauses, since there
  is no end of a clause without a header, but numbers may stand there; they belong to the first
  clause, and their variables are not compared with the header (`TakesFile.parts`).

  Rule. Tokens are never lost, merged or put in another order: what a reader has taken is written
  as all the tokens that it took (`TakesAll.added`).
-/
import ClauseLearning.Proofs.Dimacs.Lines

namespace ClauseLearning.Dimacs

open Decimal (numeral)

/-- The text has one header line, which declares `h` and has the given lines above and below it. -/
def Divided (text : List Char) (above : List (List Char)) (h : Header) (below : List (List Char)) :
    Prop :=
  (∃ head, lines text = above ++ head :: below ∧ IsHeader head ∧
    Header.ofLine? (trim head) = some h) ∧ ∀ line ∈ above ++ below, ¬ IsHeader line

namespace Reader

variable {r r' q : Reader} {m : Mode} {t line text : List Char} {ts ls : List (List Char)}
  {h : Header} {clauses : List (List Int)}

/-! ## Tokens -/

/-- The tokens of what was read. -/
def taken (r : Reader) : List (List Char) :=
  written r.clauses.reverse ++ r.pending.reverse.map numeral

/-- The numbers that were read. -/
def literals (r : Reader) : List Int := r.clauses.reverse.flatten ++ r.pending.reverse

/-- What tokens add to what was read. -/
structure Added (r : Reader) (ts : List (List Char)) (q : Reader) : Prop where
  /-- No header. -/
  header : q.header? = r.header?
  /-- The tokens themselves. -/
  taken : q.taken = r.taken ++ ts
  /-- Numbers that are admitted. -/
  literals : ∃ ns, q.literals = r.literals ++ ns ∧ ∀ n ∈ ns, n ≠ 0 ∧ r.admits n = true
  /-- No clause without a header. -/
  undeclared : r.header? = none → q.clauses = r.clauses

theorem admits_congr (e : q.header? = r.header?) (n : Int) : q.admits n = r.admits n := by
  rw [admits, admits, e]

theorem Takes.added (h : r.Takes t q) : r.Added [t] q := by
  cases h with
  | zero declared =>
    refine ⟨rfl, ?_, ⟨[], ?_, fun _ h => nomatch h⟩, fun none => ?_⟩
    · simp [Reader.taken, written]
    · simp [Reader.literals]
    · rw [none] at declared
      cases declared
  | @literal n nonzero admitted =>
    refine ⟨rfl, ?_, ⟨[n], ?_, fun k hk => ?_⟩, fun _ => rfl⟩
    · simp [Reader.taken]
    · simp [Reader.literals]
    · cases List.mem_singleton.1 hk
      exact ⟨nonzero, admitted⟩

/-- What was read is the tokens that were taken, in their order. -/
theorem TakesAll.added (h : r.TakesAll m ts q) : r.Added ts q := by
  induction h with
  | nil =>
    exact ⟨rfl, (List.append_nil _).symm, ⟨[], (List.append_nil _).symm, fun _ h => nomatch h⟩,
      fun _ => rfl⟩
  | @cons r r' q t ts first rest ih =>
    have one := first.added
    obtain ⟨ns, e, admitted⟩ := one.literals
    obtain ⟨ns', e', admitted'⟩ := ih.literals
    refine ⟨ih.header.trans one.header, ?_, ⟨ns ++ ns', ?_, fun n hn => ?_⟩, fun none => ?_⟩
    · rw [ih.taken, one.taken, List.append_assoc]
      rfl
    · rw [e', e, List.append_assoc]
    · rcases List.mem_append.1 hn with hn | hn
      · exact admitted n hn
      · obtain ⟨nonzero, admitted⟩ := admitted' n hn
        exact ⟨nonzero, admits_congr one.header n ▸ admitted⟩
    · exact (ih.undeclared (one.header.trans none)).trans (one.undeclared none)

/-! ## Lines -/

/-- Lines without a header are taken exactly if their tokens are. -/
theorem takesLines_iff (mode : r.mode = .lineStart) (body : ∀ line ∈ ls, ¬ IsHeader line) :
    r.TakesLines ls q ↔ r.TakesAll .lineStart (bodyTokens ls) q := by
  induction ls generalizing r with
  | nil =>
    rw [bodyTokens, bodyFields]
    change _ ↔ r.TakesAll .lineStart [] q
    rw [takesAll_nil, inMode_self mode]
    constructor
    · intro h
      cases h
      rfl
    · rintro rfl
      exact .nil
  | cons line ls ih =>
    have header : ¬ IsHeader line := body line (.head _)
    have rest : ∀ line ∈ ls, ¬ IsHeader line := fun l hl => body l (.tail _ hl)
    rw [takesLines_cons]
    by_cases comment : IsComment line
    · rw [bodyTokens_cons_marked (.inl comment), ← ih mode rest]
      simp only [takesLine_comment comment, exists_eq_left]
    · rw [bodyTokens_cons_body ⟨comment, header⟩, takesAll_append (k := .lineStart)]
      refine exists_congr fun r' => ?_
      rw [takesLine_body ⟨comment, header⟩]
      exact and_congr_right fun taken => ih taken.mode rest

theorem TakesLine.header_of_body (h : r.TakesLine line q) (body : ¬ IsHeader line) :
    q.header? = r.header? := by
  cases h with
  | comment => rfl
  | header marked => exact absurd marked body
  | body _ taken => exact taken.added.header

theorem TakesLine.body_of_declared (h : r.TakesLine line q) (declared : r.header?.isSome = true) :
    ¬ IsHeader line := by
  intro marked
  obtain ⟨_, -, none, -⟩ := (takesLine_header marked).1 h
  rw [none] at declared
  cases declared

/-- There is no second header. -/
theorem TakesLines.header_of_declared (h : r.TakesLines ls q) (declared : r.header?.isSome = true) :
    q.header? = r.header? ∧ ∀ line ∈ ls, ¬ IsHeader line := by
  induction h with
  | nil => exact ⟨rfl, fun _ h => nomatch h⟩
  | cons first rest ih =>
    have body := first.body_of_declared declared
    have kept := first.header_of_body body
    obtain ⟨kept', body'⟩ := ih (kept ▸ declared)
    exact ⟨kept'.trans kept, List.forall_mem_cons.2 ⟨body, body'⟩⟩

/-- Where the reader gets a header, that is a line among those that it takes. -/
theorem TakesLines.divided (taken : r.TakesLines ls q) (none : r.header? = none)
    (declared : q.header? = some h) : ∃ above head below r',
      ls = above ++ head :: below ∧ (∀ line ∈ above ++ below, ¬ IsHeader line) ∧
      IsHeader head ∧ Header.ofLine? (trim head) = some h ∧ r.TakesLines above r' ∧
      ({ r' with header? := some h } : Reader).TakesLines below q := by
  induction taken with
  | nil => cases none.symm.trans declared
  | @cons r r' q line ls first rest ih =>
    by_cases marked : IsHeader line
    · obtain ⟨h', reads, -, rfl⟩ := (takesLine_header marked).1 first
      obtain ⟨kept, body⟩ := rest.header_of_declared rfl
      cases kept.symm.trans declared
      exact ⟨[], line, ls, r, rfl, body, marked, reads, .nil, rest⟩
    · obtain ⟨above, head, below, r'', rfl, body, rest⟩ :=
        ih ((first.header_of_body marked).trans none) declared
      refine ⟨line :: above, head, below, r'', rfl, ?_, rest.1, rest.2.1, ?_, rest.2.2.2⟩
      · exact List.forall_mem_cons.2 ⟨marked, body⟩
      · exact .cons first rest.2.2.1

theorem takesLines_append {us : List (List Char)} (first : r.TakesLines ls r')
    (rest : r'.TakesLines us q) : r.TakesLines (ls ++ us) q := by
  induction first with
  | nil => exact rest
  | cons line _ ih => exact .cons line (ih rest)

theorem TakesLines.mode (taken : r.TakesLines ls q) (mode : r.mode = .lineStart) :
    q.mode = .lineStart := by
  induction taken with
  | nil => exact mode
  | cons first _ ih => exact ih (first.mode mode)

/-- A file is accepted exactly if the tokens above and below its header are taken. -/
theorem takesFile_iff_divided : TakesFile text h clauses ↔ h.numClauses = clauses.length ∧
    ∃ above below r, Divided text above h below ∧
      start.TakesAll .lineStart (bodyTokens above) r ∧
      ({ r with header? := some h } : Reader).TakesAll .lineStart (bodyTokens below)
        ⟨.lineStart, some h, [], clauses.reverse⟩ := by
  refine and_congr_right fun _ => ⟨fun taken => ?_, ?_⟩
  · obtain ⟨above, head, below, r, e, body, marked, reads, first, rest⟩ := taken.divided rfl rfl
    have mode : ({ r with header? := some h } : Reader).mode = .lineStart := first.mode rfl
    obtain ⟨bodyAbove, bodyBelow⟩ := List.forall_mem_append.1 body
    exact ⟨above, below, r, ⟨⟨head, e, marked, reads⟩, body⟩,
      (takesLines_iff rfl bodyAbove).1 first, (takesLines_iff mode bodyBelow).1 rest⟩
  · rintro ⟨above, below, r, ⟨⟨head, e, marked, reads⟩, body⟩, first, rest⟩
    have mode : ({ r with header? := some h } : Reader).mode = .lineStart := first.mode
    obtain ⟨bodyAbove, bodyBelow⟩ := List.forall_mem_append.1 body
    rw [e]
    refine takesLines_append ((takesLines_iff rfl bodyAbove).2 first) ?_
    exact .cons (.header marked reads first.added.header) ((takesLines_iff mode bodyBelow).2 rest)

theorem admits_iff {n : Int} : r.admits n = true ↔ (-2147483648 ≤ n ∧ n ≤ 2147483647) ∧
    ∀ h, r.header? = some h → n.natAbs ≤ h.numVariables := by
  unfold admits
  cases r.header? with
  | none => simp
  | some h => simp

theorem TakesAll.clauses_suffix (h : r.TakesAll m ts q) : r.clauses <:+ q.clauses := by
  induction h with
  | nil => exact List.suffix_refl _
  | cons first _ ih =>
    cases first with
    | zero => exact (List.suffix_cons ..).trans ih
    | literal => exact ih

/-- What was read before the first clause ends is the beginning of that clause. -/
theorem TakesAll.first_clause (h : r.TakesAll m ts q) (none : r.clauses = []) :
    (q.clauses = [] ∧ r.pending <:+ q.pending) ∨
      ∃ cs c, q.clauses = cs ++ [c] ∧ r.pending.reverse <+: c := by
  induction h with
  | nil => exact .inl ⟨none, List.suffix_refl _⟩
  | cons first rest ih =>
    cases first with
    | zero =>
      obtain ⟨cs, e⟩ := rest.clauses_suffix
      rw [none] at e
      exact .inr ⟨cs, _, e.symm, List.prefix_refl _⟩
    | literal =>
      have grows {ns : List Int} {n : Int} : ns.reverse <+: (n :: ns).reverse :=
        List.reverse_prefix.2 (List.suffix_cons ..)
      refine (ih none).imp (And.imp_right (List.suffix_cons ..).trans) ?_
      exact fun ⟨cs, c, e, begins⟩ => ⟨cs, c, e, grows.trans begins⟩

/-- The literals of an accepted file are those written above its header, which are in no more
    than 32 bits, and those written below it, which are in its range too. -/
structure Parts (text : List Char) (h : Header) (clauses : List (List Int))
    (early late : List Int) : Prop where
  /-- There is one header line, and above it stand the early literals. -/
  header : ∃ above below, Divided text above h below ∧ bodyTokens above = early.map numeral
  /-- There are as many clauses as declared. -/
  numClauses : h.numClauses = clauses.length
  /-- All literals, in their order. -/
  literals : clauses.flatten = early ++ late
  /-- The first clause begins with the early literals. -/
  first : early = [] ∨ ∃ c cs, clauses = c :: cs ∧ early <+: c
  /-- The literals fit into 32 bits. -/
  fits : ∀ n ∈ early ++ late, n ≠ 0 ∧ -2147483648 ≤ n ∧ n ≤ 2147483647
  /-- The variables of the late literals are declared. -/
  declared : ∀ n ∈ late, n.natAbs ≤ h.numVariables

theorem TakesFile.parts (file : TakesFile text h clauses) :
    ∃ early late, Parts text h clauses early late := by
  obtain ⟨count, above, below, r, divided, first, rest⟩ := takesFile_iff_divided.1 file
  have noClauses : r.clauses = [] := first.added.undeclared rfl
  have literals : r.literals = r.pending.reverse := by
    rw [Reader.literals, noClauses]
    rfl
  obtain ⟨ns, early, admitted⟩ := first.added.literals
  obtain ⟨late, all, admitted'⟩ := rest.added.literals
  have early : r.pending.reverse = ns := literals.symm.trans early
  have all : clauses.flatten = r.pending.reverse ++ late := by
    change Reader.literals _ = r.literals ++ late at all
    rw [← literals, ← all]
    simp [Reader.literals]
  refine ⟨r.pending.reverse, late, ⟨above, below, divided, ?_⟩, count, all, ?_,
    List.forall_mem_append.2 ⟨fun n hn => ?_, fun n hn => ?_⟩, fun n hn => ?_⟩
  · have tokens : r.taken = bodyTokens above := first.added.taken
    rw [← tokens, taken, noClauses]
    rfl
  · rcases rest.first_clause noClauses with ⟨-, open'⟩ | ⟨cs, c, ended, begins⟩
    · exact .inl (by simpa using open')
    · exact .inr ⟨c, cs.reverse, by simpa using congrArg List.reverse ended, begins⟩
  · obtain ⟨nonzero, inRange⟩ := admitted n (early ▸ hn)
    exact ⟨nonzero, (admits_iff.1 inRange).1⟩
  · obtain ⟨nonzero, inRange⟩ := admitted' n hn
    exact ⟨nonzero, (admits_iff.1 inRange).1⟩
  · exact (admits_iff.1 (admitted' n hn).2).2 h rfl

end Reader

end ClauseLearning.Dimacs
