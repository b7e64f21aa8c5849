/-
  Accepted files are well formed.

  Model. A file is well formed when it has one header line, the header declares as many clauses as
  there are, and the tokens of the other lines, comments aside, are the clauses as they are
  written (`WellFormed`).

  What is not so is that every field is one token: a zero ends a clause at once, so it may stand
  directly in front of another zero or of a number (`accepts_glued_zero`). Of a file without such
  fields the fields are the clauses as they are written (`wellFormed_of_read`).
-/
import ClauseLearning.Proofs.Dimacs.File

namespace ClauseLearning.Dimacs

open Decimal (numeral IsNumeral)

/-- The text is that of a file with the header and the clauses. -/
structure WellFormed (text : List Char) (h : Header) (clauses : List (List Int)) : Prop where
  /-- There is one header line. -/
  header : ∃ above below, Divided text above h below
  /-- There are as many clauses as declared. -/
  numClauses : h.numClauses = clauses.length
  /-- The other lines, comments aside, hold the clauses and nothing else. -/
  tokens : bodyTokens (lines text) = written clauses
  /-- A field is one number without a zero in front, if it is not made of zeros; and zeros may
      stand directly in front of it. -/
  fields : ∀ w ∈ bodyFields (lines text),
    ∃ k t, w = List.replicate k '0' ++ t ∧ (t = [] ∨ IsNumeral t)
  /-- Zero is no literal. -/
  nonzero : ∀ c ∈ clauses, ∀ n ∈ c, n ≠ 0

variable {text w t : List Char} {ls us : List (List Char)} {clauses : List (List Int)} {h : Header}

/-! ## Accepted files -/

/-- The lines of a file that are taken are those of a well-formed one. -/
theorem Reader.TakesFile.wellFormed (taken : Reader.TakesFile text h clauses) :
    WellFormed text h clauses := by
  obtain ⟨count, above, below, r, divided, first, rest⟩ := Reader.takesFile_iff_divided.1 taken
  have tokens : bodyTokens (lines text) = written clauses := by
    have before : r.taken = bodyTokens above := first.added.taken
    have all : Reader.taken ⟨.lineStart, some h, [], clauses.reverse⟩ =
        r.taken ++ bodyTokens below := rest.added.taken
    obtain ⟨⟨head, e, marked, -⟩, -⟩ := divided
    rw [e, bodyTokens_append, bodyTokens_cons_marked (.inr marked), ← before, ← all]
    simp [Reader.taken]
  have nonzero : ∀ c ∈ clauses, ∀ n ∈ c, n ≠ 0 := fun c hc n hn => by
    obtain ⟨early, late, parts⟩ := taken.parts
    exact (parts.fits n (parts.literals ▸ List.mem_flatten.2 ⟨c, hc, hn⟩)).1
  refine ⟨⟨above, below, divided⟩, count, tokens, fun w hw => ?_, nonzero⟩
  obtain ⟨k, t, e, empty | ⟨ht, other⟩⟩ := tokens_eq w
  · exact ⟨k, t, e, .inl empty⟩
  · have inFile : t ∈ bodyTokens (lines text) := List.mem_flatMap.2 ⟨w, hw, ht⟩
    rw [tokens] at inFile
    exact ⟨k, t, e, .inr ((isNumeral_of_mem_written nonzero inFile).resolve_left other)⟩

/-- An accepted file is well formed. If no zero stands directly in front of another token, its
    fields are the clauses as they are written, so each of them is a zero or a number without a
    zero in front. -/
theorem wellFormed_of_read {chunks : List (List UInt8)} {breaksOff : Bool} {n? : Option Nat}
    (e : read chunks breaksOff = ⟨n?, clauses, none⟩) :
    ∃ h, n? = some h.numVariables ∧ WellFormed (content chunks) h clauses ∧
      ((∀ w ∈ bodyFields (lines (content chunks)), w.head? = some '0' → w = ['0']) →
        bodyFields (lines (content chunks)) = written clauses ∧
        ∀ w ∈ bodyFields (lines (content chunks)), w = ['0'] ∨ IsNumeral w) := by
  obtain ⟨h, numVariables, taken⟩ := takesFile_of_read e
  have wellFormed := taken.wellFormed
  refine ⟨h, numVariables, wellFormed, fun alone => ?_⟩
  have fields : bodyFields (lines (content chunks)) = written clauses := by
    rw [← wellFormed.tokens]
    exact (flatMap_tokens fun w hw =>
      tokens_eq_self (nonempty_of_mem_bodyFields hw) (alone w hw)).symm
  exact ⟨fields, fun w hw => isNumeral_of_mem_written wellFormed.nonzero (fields ▸ hw)⟩

theorem wellFormed_of_read_comment_within_clause : ∃ chunks,
    chunks = [bytesOf "c two rules\n p cnf 11 2 \n1 -", bytesOf "2\nc within\n 10 0\n\t-11 0"] ∧
    read chunks false = ⟨some 11, [[1, -2, 10], [-11]], none⟩ ∧
    ∃ h, some 11 = some h.numVariables ∧
      WellFormed (content chunks) h [[1, -2, 10], [-11]] ∧
      bodyFields (lines (content chunks)) = written [[1, -2, 10], [-11]] ∧
      ∀ w ∈ bodyFields (lines (content chunks)), w = ['0'] ∨ IsNumeral w := by
  have e : read [bytesOf "c two rules\n p cnf 11 2 \n1 -",
      bytesOf "2\nc within\n 10 0\n\t-11 0"] false = ⟨some 11, [[1, -2, 10], [-11]], none⟩ := by
    decide +kernel
  obtain ⟨h, numVariables, wellFormed, fields⟩ := wellFormed_of_read e
  refine ⟨_, rfl, e, h, numVariables, wellFormed, fields ?_⟩
  have found : bodyFields (lines (content [bytesOf "c two rules\n p cnf 11 2 \n1 -",
      bytesOf "2\nc within\n 10 0\n\t-11 0"])) =
        [['1'], ['-', '2'], ['1', '0'], ['0'], ['-', '1', '1'], ['0']] := by
    decide +kernel
  rw [found]
  decide

/-- A zero that is glued to the number behind it ends the clause all the same, so a file is
    accepted of which one field is neither a zero nor a number without a zero in front. -/
theorem accepts_glued_zero :
    read [bytesOf "p cnf 2 2\n1 02 0\n"] false = ⟨some 2, [[1], [2]], none⟩ ∧
      bodyFields (lines (content [bytesOf "p cnf 2 2\n1 02 0\n"])) = [['1'], ['0', '2'], ['0']] ∧
      ¬ ∀ w ∈ bodyFields (lines (content [bytesOf "p cnf 2 2\n1 02 0\n"])),
        w = ['0'] ∨ IsNumeral w := by
  have fields : bodyFields (lines (content [bytesOf "p cnf 2 2\n1 02 0\n"])) =
      [['1'], ['0', '2'], ['0']] := by
    decide +kernel
  refine ⟨by decide +kernel, fields, fun all => ?_⟩
  rw [fields] at all
  rcases all ['0', '2'] (.tail _ (.head _)) with e | numeral
  · cases e
  · exact (Decimal.isMagnitude_cons.1 ((Decimal.isNumeral_unsigned (by decide)).1 numeral)).2.1 rfl

end ClauseLearning.Dimacs
