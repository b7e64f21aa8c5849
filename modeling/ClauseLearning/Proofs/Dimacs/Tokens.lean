/-
  Reading a line, token by token.

  Model. A zero ends the clause and a numeral is one more number of it (`Takes`); neither depends
  on what the reader was in the middle of. A reader that takes tokens one after the other is
  then in a mode that the character behind them decides (`TakesAll`).

  Rule. `reads_line`: a line that is neither a comment nor a header is read to its end exactly if
  its tokens are taken, and the reader is then where they lead.
-/
import ClauseLearning.Proofs.Dimacs.Layout

namespace ClauseLearning.Dimacs.Reader

open Decimal (numeral IsNumeral IsMagnitude digitValue digitsValue)

variable {r r' q : Reader} {m k : Mode} {c : Char} {cs ds w line : List Char}
  {t : List Char} {ts us : List (List Char)}

/-! ## Characters -/

/-- The reader takes the characters and is then in the second state. -/
def Reads (r : Reader) (cs : List Char) (r' : Reader) : Prop := r.feed cs = (r', none)

theorem reads_nil : r.Reads [] q ↔ r = q := by
  rw [Reads, feed, Prod.mk.injEq, and_iff_left rfl]

theorem reads_cons : r.Reads (c :: cs) q ↔ ∃ r', r.step c = .ok r' ∧ r'.Reads cs q := by
  rw [Reads, feed]
  cases r.step c with
  | ok r₁ => simp [Reads]
  | error e => simp

theorem reads_append : r.Reads (cs ++ ds) q ↔ ∃ r', r.Reads cs r' ∧ r'.Reads ds q := by
  induction cs generalizing r with
  | nil => simp [reads_nil]
  | cons c cs ih =>
    rw [List.cons_append, reads_cons]
    simp only [reads_cons, ih]
    exact ⟨fun ⟨r₁, e, r₂, h, h'⟩ => ⟨r₂, ⟨r₁, e, h⟩, h'⟩,
      fun ⟨r₂, ⟨r₁, e, h⟩, h'⟩ => ⟨r₁, e, r₂, h, h'⟩⟩

/-! ## Tokens -/

/-- The reader in another mode. -/
def inMode (r : Reader) (m : Mode) : Reader := { r with mode := m }

theorem inMode_self (mode : r.mode = m) : r.inMode m = r := by
  subst mode
  rfl

/-- The reader takes a token. -/
inductive Takes (r : Reader) : List Char → Reader → Prop where
  /-- A zero ends the clause. There is a header. -/
  | zero (declared : r.header?.isSome = true) : Takes r ['0']
      { r with mode := .between, pending := [], clauses := r.pending.reverse :: r.clauses }
  /-- A number is in range. -/
  | literal {n : Int} (nonzero : n ≠ 0) (admitted : r.admits n = true) : Takes r (numeral n)
      { r with mode := .between, pending := n :: r.pending }

/-- The reader takes tokens and is then in the mode `m`. -/
inductive TakesAll (m : Mode) : Reader → List (List Char) → Reader → Prop where
  /-- No token. -/
  | nil {r : Reader} : TakesAll m r [] (r.inMode m)
  /-- A token, and more of them. -/
  | cons {r r' q : Reader} {t : List Char} {ts : List (List Char)} (first : r.Takes t r')
      (rest : TakesAll m r' ts q) : TakesAll m r (t :: ts) q

theorem takesAll_nil : r.TakesAll m [] q ↔ q = r.inMode m := by
  constructor
  · intro h
    cases h
    rfl
  · rintro rfl
    exact .nil

theorem takesAll_cons : r.TakesAll m (t :: ts) q ↔ ∃ r', r.Takes t r' ∧ r'.TakesAll m ts q := by
  constructor
  · intro h
    cases h with
    | cons first rest => exact ⟨_, first, rest⟩
  · rintro ⟨r', first, rest⟩
    exact .cons first rest

theorem TakesAll.mode (h : r.TakesAll m ts q) : q.mode = m := by
  induction h with
  | nil => rfl
  | cons _ _ ih => exact ih

/-- A token that is taken is a zero or a numeral. -/
theorem Takes.isNumeral (h : r.Takes t q) (other : t ≠ ['0']) : IsNumeral t := by
  cases h with
  | zero declared => exact absurd rfl other
  | literal nonzero admitted => exact Decimal.isNumeral_iff.2 ⟨_, nonzero, rfl⟩

theorem takes_zero : r.Takes ['0'] q ↔ r.header?.isSome = true ∧
    q = { r with mode := .between, pending := [], clauses := r.pending.reverse :: r.clauses } := by
  constructor
  · intro h
    generalize e : ['0'] = t at h
    cases h with
    | zero declared => exact ⟨declared, rfl⟩
    | literal nonzero admitted =>
      exact absurd (e ▸ Decimal.isNumeral_iff.2 ⟨_, nonzero, rfl⟩) Decimal.not_isNumeral_zero
  · rintro ⟨declared, rfl⟩
    exact .zero declared

theorem takes_numeral {n : Int} (nonzero : n ≠ 0) : r.Takes (numeral n) q ↔
    r.admits n = true ∧ q = { r with mode := .between, pending := n :: r.pending } := by
  constructor
  · intro h
    generalize e : numeral n = t at h
    cases h with
    | zero declared =>
      exact absurd (e ▸ Decimal.isNumeral_iff.2 ⟨n, nonzero, rfl⟩) Decimal.not_isNumeral_zero
    | literal nonzero' admitted =>
      cases Decimal.numeral_inj e
      exact ⟨admitted, rfl⟩
  · rintro ⟨admitted, rfl⟩
    exact .literal nonzero admitted

/-- What a token does does not depend on the mode. -/
theorem Takes.of_inMode (h : r.Takes t q) : (r.inMode k).Takes t q := by
  cases h with
  | zero declared => exact .zero declared
  | literal nonzero admitted => exact .literal nonzero admitted

theorem takesAll_inMode : (r.inMode k).TakesAll m ts q ↔ r.TakesAll m ts q := by
  cases ts with
  | nil =>
    rw [takesAll_nil, takesAll_nil]
    rfl
  | cons t ts =>
    rw [takesAll_cons, takesAll_cons]
    constructor
    · rintro ⟨r', first, rest⟩
      exact ⟨r', first.of_inMode (k := r.mode), rest⟩
    · rintro ⟨r', first, rest⟩
      exact ⟨r', first.of_inMode, rest⟩

theorem takesAll_append :
    r.TakesAll m (ts ++ us) q ↔ ∃ r', r.TakesAll k ts r' ∧ r'.TakesAll m us q := by
  induction ts generalizing r with
  | nil =>
    simp only [List.nil_append, takesAll_nil, exists_eq_left]
    exact takesAll_inMode.symm
  | cons t ts ih =>
    simp only [List.cons_append, takesAll_cons, ih]
    exact ⟨fun ⟨r₁, e, r₂, h, h'⟩ => ⟨r₂, ⟨r₁, e, h⟩, h'⟩,
      fun ⟨r₂, ⟨r₁, e, h⟩, h'⟩ => ⟨r₁, e, r₂, h, h'⟩⟩

/-! ## From the characters of a field to its tokens -/

/-- The mode behind a space that ends a field. -/
def afterSpace (c : Char) : Mode := if c = '\n' then .lineStart else .between

theorem step_between (mode : r.mode = .between) (space : isSpace c = true) :
    r.step c = .ok (r.inMode (afterSpace c)) := by
  unfold step afterSpace
  rw [mode]
  dsimp only
  split
  · rfl
  · rw [← mode]
    rfl

/-- A number is read to its end exactly if it goes on with digits and is in range. -/
theorem reads_number {negative : Bool} {n : Nat} (mode : r.mode = .number negative n)
    (word : ∀ d ∈ ds, isSpace d = false) (space : isSpace c = true) :
    r.Reads (ds ++ [c]) q ↔ (∀ d ∈ ds, d.isDigit = true) ∧
      r.admits (signed negative (Nat.ofDigitChars 10 ds n)) = true ∧
      q = ({ r with pending := signed negative (Nat.ofDigitChars 10 ds n) :: r.pending }).inMode
        (afterSpace c) := by
  induction ds generalizing r n with
  | nil =>
    rw [List.nil_append, reads_cons, step, mode]
    simp only [space, if_true, endNumber, reads_nil, List.not_mem_nil, false_imp_iff, true_and,
      implies_true, Nat.ofDigitChars_nil]
    split
    · rename_i admitted
      simp only [Except.ok.injEq, exists_eq_left', admitted, true_and]
      exact eq_comm
    · rename_i refused
      simp [refused]
  | cons d ds ih =>
    rw [List.cons_append, reads_cons, step, mode]
    simp only [word d (.head _), Bool.false_eq_true, if_false, List.forall_mem_cons]
    split
    · rename_i digit
      simp only [Except.ok.injEq, exists_eq_left', digit, true_and]
      rw [ih rfl fun c hc => word c (.tail _ hc)]
      rfl
    · rename_i other
      simp [other]

/-- The sign of a number. -/
def sign (negative : Bool) : List Char := if negative then ['-'] else []

theorem numeral_signed (negative : Bool) {n : Nat} (pos : 0 < n) :
    numeral (signed negative n) = sign negative ++ Nat.toDigits 10 n := by
  unfold signed sign
  split
  · rw [Decimal.numeral_of_neg (by omega), Int.natAbs_neg, Int.natAbs_natCast]
    rfl
  · rw [Decimal.numeral_of_nonneg (by omega), Int.natAbs_natCast]
    rfl

theorem signed_ne_zero {negative : Bool} {n : Nat} (pos : 0 < n) : signed negative n ≠ 0 := by
  unfold signed
  split <;> omega

theorem isNumeral_sign {negative : Bool} {d : Char} (leading : isLeadingDigit d = true)
    (h : IsNumeral (sign negative ++ d :: ds)) : IsMagnitude (d :: ds) := by
  unfold sign at h
  split at h
  · exact Decimal.isNumeral_minus.1 h
  · refine (Decimal.isNumeral_unsigned ?_).1 h
    rintro rfl
    exact absurd leading (by decide)

/-- A number that has begun with a digit is read to its end exactly if it is a token that can be
    taken. -/
theorem reads_magnitude (negative : Bool) {d : Char}
    (mode : r.mode = .number negative (digitValue d)) (leading : isLeadingDigit d = true)
    (word : ∀ d ∈ ds, isSpace d = false) (space : isSpace c = true) :
    r.Reads (ds ++ [c]) q ↔ r.TakesAll (afterSpace c) [sign negative ++ d :: ds] q := by
  rw [reads_number mode word space, takesAll_cons]
  simp only [takesAll_nil]
  have begins : d.isDigit = true ∧ d ≠ '0' := by simpa [isLeadingDigit] using leading
  by_cases digits : ∀ c ∈ ds, c.isDigit = true
  · have magnitude : IsMagnitude (d :: ds) :=
      Decimal.isMagnitude_cons.2 ⟨begins.1, begins.2, digits⟩
    obtain ⟨e, pos⟩ := magnitude.toDigits
    have token := numeral_signed negative pos
    rw [e] at token
    rw [← token, ← Decimal.digitsValue_cons]
    simp only [takes_numeral (signed_ne_zero pos), and_assoc, exists_and_left, exists_eq_left]
    exact and_iff_right digits
  · refine iff_of_false (fun h => digits h.1) ?_
    rintro ⟨r', taken, -⟩
    have other : sign negative ++ d :: ds ≠ ['0'] := by
      cases negative <;> simp [sign, begins.2]
    have magnitude := isNumeral_sign leading (taken.isNumeral other)
    exact digits (Decimal.isMagnitude_cons.1 magnitude).2.2

theorem not_takesAll (nonzero : c ≠ '0') (other : ¬ IsNumeral (c :: w)) :
    ¬ r.TakesAll m [c :: w] q := by
  intro h
  obtain ⟨r', taken, -⟩ := takesAll_cons.1 h
  exact other (taken.isNumeral fun e => nonzero (List.cons.inj e).1)

theorem isLeadingDigit_of_isMagnitude (h : IsMagnitude (c :: w)) : isLeadingDigit c = true := by
  obtain ⟨digit, nonzero, -⟩ := Decimal.isMagnitude_cons.1 h
  simp [isLeadingDigit, digit, nonzero]

theorem isLeadingDigit_of_isSpace (space : isSpace c = true) : isLeadingDigit c = false := by
  simp only [isSpace, Bool.or_eq_true, beq_iff_eq] at space
  rcases space with (((rfl | rfl) | rfl) | rfl) | rfl <;> rfl

/-- A number is read to its end exactly if it is a token that can be taken. -/
theorem reads_numeral (nonzero : c ≠ '0') (word : ∀ d ∈ w, isSpace d = false) {s : Char}
    (space : isSpace s = true) :
    (∃ r', r.startNumber c = .ok r' ∧ r'.Reads (w ++ [s]) q) ↔
      r.TakesAll (afterSpace s) [c :: w] q := by
  rw [startNumber, if_neg nonzero]
  split
  · rename_i leading
    simp only [Except.ok.injEq, exists_eq_left']
    rw [reads_magnitude false rfl leading word space]
    exact takesAll_inMode
  · rename_i other
    split
    · rename_i minus
      subst minus
      simp only [Except.ok.injEq, exists_eq_left']
      -- a digit other than zero must stand behind the sign
      cases w with
      | nil =>
        rw [List.nil_append, reads_cons, step]
        dsimp only
        rw [if_neg (by simp [isLeadingDigit_of_isSpace space])]
        refine iff_of_false (by simp) (not_takesAll nonzero fun numeral => ?_)
        obtain ⟨_, _, e, -⟩ := Decimal.isNumeral_minus.1 numeral
        cases e
      | cons d ds =>
        rw [List.cons_append, reads_cons, step]
        dsimp only
        by_cases leading : isLeadingDigit d = true
        · rw [if_pos leading]
          simp only [Except.ok.injEq, exists_eq_left']
          rw [reads_magnitude true rfl leading (fun c hc => word c (.tail _ hc)) space]
          exact takesAll_inMode
        · rw [if_neg leading]
          refine iff_of_false (by simp) (not_takesAll nonzero fun numeral => leading ?_)
          exact isLeadingDigit_of_isMagnitude (Decimal.isNumeral_minus.1 numeral)
    · rename_i unsigned
      refine iff_of_false (by simp) (not_takesAll nonzero fun numeral => other ?_)
      exact isLeadingDigit_of_isMagnitude ((Decimal.isNumeral_unsigned unsigned).1 numeral)

/-! ## Fields and lines -/

theorem endClause_ok : r.endClause = .ok q ↔ r.Takes ['0'] q := by
  rw [takes_zero, endClause]
  cases r.header? with
  | none => simp
  | some h => simp [eq_comm]

/-- A field is read to its end exactly if its tokens are taken, where that holds of what is behind
    its first character. -/
theorem reads_field {s : Char} (first : r.step c = r.startNumber c)
    (word : ∀ d ∈ w, isSpace d = false) (space : isSpace s = true)
    (rest : ∀ r' : Reader, r'.mode = .between →
      (r'.Reads (w ++ [s]) q ↔ r'.TakesAll (afterSpace s) (tokens w) q)) :
    r.Reads (c :: w ++ [s]) q ↔ r.TakesAll (afterSpace s) (tokens (c :: w)) q := by
  rw [List.cons_append, reads_cons, first, tokens]
  split
  · rename_i zero
    subst zero
    rw [startNumber, if_pos rfl, takesAll_cons]
    simp only [endClause_ok]
    refine exists_congr fun r' => and_congr_right fun taken => rest r' ?_
    obtain ⟨-, rfl⟩ := takes_zero.1 taken
    rfl
  · rename_i nonzero
    exact reads_numeral nonzero word space

theorem step_word (mode : r.mode = .between) (word : isSpace c = false) :
    r.step c = r.startNumber c := by
  have noBreak : c ≠ '\n' := by
    rintro rfl
    cases word
  rw [step, mode]
  dsimp only
  rw [if_neg noBreak, if_neg (by simp [word])]

theorem reads_tokens {s : Char} (mode : r.mode = .between) (word : ∀ d ∈ w, isSpace d = false)
    (space : isSpace s = true) :
    r.Reads (w ++ [s]) q ↔ r.TakesAll (afterSpace s) (tokens w) q := by
  induction w generalizing r with
  | nil =>
    rw [List.nil_append, reads_cons, step_between mode space, tokens, takesAll_nil]
    simp [reads_nil, eq_comm]
  | cons c w ih =>
    have behind : ∀ d ∈ w, isSpace d = false := fun d hd => word d (.tail _ hd)
    exact reads_field (step_word mode (word c (.head _))) behind space fun r' mode' =>
      ih mode' behind

/-- At the start of a line, too, a number begins with what is no space and no mark. -/
theorem step_body (mode : r.mode = .lineStart ∨ r.mode = .between)
    (body : r.mode = .lineStart → c ≠ 'c' ∧ c ≠ 'p') (word : isSpace c = false) :
    r.step c = r.startNumber c := by
  rcases mode with mode | mode
  · obtain ⟨comment, header⟩ := body mode
    rw [step, mode]
    dsimp only
    rw [if_neg (by simp [word]), if_neg header, if_neg comment]
  · exact step_word mode word

theorem step_space (mode : r.mode = .lineStart ∨ r.mode = .between) (space : isSpace c = true)
    (within : c ≠ '\n') : r.step c = .ok r := by
  rw [step]
  rcases mode with mode | mode
  · rw [mode]
    exact if_pos space
  · rw [mode]
    dsimp only
    rw [if_neg within, if_pos space]

theorem step_break (mode : r.mode = .lineStart ∨ r.mode = .between) :
    r.step '\n' = .ok (r.inMode .lineStart) := by
  rcases mode with mode | mode
  · rw [step, mode, inMode_self mode]
    rfl
  · exact step_between mode rfl

/-- A field is read to its end exactly if its tokens are taken. -/
theorem reads_word {s : Char} (mode : r.mode = .lineStart ∨ r.mode = .between)
    (body : r.mode = .lineStart → ¬ IsComment (w ++ cs) ∧ ¬ IsHeader (w ++ cs)) (nonempty : w ≠ [])
    (word : ∀ d ∈ w, isSpace d = false) (space : isSpace s = true) :
    r.Reads (w ++ [s]) q ↔ r.TakesAll (afterSpace s) (tokens w) q := by
  cases w with
  | nil => exact absurd rfl nonempty
  | cons c w =>
    have first : isSpace c = false := word c (.head _)
    have behind : ∀ d ∈ w, isSpace d = false := fun d hd => word d (.tail _ hd)
    refine reads_field (step_body mode ?_ first) behind space fun r' mode' =>
      reads_tokens mode' behind space
    simpa [IsComment, IsHeader, mark?, first] using body

/-- A line that is neither a comment nor a header is read to its end exactly if its tokens are
    taken. -/
theorem reads_line (mode : r.mode = .lineStart ∨ r.mode = .between)
    (body : r.mode = .lineStart → ¬ IsComment line ∧ ¬ IsHeader line) (single : '\n' ∉ line) :
    r.Reads (line ++ ['\n']) q ↔ r.TakesAll .lineStart ((fields line).flatMap tokens) q := by
  induction line using fieldwise generalizing r with
  | nil =>
    rw [List.nil_append, reads_cons, step_break mode, fields_nil, List.flatMap_nil, takesAll_nil]
    simp [reads_nil, eq_comm]
  | space c cs space ih =>
    have within : c ≠ '\n' := fun e => single (e ▸ .head _)
    rw [List.cons_append, reads_cons, step_space mode space within, fields_space space]
    simp only [Except.ok.injEq, exists_eq_left']
    refine ih mode ?_ fun h => single (.tail _ h)
    simpa [IsComment, IsHeader, mark?, space] using body
  | word w nonempty word =>
    rw [fields_word nonempty word, List.flatMap_singleton]
    rw [← List.append_nil w] at body
    exact reads_word mode body nonempty word rfl
  | wordSpace w c cs nonempty word space ih =>
    have within : c ≠ '\n' := fun e => single (by simp [e])
    have behind : afterSpace c = .between := if_neg within
    have split : w ++ c :: cs ++ ['\n'] = (w ++ [c]) ++ (cs ++ ['\n']) := by simp
    rw [fields_word_space nonempty word space, List.flatMap_cons, takesAll_append (k := .between),
      split, reads_append]
    refine exists_congr fun r' => ?_
    rw [reads_word mode body nonempty word space, behind]
    refine and_congr_right fun taken => ?_
    exact ih (.inr taken.mode) (fun start => by simp [taken.mode] at start) fun h =>
      single (List.mem_append_right _ (.tail _ h))

end ClauseLearning.Dimacs.Reader
