/-
  Reading back what was written.

  Model. A formula is written in any layout: above the header line stand comments and blank lines,
  spaces may stand around the header, and below it stand, once the comments are taken out, the
  tokens of the clauses with spaces and line breaks between them (`LaysOut`).

  Rule. `read_layout`: a file that is such a text is read as the formula, whatever the chunks in
  which it comes.
-/
import ClauseLearning.Proofs.Dimacs.File

namespace ClauseLearning.Dimacs

open Reader (isSpace)
open Decimal (numeral wordBound)

/-- The header of a formula, without spaces around it. -/
def headerText (n m : Nat) : List Char :=
  Header.opening ++ (Nat.toDigits 10 n ++ ' ' :: Nat.toDigits 10 m)

/-- The text is a layout of the formula with the variables up to `n` and the given clauses. -/
def LaysOut (text : List Char) (n : Nat) (clauses : List (List Int)) : Prop :=
  ∃ above left right below,
    lines text = above ++ (left ++ headerText n clauses.length ++ right) :: below ∧
    (∀ line ∈ above, mark? line = none ∨ IsComment line) ∧
    (∀ c ∈ left ++ right, isSpace c = true) ∧
    (below.filter fun line => ¬ IsComment line).flatMap fields = written clauses

variable {n m : Nat} {c d : Char} {cs w line left right text : List Char} {ls : List (List Char)}
  {clauses : List (List Int)}

/-! ## The header -/

theorem words_blank (blank : isBlank c = true) (cs : List Char) : words (c :: cs) = words cs := by
  cases cs with
  | nil => exact if_pos blank
  | cons d cs => rw [words, if_pos blank]

/-- A word ends with a blank or with the line. -/
theorem words_append (nonempty : w ≠ []) (word : ∀ c ∈ w, isBlank c = false)
    (behind : ∀ c, cs.head? = some c → isBlank c = true) : words (w ++ cs) = w :: words cs := by
  induction w with
  | nil => exact absurd rfl nonempty
  | cons d w ih =>
    have first : ¬ isBlank d = true := by simp [word d (.head _)]
    cases w with
    | nil =>
      cases cs with
      | nil => exact if_neg first
      | cons c cs =>
        change words (d :: c :: cs) = _
        rw [words, if_neg first, if_pos (behind c rfl)]
    | cons e w =>
      have second : ¬ isBlank e = true := by simp [word e (.tail _ (.head _))]
      have rest := ih (List.cons_ne_nil e w) fun c hc => word c (.tail _ hc)
      change words (d :: e :: (w ++ cs)) = _
      rw [words, if_neg first, if_neg second]
      change extendFirst d (words (e :: w ++ cs)) = _
      rw [rest]
      rfl

theorem words_append_blank (nonempty : w ≠ []) (word : ∀ c ∈ w, isBlank c = false)
    (blank : isBlank c = true) (cs : List Char) : words (w ++ c :: cs) = w :: words cs := by
  have behind : ∀ d, (c :: cs).head? = some d → isBlank d = true := by
    rintro _ ⟨⟩
    exact blank
  rw [words_append nonempty word behind, words_blank blank]

theorem not_isBlank_of_isDigit (digit : c.isDigit = true) : isBlank c = false := by
  have range : 48 ≤ c.toNat ∧ c.toNat ≤ 57 := Char.isDigit_iff_toNat.1 digit
  simp [isBlank]
  omega

theorem opening_eq : Header.opening = ['p', ' ', 'c', 'n', 'f', ' '] := by
  decide

/-- The header of a formula says how many variables and clauses it has. -/
theorem ofLine?_headerText (hn : n < wordBound) (hm : m < wordBound) :
    Header.ofLine? (headerText n m) = some ⟨n, m⟩ := by
  have word (k : Nat) : ∀ c ∈ Nat.toDigits 10 k, isBlank c = false := fun c hc =>
    not_isBlank_of_isDigit (Decimal.toDigits_digits hc)
  have found : words (headerText n m) =
      [['p'], ['c', 'n', 'f'], Nat.toDigits 10 n, Nat.toDigits 10 m] := by
    have text : headerText n m = ['p'] ++ ' ' :: (['c', 'n', 'f'] ++ ' ' ::
        (Nat.toDigits 10 n ++ ' ' :: Nat.toDigits 10 m)) := by
      rw [headerText, opening_eq]
      rfl
    have last : words (Nat.toDigits 10 m ++ []) = _ :=
      words_append Nat.toDigits_ne_nil (word m) fun _ e => nomatch e
    rw [List.append_nil] at last
    have kind : ∀ c ∈ ['p'], isBlank c = false := by simp [isBlank]
    have name : ∀ c ∈ ['c', 'n', 'f'], isBlank c = false := by simp [isBlank]
    rw [text, words_append_blank (List.cons_ne_nil _ _) kind rfl,
      words_append_blank (List.cons_ne_nil _ _) name rfl,
      words_append_blank Nat.toDigits_ne_nil (word n) rfl, last]
    rfl
  have opens : Header.opening.isPrefixOf (headerText n m) = true :=
    List.isPrefixOf_iff_prefix.2 (List.prefix_append ..)
  rw [Header.ofLine?, if_pos opens, found]
  simp only [Decimal.readWord?_toDigits hn, Decimal.readWord?_toDigits hm]
  rfl

/-- Spaces around a text that neither begins nor ends with a blank do not count. -/
theorem trim_spaces (spaces : ∀ c ∈ left ++ right, isSpace c = true)
    (first : ∀ c, text.head? = some c → isBlank c = false)
    (last : ∀ c, text.getLast? = some c → isBlank c = false) (nonempty : text ≠ []) :
    trim (left ++ text ++ right) = text := by
  obtain ⟨spacesLeft, spacesRight⟩ := List.forall_mem_append.1 spaces
  have begins : (text ++ right).dropWhile isBlank = text ++ right := by
    cases text with
    | nil => exact absurd rfl nonempty
    | cons c text => exact List.dropWhile_cons_of_neg (by simp [first c rfl])
  have ends : text.reverse.dropWhile isBlank = text.reverse := by
    rw [List.getLast?_eq_head?_reverse] at last
    cases e : text.reverse with
    | nil => rfl
    | cons c cs => exact List.dropWhile_cons_of_neg (by simp [last c (by rw [e]; rfl)])
  have blank : ∀ c ∈ right.reverse, isBlank c = true := fun c hc =>
    isBlank_of_isSpace (spacesRight c (List.mem_reverse.1 hc))
  rw [List.append_assoc, trim_append spacesLeft, trim, begins, List.reverse_append,
    List.dropWhile_append_of_pos blank, ends, List.reverse_reverse]

theorem trim_headerText (spaces : ∀ c ∈ left ++ right, isSpace c = true) :
    trim (left ++ headerText n m ++ right) = headerText n m := by
  refine trim_spaces spaces (fun c hc => ?_) (fun c hc => ?_) (by simp [headerText, opening_eq])
  · rw [headerText, opening_eq] at hc
    cases hc
    rfl
  · have last : c ∈ Nat.toDigits 10 m := by
      cases e : (Nat.toDigits 10 m).getLast? with
      | none => exact absurd (List.getLast?_eq_none_iff.1 e) Nat.toDigits_ne_nil
      | some d =>
        simp only [headerText, List.getLast?_append, List.getLast?_cons, e, Option.getD_some,
          Option.some_or, Option.some.injEq] at hc
        exact hc ▸ List.mem_of_getLast? e
    exact not_isBlank_of_isDigit (Decimal.toDigits_digits last)

/-! ## The lines above and below -/

/-- Below the header of a layout there is no line with the mark of a header. -/
theorem not_isHeader_of_written (nonzero : ∀ c ∈ clauses, ∀ n ∈ c, n ≠ 0)
    (holds : ∀ w ∈ fields line, w ∈ written clauses) : ¬ IsHeader line := by
  intro marked
  rw [IsHeader, mark?_eq, Option.bind_eq_some_iff] at marked
  obtain ⟨w, first, marked⟩ := marked
  obtain ⟨rest, rfl⟩ : ∃ rest, w = 'p' :: rest := by
    cases w with
    | nil => cases marked
    | cons c rest => exact ⟨rest, by cases marked; rfl⟩
  rcases isNumeral_of_mem_written nonzero (holds _ (List.mem_of_head? first)) with e | numeral
  · cases e
  · have magnitude := (Decimal.isNumeral_unsigned (by decide)).1 numeral
    exact absurd (Decimal.isMagnitude_cons.1 magnitude).1 (by decide)

/-! ## Taking what was written -/

namespace Reader

variable {r : Reader} {k : Mode} {c : List Int} {h : Header}

theorem takesAll_numerals (admitted : ∀ l ∈ c, l ≠ 0 ∧ r.admits l = true) :
    r.TakesAll k (c.map numeral) { r with mode := k, pending := c.reverse ++ r.pending } := by
  induction c generalizing r with
  | nil => exact .nil
  | cons l c ih =>
    obtain ⟨⟨nonzero, inRange⟩, rest⟩ := List.forall_mem_cons.1 admitted
    have taken := ih (r := { r with mode := .between, pending := l :: r.pending }) rest
    rw [List.reverse_cons, List.append_assoc]
    exact .cons (.literal nonzero inRange) taken

/-- A clause that is written is taken. -/
theorem takesAll_clause (declared : r.header? = some h) (closed : r.pending = [])
    (admitted : ∀ l ∈ c, l ≠ 0 ∧ r.admits l = true) :
    r.TakesAll k (c.map numeral ++ [['0']]) { r with mode := k, clauses := c :: r.clauses } := by
  refine (takesAll_append (k := .between)).2 ⟨_, takesAll_numerals admitted, ?_⟩
  refine takesAll_cons.2 ⟨_, .zero (by simp [declared]), ?_⟩
  simpa [inMode, closed] using TakesAll.nil

/-- The clauses that are written are taken. -/
theorem takesAll_written (declared : r.header? = some h) (closed : r.pending = [])
    (admitted : ∀ c ∈ clauses, ∀ l ∈ c, l ≠ 0 ∧ r.admits l = true) :
    r.TakesAll k (written clauses)
      { r with mode := k, clauses := clauses.reverse ++ r.clauses } := by
  induction clauses generalizing r with
  | nil => exact .nil
  | cons c cs ih =>
    obtain ⟨first, rest⟩ := List.forall_mem_cons.1 admitted
    refine (takesAll_append (k := .between)).2 ⟨_, takesAll_clause declared closed first, ?_⟩
    have taken := ih (r := { r with mode := .between, clauses := c :: r.clauses }) declared closed
      rest
    rw [List.reverse_cons, List.append_assoc]
    exact taken

end Reader

/-! ## Reading back -/

theorem isHeader_headerText (spaces : ∀ c ∈ left, isSpace c = true) :
    IsHeader (left ++ headerText n m ++ right) := by
  rw [IsHeader, mark?, List.append_assoc, List.find?_append, headerText, opening_eq]
  have none : left.find? (!isSpace ·) = none := by simpa using spaces
  rw [none]
  rfl

/-- The lines of a layout are taken. -/
theorem LaysOut.takesFile (layout : LaysOut text n clauses) (hn : n < wordBound)
    (hm : clauses.length < wordBound) (inRange : ∀ c ∈ clauses, ∀ l ∈ c, l ≠ 0 ∧
      -2147483648 ≤ l ∧ l ≤ 2147483647 ∧ l.natAbs ≤ n) :
    Reader.TakesFile text ⟨n, clauses.length⟩ clauses := by
  obtain ⟨above, left, right, below, e, blank, spaces, body⟩ := layout
  have nonzero : ∀ c ∈ clauses, ∀ l ∈ c, l ≠ 0 := fun c hc l hl => (inRange c hc l hl).1
  have noHeaderAbove : ∀ line ∈ above, ¬ IsHeader line := fun line hl marked => by
    rcases blank line hl with unmarked | comment
    · cases unmarked.symm.trans marked
    · exact marked.not_isComment comment
  have noHeaderBelow : ∀ line ∈ below, ¬ IsHeader line := fun line hl marked => by
    refine not_isHeader_of_written nonzero (fun w hw => ?_) marked
    rw [← body]
    exact List.mem_flatMap.2
      ⟨line, List.mem_filter.2 ⟨hl, by simpa using marked.not_isComment⟩, hw⟩
  have tokensAbove : bodyTokens above = [] := by
    have noFields : (above.filter fun line => ¬ IsComment line).flatMap fields = [] := by
      refine List.flatMap_eq_nil_iff.2 fun line hl => ?_
      obtain ⟨mem, noComment⟩ := List.mem_filter.1 hl
      exact fields_of_blank ((blank line mem).resolve_right (by simpa using noComment))
    rw [bodyTokens, bodyFields_eq noHeaderAbove, noFields]
    rfl
  have tokensBelow : bodyTokens below = written clauses := by
    rw [bodyTokens, bodyFields_eq noHeaderBelow, body, tokens_written nonzero]
  refine Reader.takesFile_iff_divided.2 ⟨rfl, above, below, .start, ⟨⟨_, e, ?_, ?_⟩, ?_⟩, ?_, ?_⟩
  · exact isHeader_headerText fun c hc => spaces c (List.mem_append_left _ hc)
  · rw [trim_headerText spaces, ofLine?_headerText hn hm]
  · exact List.forall_mem_append.2 ⟨noHeaderAbove, noHeaderBelow⟩
  · rw [tokensAbove]
    exact .nil
  · rw [tokensBelow]
    have admitted : ∀ c ∈ clauses, ∀ l ∈ c, l ≠ 0 ∧
        Reader.admits ⟨.lineStart, some ⟨n, clauses.length⟩, [], []⟩ l = true := fun c hc l hl => by
      obtain ⟨nonzero, low, high, declared⟩ := inRange c hc l hl
      refine ⟨nonzero, Reader.admits_iff.2 ⟨⟨low, high⟩, ?_⟩⟩
      rintro h ⟨⟩
      exact declared
    have taken := Reader.takesAll_written (k := .lineStart) rfl rfl admitted
    rw [List.append_nil] at taken
    exact taken

/-- A formula is read back from every layout, in whatever chunks the text comes. -/
theorem read_layout {n : Nat} {clauses : List (List Int)} {chunks : List (List UInt8)}
    (hn : n < wordBound) (hm : clauses.length < wordBound)
    (inRange : ∀ c ∈ clauses, ∀ l ∈ c,
      l ≠ 0 ∧ -2147483648 ≤ l ∧ l ≤ 2147483647 ∧ l.natAbs ≤ n)
    (nonempty : [] ∉ chunks) (layout : LaysOut (chunks.flatten.map charOf) n clauses) :
    read chunks false = ⟨some n, clauses, none⟩ := by
  rw [← content_of_nonempty nonempty] at layout
  exact read_of_takesFile (layout.takesFile hn hm inRange)

theorem read_layout_comment_within_clause : ∃ chunks,
    chunks = [bytesOf "c two rules\n\n\t p cnf 1", bytesOf "1 3 \r\n1 -2\r\nc wit",
      bytesOf "hin 0\n 1", bytesOf "0 0 0\n\n-11\n0\nc"] ∧
    [] ∉ chunks ∧ LaysOut (chunks.flatten.map charOf) 11 [[1, -2, 10], [], [-11]] ∧
    read chunks false = ⟨some 11, [[1, -2, 10], [], [-11]], none⟩ := by
  have nonempty : [] ∉ [bytesOf "c two rules\n\n\t p cnf 1", bytesOf "1 3 \r\n1 -2\r\nc wit",
      bytesOf "hin 0\n 1", bytesOf "0 0 0\n\n-11\n0\nc"] := by
    decide
  have layout : LaysOut ([bytesOf "c two rules\n\n\t p cnf 1",
      bytesOf "1 3 \r\n1 -2\r\nc wit", bytesOf "hin 0\n 1",
      bytesOf "0 0 0\n\n-11\n0\nc"].flatten.map charOf) 11 [[1, -2, 10], [], [-11]] :=
    ⟨["c two rules".toList, []], "\t ".toList, " \r".toList,
      ["1 -2\r".toList, "c within 0".toList, " 10 0 0".toList, [], "-11".toList, "0".toList,
        "c".toList], by decide +kernel, by decide, by simp [isSpace], by decide +kernel⟩
  exact ⟨_, rfl, nonempty, layout,
    read_layout (by decide) (by decide) (by simp) nonempty layout⟩

end ClauseLearning.Dimacs
