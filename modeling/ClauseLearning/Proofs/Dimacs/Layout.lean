/-
  How a DIMACS file is laid out.

  Model. A file has lines, and the first character of a line that is no space is its mark: a line
  marked with a `c` is a comment and one marked with a `p` a header (`mark?`). What the other
  lines hold are fields, the longest runs of characters that are no spaces. The clauses are
  written as the numerals of their literals, with a zero behind those of each clause (`written`).

  Zeros in front of a field are tokens of their own, since a zero ends a clause whatever stands
  behind it (`tokens`).
-/
import ClauseLearning.Dimacs.Reader
import ClauseLearning.Proofs.Decimal.Numeral

namespace ClauseLearning.Dimacs

open Reader (isSpace)
open Decimal (numeral IsNumeral)

/-- The lines of a text, without the line breaks between them. -/
def lines (text : List Char) : List (List Char) := text.splitOn '\n'

/-- The first character of a line that is no space. -/
def mark? (line : List Char) : Option Char := line.find? (!isSpace ·)

/-- The line is a comment. -/
def IsComment (line : List Char) : Prop := mark? line = some 'c'

/-- The line is a header. -/
def IsHeader (line : List Char) : Prop := mark? line = some 'p'

instance : DecidablePred IsComment := fun line => inferInstanceAs (Decidable (mark? line = _))

instance : DecidablePred IsHeader := fun line => inferInstanceAs (Decidable (mark? line = _))

/-- The longest runs of characters that are no spaces. -/
def fields (cs : List Char) : List (List Char) := (cs.splitOnP isSpace).filter (!·.isEmpty)

/-- The fields of the lines that are neither comments nor headers. -/
def bodyFields (ls : List (List Char)) : List (List Char) :=
  (ls.filter fun line => ¬ IsComment line ∧ ¬ IsHeader line).flatMap fields

/-- The zeros in front of a field, each by itself, and what follows them. -/
def tokens : List Char → List (List Char)
  | [] => []
  | c :: cs => if c = '0' then ['0'] :: tokens cs else [c :: cs]

/-- The tokens of the lines that are neither comments nor headers. -/
def bodyTokens (ls : List (List Char)) : List (List Char) := (bodyFields ls).flatMap tokens

/-- The clauses, token by token. -/
def written (clauses : List (List Int)) : List (List Char) :=
  clauses.flatMap fun c => c.map numeral ++ [['0']]

variable {c : Char} {cs w line text t : List Char} {ls : List (List Char)}
  {clauses : List (List Int)}

/-! ## Lines of a text -/

theorem lines_nil : lines [] = [[]] := List.splitOn_nil _

theorem lines_break (cs : List Char) : lines ('\n' :: cs) = [] :: lines cs := by
  rw [lines, List.splitOn_cons_eq_if_modifyHead, if_pos (beq_self_eq_true _)]
  rfl

theorem lines_cons (within : c ≠ '\n') (cs : List Char) :
    lines (c :: cs) = (lines cs).modifyHead (c :: ·) := by
  rw [lines, List.splitOn_cons_eq_if_modifyHead, if_neg (by simpa using within)]
  rfl

theorem lines_ne_nil (text : List Char) : lines text ≠ [] := List.splitOn_ne_nil _ _

/-- With a line break behind each of them, the lines are the text and one more line break. -/
theorem flatMap_lines (text : List Char) :
    (lines text).flatMap (· ++ ['\n']) = text ++ ['\n'] := by
  induction text with
  | nil => rfl
  | cons c cs ih =>
    by_cases within : c = '\n'
    · subst within
      rw [lines_break, List.flatMap_cons, ih]
      rfl
    · rw [lines_cons within]
      cases e : lines cs with
      | nil => exact absurd e (lines_ne_nil cs)
      | cons l ls =>
        rw [List.modifyHead_cons, List.flatMap_cons, List.cons_append, List.cons_append,
          List.cons_append, ← ih, e, List.flatMap_cons]

theorem single_of_mem_lines (h : line ∈ lines text) : '\n' ∉ line := by
  induction text generalizing line with
  | nil =>
    rw [lines_nil, List.mem_singleton] at h
    simp [h]
  | cons c cs ih =>
    by_cases within : c = '\n'
    · subst within
      rw [lines_break, List.mem_cons] at h
      rcases h with rfl | h
      · exact List.not_mem_nil
      · exact ih h
    · rw [lines_cons within] at h
      cases e : lines cs with
      | nil => exact absurd e (lines_ne_nil cs)
      | cons l ls =>
        rw [e, List.modifyHead_cons, List.mem_cons] at h
        rcases h with rfl | h
        · have rest : '\n' ∉ l := ih (e ▸ .head _)
          simp [rest, Ne.symm within]
        · exact ih (e ▸ .tail _ h)

/-! ## Fields -/

theorem fields_nil : fields [] = [] := by
  rw [fields, List.splitOnP_nil]
  rfl

theorem fields_space {c : Char} (space : isSpace c = true) (cs : List Char) :
    fields (c :: cs) = fields cs := by
  rw [fields, List.splitOnP_cons_eq_if_modifyHead, if_pos space]
  rfl

theorem fields_word {w : List Char} (nonempty : w ≠ []) (word : ∀ c ∈ w, isSpace c = false) :
    fields w = [w] := by
  rw [fields, List.splitOnP_eq_singleton word, List.filter_cons_of_pos (by simpa using nonempty)]
  rfl

theorem fields_word_space {w : List Char} (nonempty : w ≠ []) (word : ∀ c ∈ w, isSpace c = false)
    {c : Char} (space : isSpace c = true) (cs : List Char) :
    fields (w ++ c :: cs) = w :: fields cs := by
  rw [fields, List.splitOnP_append_cons_of_forall_mem word _ space,
    List.filter_cons_of_pos (by simpa using nonempty)]
  rfl

theorem ne_nil_of_mem_fields {w cs : List Char} (h : w ∈ fields cs) : w ≠ [] := by
  simpa using (List.mem_filter.1 h).2

/-- A text is empty, it begins with a space, or it begins with a word that ends with a space or
    with the text. -/
theorem fieldwise {motive : List Char → Prop} (nil : motive [])
    (space : ∀ c cs, isSpace c = true → motive cs → motive (c :: cs))
    (word : ∀ w, w ≠ [] → (∀ c ∈ w, isSpace c = false) → motive w)
    (wordSpace : ∀ w c cs, w ≠ [] → (∀ c ∈ w, isSpace c = false) → isSpace c = true →
      motive cs → motive (w ++ c :: cs)) (cs : List Char) : motive cs := by
  induction h : cs.length using Nat.strongRecOn generalizing cs with
  | ind n ih =>
    subst h
    cases cs with
    | nil => exact nil
    | cons c cs =>
      by_cases blank : isSpace c = true
      · exact space c cs blank (ih cs.length (by simp) cs rfl)
      · have split := List.takeWhile_append_dropWhile (p := (!isSpace ·)) (l := c :: cs)
        have inWord : ∀ d ∈ (c :: cs).takeWhile (!isSpace ·), isSpace d = false := fun d hd => by
          simpa using List.all_eq_true.1 List.all_takeWhile d hd
        have nonempty : (c :: cs).takeWhile (!isSpace ·) ≠ [] := by simp [blank]
        rw [← split]
        cases e : (c :: cs).dropWhile (!isSpace ·) with
        | nil =>
          rw [List.append_nil]
          exact word _ nonempty inWord
        | cons d ds =>
          have ends : isSpace d = true := by
            have first := List.head?_dropWhile_not (!isSpace ·) (c :: cs)
            rw [e] at first
            simpa using first
          refine wordSpace _ d ds nonempty inWord ends (ih ds.length ?_ ds rfl)
          have shorter := congrArg List.length split
          rw [e] at shorter
          simp only [List.length_append, List.length_cons] at shorter ⊢
          omega

/-! ## Marks -/

theorem IsHeader.not_isComment (marked : IsHeader line) : ¬ IsComment line := fun marked' =>
  nomatch marked.symm.trans marked'

/-- A marked line has its mark behind spaces. -/
theorem mark?_eq_some (marked : mark? line = some c) :
    ∃ cs ds, line = cs ++ c :: ds ∧ ∀ d ∈ cs, isSpace d = true := by
  obtain ⟨-, cs, ds, e, spaces⟩ := List.find?_eq_some_iff_append.1 marked
  exact ⟨cs, ds, e, fun d hd => by simpa using spaces d hd⟩

theorem mark?_append (nonempty : w ≠ []) (word : ∀ c ∈ w, isSpace c = false) (cs : List Char) :
    mark? (w ++ cs) = w.head? := by
  cases w with
  | nil => exact absurd rfl nonempty
  | cons c w => exact List.find?_cons_of_pos (by simp [word c (.head _)])

/-- The mark of a line is the first character of its first field. -/
theorem mark?_eq (line : List Char) : mark? line = (fields line).head?.bind List.head? := by
  induction line using fieldwise with
  | nil => rfl
  | space c cs space ih =>
    rw [fields_space space, ← ih]
    exact List.find?_cons_of_neg (by simp [space])
  | word w nonempty word =>
    have marked := mark?_append nonempty word []
    rw [List.append_nil] at marked
    rw [fields_word nonempty word, marked]
    rfl
  | wordSpace w c cs nonempty word space ih =>
    rw [fields_word_space nonempty word space, mark?_append nonempty word]
    rfl

theorem fields_of_blank (blank : mark? line = none) : fields line = [] := by
  rw [mark?_eq] at blank
  cases e : fields line with
  | nil => rfl
  | cons w ws =>
    have nonempty : w ≠ [] := ne_nil_of_mem_fields (e ▸ List.mem_cons_self)
    rw [e] at blank
    exact absurd (List.head?_eq_none_iff.1 blank) nonempty

/-! ## Tokens -/

/-- A field is zeros and at most one token more. -/
theorem tokens_eq (w : List Char) : ∃ k t, w = List.replicate k '0' ++ t ∧
    (t = [] ∨ t ∈ tokens w ∧ t ≠ ['0']) := by
  induction w with
  | nil => exact ⟨0, [], rfl, .inl rfl⟩
  | cons c w ih =>
    by_cases zero : c = '0'
    · obtain ⟨k, t, e, rest⟩ := ih
      refine ⟨k + 1, t, by rw [zero, List.replicate_succ, List.cons_append, ← e], rest.imp_right ?_⟩
      rintro ⟨token, other⟩
      rw [tokens, if_pos zero]
      exact ⟨.tail _ token, other⟩
    · refine ⟨0, c :: w, rfl, .inr ⟨?_, fun e => zero (List.cons.inj e).1⟩⟩
      rw [tokens, if_neg zero]
      exact .head _

theorem tokens_eq_self (nonempty : w ≠ []) (alone : w.head? = some '0' → w = ['0']) :
    tokens w = [w] := by
  cases w with
  | nil => exact absurd rfl nonempty
  | cons c w =>
    by_cases zero : c = '0'
    · rw [alone (by rw [zero]; rfl)]
      rfl
    · rw [tokens, if_neg zero]

theorem flatMap_tokens {ts : List (List Char)} (each : ∀ t ∈ ts, tokens t = [t]) :
    ts.flatMap tokens = ts := by
  rw [List.flatMap_def, List.map_congr_left each, ← List.flatMap_def, List.flatMap_singleton']

theorem isNumeral_of_mem_written (nonzero : ∀ c ∈ clauses, ∀ n ∈ c, n ≠ 0)
    (ht : t ∈ written clauses) : t = ['0'] ∨ IsNumeral t := by
  obtain ⟨c, hc, ht⟩ := List.mem_flatMap.1 ht
  rcases List.mem_append.1 ht with ht | ht
  · obtain ⟨n, hn, rfl⟩ := List.mem_map.1 ht
    exact .inr (Decimal.isNumeral_iff.2 ⟨n, nonzero c hc n hn, rfl⟩)
  · exact .inl (List.mem_singleton.1 ht)

theorem tokens_written (nonzero : ∀ c ∈ clauses, ∀ n ∈ c, n ≠ 0) :
    (written clauses).flatMap tokens = written clauses := by
  refine flatMap_tokens fun t ht => ?_
  rcases isNumeral_of_mem_written nonzero ht with rfl | numeral
  · rfl
  · obtain ⟨c, cs, rfl, other⟩ := numeral.exists_cons
    exact tokens_eq_self (List.cons_ne_nil c cs) fun e => absurd (Option.some.inj e) other

/-! ## The lines that are neither comments nor headers -/

theorem nonempty_of_mem_bodyFields (hw : w ∈ bodyFields ls) : w ≠ [] := by
  obtain ⟨line, -, hw⟩ := List.mem_flatMap.1 hw
  exact ne_nil_of_mem_fields hw

/-- Where there is no header, the fields are those of the lines that are no comments. -/
theorem bodyFields_eq (body : ∀ line ∈ ls, ¬ IsHeader line) :
    bodyFields ls = (ls.filter fun line => ¬ IsComment line).flatMap fields := by
  have same : ∀ line ∈ ls, decide (¬ IsComment line ∧ ¬ IsHeader line) =
      decide (¬ IsComment line) := fun line hl => by simp [body line hl]
  rw [bodyFields, List.filter_congr same]

theorem bodyTokens_cons_marked {line : List Char} (marked : IsComment line ∨ IsHeader line)
    (ls : List (List Char)) : bodyTokens (line :: ls) = bodyTokens ls := by
  rw [bodyTokens, bodyFields, List.filter_cons_of_neg]
  · rfl
  · rw [decide_eq_true_eq]
    rintro ⟨noComment, noHeader⟩
    exact marked.elim noComment noHeader

theorem bodyTokens_cons_body {line : List Char} (unmarked : ¬ IsComment line ∧ ¬ IsHeader line)
    (ls : List (List Char)) :
    bodyTokens (line :: ls) = (fields line).flatMap tokens ++ bodyTokens ls := by
  rw [bodyTokens, bodyFields, List.filter_cons_of_pos (by simpa using unmarked), List.flatMap_cons,
    List.flatMap_append]
  rfl

theorem bodyTokens_append (ls us : List (List Char)) :
    bodyTokens (ls ++ us) = bodyTokens ls ++ bodyTokens us := by
  simp [bodyTokens, bodyFields, List.flatMap_append]

end ClauseLearning.Dimacs
