/-
  Reading a file, line by line.

  Model. A comment changes nothing, a header is the first one, and the tokens of every other line
  are taken (`TakesLine`). The end of the file ends a line as a line break does, except that a
  number can not stand there; since a clause would be left open, that is no file either way
  (`finish_iff`).

  Rule. `takesFile_of_read`, `read_of_takesFile`: a file is accepted exactly if its lines are
  taken and no clause is left open, whatever the chunks in which it comes.
-/
import ClauseLearning.Proofs.Dimacs.Tokens

namespace ClauseLearning.Dimacs

variable {cs ds line text : List Char} {ls : List (List Char)} {c : Char}

/-! ## Blanks -/

theorem isBlank_of_isSpace (space : Reader.isSpace c = true) : isBlank c = true := by
  simp only [Reader.isSpace, Bool.or_eq_true, beq_iff_eq] at space
  rcases space with (((rfl | rfl) | rfl) | rfl) | rfl <;> rfl

/-- Spaces in front do not count. -/
theorem trim_append (spaces : ∀ c ∈ cs, Reader.isSpace c = true) (ds : List Char) :
    trim (cs ++ ds) = trim ds := by
  rw [trim, List.dropWhile_append_of_pos fun c hc => isBlank_of_isSpace (spaces c hc)]
  rfl

namespace Reader

variable {r r' q : Reader}

/-- The reader takes a line. -/
inductive TakesLine (r : Reader) (line : List Char) : Reader → Prop where
  /-- A comment. -/
  | comment (marked : IsComment line) : TakesLine r line r
  /-- The header, where there was none before. -/
  | header {h : Header} (marked : IsHeader line) (reads : Header.ofLine? (trim line) = some h)
      (first : r.header? = none) : TakesLine r line { r with header? := some h }
  /-- The tokens of any other line. -/
  | body {q : Reader} (unmarked : ¬ IsComment line ∧ ¬ IsHeader line)
      (taken : r.TakesAll .lineStart ((fields line).flatMap tokens) q) : TakesLine r line q

/-- The reader takes lines, one after the other. -/
inductive TakesLines : Reader → List (List Char) → Reader → Prop where
  /-- No line. -/
  | nil {r : Reader} : TakesLines r [] r
  /-- A line, and more of them. -/
  | cons {r r' q : Reader} {line : List Char} {ls : List (List Char)}
      (first : r.TakesLine line r') (rest : r'.TakesLines ls q) : TakesLines r (line :: ls) q

/-! ## From characters to lines -/

theorem reads_spaces (mode : r.mode = .lineStart) (spaces : ∀ c ∈ cs, isSpace c = true) :
    r.Reads (cs ++ ds) q ↔ r.Reads ds q := by
  induction cs with
  | nil => exact .rfl
  | cons c cs ih =>
    have first : r.step c = .ok r := by
      rw [step, mode]
      exact if_pos (spaces c (.head _))
    rw [List.cons_append, reads_cons, first]
    simp only [Except.ok.injEq, exists_eq_left']
    exact ih fun d hd => spaces d (.tail _ hd)

theorem reads_comment (mode : r.mode = .comment) (single : '\n' ∉ cs) :
    r.Reads (cs ++ ['\n']) q ↔ q = r.inMode .lineStart := by
  induction cs with
  | nil =>
    rw [List.nil_append, reads_cons, step, mode]
    simp [reads_nil, inMode, eq_comm]
  | cons c cs ih =>
    have within : c ≠ '\n' := fun e => single (e ▸ .head _)
    rw [List.cons_append, reads_cons, step, mode]
    simp only [within, if_false, Except.ok.injEq, exists_eq_left']
    exact ih fun h => single (.tail _ h)

theorem reads_header {acc : List Char} (mode : r.mode = .header acc) (single : '\n' ∉ cs) :
    r.Reads (cs ++ ['\n']) q ↔ r.endHeader (cs.reverse ++ acc) = .ok q := by
  induction cs generalizing r acc with
  | nil =>
    rw [List.nil_append, reads_cons, step, mode]
    simp [reads_nil]
  | cons c cs ih =>
    have within : c ≠ '\n' := fun e => single (e ▸ .head _)
    rw [List.cons_append, reads_cons, step, mode]
    simp only [within, if_false, Except.ok.injEq, exists_eq_left']
    rw [ih rfl fun h => single (.tail _ h), List.reverse_cons, List.append_assoc]
    rfl

theorem endHeader_ok : r.endHeader line = .ok q ↔ ∃ h, Header.ofLine? (trim line.reverse) = some h ∧
    r.header? = none ∧ q = { r with mode := .lineStart, header? := some h } := by
  unfold endHeader
  dsimp only
  cases Header.ofLine? (trim line.reverse) with
  | none => simp
  | some h => cases r.header? <;> simp [eq_comm]

theorem takesLine_comment (marked : IsComment line) : r.TakesLine line q ↔ q = r := by
  constructor
  · intro h
    cases h with
    | comment => rfl
    | header marked' => exact absurd marked marked'.not_isComment
    | body unmarked => exact absurd marked unmarked.1
  · rintro rfl
    exact .comment marked

theorem takesLine_header (marked : IsHeader line) : r.TakesLine line q ↔
    ∃ h, Header.ofLine? (trim line) = some h ∧ r.header? = none ∧
      q = { r with header? := some h } := by
  constructor
  · intro h
    cases h with
    | comment marked' => exact absurd marked' marked.not_isComment
    | header _ reads first => exact ⟨_, reads, first, rfl⟩
    | body unmarked => exact absurd marked unmarked.2
  · rintro ⟨h, reads, first, rfl⟩
    exact .header marked reads first

theorem takesLine_body (unmarked : ¬ IsComment line ∧ ¬ IsHeader line) :
    r.TakesLine line q ↔ r.TakesAll .lineStart ((fields line).flatMap tokens) q := by
  constructor
  · intro h
    cases h with
    | comment marked => exact absurd marked unmarked.1
    | header marked => exact absurd marked unmarked.2
    | body _ taken => exact taken
  · exact .body unmarked

/-- At the start of a line, a mark decides what follows it. -/
theorem reads_marked (mode : r.mode = .lineStart) (marked : mark? line = some c) {m : Mode}
    (marks : r.step c = .ok (r.inMode m)) : ∃ cs ds, line = cs ++ c :: ds ∧
      (∀ d ∈ cs, isSpace d = true) ∧
      (r.Reads (line ++ ['\n']) q ↔ (r.inMode m).Reads (ds ++ ['\n']) q) := by
  obtain ⟨cs, ds, rfl, spaces⟩ := mark?_eq_some marked
  refine ⟨cs, ds, rfl, spaces, ?_⟩
  rw [List.append_assoc, reads_spaces mode spaces, List.cons_append, reads_cons, marks]
  simp only [Except.ok.injEq, exists_eq_left']

/-- A line is read to its end exactly if it is taken. -/
theorem reads_takesLine (mode : r.mode = .lineStart) (single : '\n' ∉ line) :
    r.Reads (line ++ ['\n']) q ↔ r.TakesLine line q := by
  by_cases comment : IsComment line
  · have marks : r.step 'c' = .ok (r.inMode .comment) := by
      rw [step, mode]
      rfl
    obtain ⟨cs, ds, rfl, -, reads⟩ := reads_marked (q := q) mode comment marks
    rw [reads, reads_comment rfl fun h => single (by simp [h]), takesLine_comment comment,
      ← inMode_self mode]
    rfl
  by_cases header : IsHeader line
  · have marks : r.step 'p' = .ok (r.inMode (.header ['p'])) := by
      rw [step, mode]
      rfl
    obtain ⟨cs, ds, rfl, spaces, reads⟩ := reads_marked (q := q) mode header marks
    have text : (ds.reverse ++ ['p']).reverse = 'p' :: ds := by simp
    rw [reads, reads_header rfl fun h => single (by simp [h]), takesLine_header header,
      endHeader_ok, text, trim_append spaces, ← inMode_self mode]
    rfl
  · rw [takesLine_body ⟨comment, header⟩]
    exact reads_line (.inl mode) (fun _ => ⟨comment, header⟩) single

theorem TakesLine.mode (h : r.TakesLine line q) (mode : r.mode = .lineStart) :
    q.mode = .lineStart := by
  cases h with
  | comment => exact mode
  | header => exact mode
  | body _ taken => exact taken.mode

theorem takesLines_cons : r.TakesLines (line :: ls) q ↔
    ∃ r', r.TakesLine line r' ∧ r'.TakesLines ls q := by
  constructor
  · intro h
    cases h with
    | cons first rest => exact ⟨_, first, rest⟩
  · rintro ⟨r', first, rest⟩
    exact .cons first rest

/-- Lines are read to the end of the last one exactly if they are taken. -/
theorem reads_takesLines (mode : r.mode = .lineStart) (single : ∀ line ∈ ls, '\n' ∉ line) :
    r.Reads (ls.flatMap (· ++ ['\n'])) q ↔ r.TakesLines ls q := by
  induction ls generalizing r with
  | nil =>
    rw [List.flatMap_nil, reads_nil]
    constructor
    · rintro rfl
      exact .nil
    · intro h
      cases h
      rfl
  | cons line ls ih =>
    rw [List.flatMap_cons, reads_append, takesLines_cons]
    refine exists_congr fun r' => ?_
    rw [reads_takesLine mode (single line (.head _))]
    exact and_congr_right fun taken => ih (taken.mode mode) fun l hl => single l (.tail _ hl)

/-! ## The end of the file -/

/-- What is right with a file as a whole: there is a header, no clause is left open, and there are
    as many clauses as declared. -/
theorem verdict?_eq_none : r.verdict? = none ↔
    ∃ h, r.header? = some h ∧ r.pending = [] ∧ h.numClauses = r.clauses.length := by
  unfold verdict?
  cases r.header? with
  | none => simp
  | some h =>
    by_cases ended : r.pending = [] <;> by_cases count : h.numClauses = r.clauses.length <;>
      simp [ended, count]

/-- Where the end of the file ends a line as a line break does, it is one. -/
theorem finish_of_endLine (r' : Reader) (ended : r.endLine = .ok r')
    (breaks : r.step '\n' = .ok (r'.inMode .lineStart)) :
    (∃ q', r.finish = (q', none) ∧ q'.inMode .lineStart = q) ↔
      r.step '\n' = .ok q ∧ q.verdict? = none := by
  rw [finish, ended, breaks]
  simp only [Prod.mk.injEq, Except.ok.injEq]
  constructor
  · rintro ⟨_, ⟨rfl, right⟩, rfl⟩
    exact ⟨rfl, right⟩
  · rintro ⟨rfl, right⟩
    exact ⟨r', ⟨rfl, right⟩, rfl⟩

/-- A line that can not end with the file does not end well with a line break either. -/
theorem finish_of_error {e : ReadError} (failed : r.endLine = .error e)
    (breaks : r.step '\n' = .ok q → q.verdict? ≠ none) :
    (∃ q', r.finish = (q', none) ∧ q'.inMode .lineStart = q) ↔
      r.step '\n' = .ok q ∧ q.verdict? = none := by
  refine iff_of_false ?_ fun h => breaks h.1 h.2
  rw [finish, failed]
  simp

/-- A file ends well exactly if it does with one more line break. -/
theorem finish_iff : (∃ q', r.finish = (q', none) ∧ q'.inMode .lineStart = q) ↔
    r.step '\n' = .ok q ∧ q.verdict? = none := by
  cases mode : r.mode with
  | lineStart =>
    refine finish_of_endLine r (by rw [endLine, mode]) ?_
    rw [inMode_self mode, step, mode]
    rfl
  | header line =>
    have breaks : r.step '\n' = r.endHeader line := by
      rw [step, mode]
      rfl
    have ended : r.endLine = r.endHeader line := by rw [endLine, mode]
    cases e : r.endHeader line with
    | ok r' =>
      have start : r'.mode = .lineStart := by
        obtain ⟨_, -, -, rfl⟩ := endHeader_ok.1 e
        rfl
      exact finish_of_endLine r' (ended.trans e) (by rw [inMode_self start, breaks, e])
    | error e' =>
      refine finish_of_error (ended.trans e) fun h => ?_
      rw [breaks, e] at h
      cases h
  | comment =>
    refine finish_of_endLine r (by rw [endLine, mode]) ?_
    rw [step, mode]
    rfl
  | minus =>
    refine finish_of_error (by rw [endLine, mode]) fun h => ?_
    rw [step, mode] at h
    cases h
  | number negative n =>
    -- the number belongs to a clause that is left open
    refine finish_of_error (by rw [endLine, mode]) fun h right => ?_
    obtain ⟨_, -, ended, -⟩ := verdict?_eq_none.1 right
    rw [step, mode] at h
    change r.endNumber _ _ = .ok q at h
    unfold endNumber at h
    split at h
    · cases h
      cases ended
    · cases h
  | between =>
    refine finish_of_endLine r (by rw [endLine, mode]) ?_
    exact step_between mode rfl

end Reader

/-! ## Chunks -/

/-- The bytes of a text of ASCII characters. -/
def bytesOf (text : String) : List UInt8 := text.toList.map fun c => c.toNat.toUInt8

/-- The characters of a file that comes in chunks, of which an empty one is the end. -/
def content (chunks : List (List UInt8)) : List Char :=
  (chunks.takeWhile (!·.isEmpty)).flatten.map charOf

theorem content_cons {bs : List UInt8} (nonempty : bs ≠ []) (chunks : List (List UInt8)) :
    content (bs :: chunks) = bs.map charOf ++ content chunks := by
  rw [content, List.takeWhile_cons_of_pos (by simpa using nonempty), List.flatten_cons,
    List.map_append]
  rfl

theorem content_of_nonempty {chunks : List (List UInt8)} (nonempty : [] ∉ chunks) :
    content chunks = chunks.flatten.map charOf := by
  induction chunks with
  | nil => rfl
  | cons bs chunks ih =>
    rw [List.mem_cons, not_or] at nonempty
    rw [content_cons (Ne.symm nonempty.1), ih nonempty.2, List.flatten_cons, List.map_append]

variable {chunks : List (List UInt8)} {r r' q : Reader} {h : Header} {clauses : List (List Int)}

theorem readOn_ok {breaksOff : Bool} (e : readOn breaksOff r chunks = (q, none)) :
    ∃ r', r.Reads (content chunks) r' ∧ r'.finish = (q, none) := by
  induction chunks generalizing r with
  | nil =>
    unfold readOn at e
    split at e
    · cases e
    · exact ⟨r, Reader.reads_nil.2 rfl, e⟩
  | cons bs chunks ih =>
    cases bs with
    | nil => exact ⟨r, Reader.reads_nil.2 rfl, e⟩
    | cons b bs =>
      unfold readOn at e
      split at e
      · rename_i r' reads
        obtain ⟨r'', rest, ends⟩ := ih e
        rw [content_cons (List.cons_ne_nil b bs)]
        exact ⟨r'', Reader.reads_append.2 ⟨r', reads, rest⟩, ends⟩
      · cases e

theorem readOn_of_reads (reads : r.Reads (content chunks) r') :
    readOn false r chunks = r'.finish := by
  induction chunks generalizing r with
  | nil =>
    cases Reader.reads_nil.1 reads
    rfl
  | cons bs chunks ih =>
    cases bs with
    | nil =>
      cases Reader.reads_nil.1 reads
      rfl
    | cons b bs =>
      rw [content_cons (List.cons_ne_nil b bs)] at reads
      obtain ⟨r₁, first, rest⟩ := Reader.reads_append.1 reads
      unfold readOn
      rw [first]
      exact ih rest

namespace Reader

/-- The reader has taken the lines of a file, with this header and these clauses. -/
def TakesFile (text : List Char) (h : Header) (clauses : List (List Int)) : Prop :=
  h.numClauses = clauses.length ∧
    start.TakesLines (lines text) ⟨.lineStart, some h, [], clauses.reverse⟩

theorem takesFile_iff : TakesFile text h clauses ↔ ∃ r q, start.Reads text r ∧
    r.finish = (q, none) ∧ q.header? = some h ∧ q.clauses = clauses.reverse := by
  have broken : ∀ q, start.TakesLines (lines text) q ↔
      ∃ r, start.Reads text r ∧ r.step '\n' = .ok q := by
    intro q
    rw [← reads_takesLines rfl fun line => single_of_mem_lines, flatMap_lines, reads_append]
    simp [reads_cons, reads_nil]
  rw [TakesFile, broken]
  constructor
  · rintro ⟨count, r, reads, breaks⟩
    have right : verdict? ⟨.lineStart, some h, [], clauses.reverse⟩ = none :=
      verdict?_eq_none.2 ⟨h, rfl, rfl, by simpa using count⟩
    obtain ⟨q, ends, e⟩ := finish_iff.2 ⟨breaks, right⟩
    exact ⟨r, q, reads, ends, congrArg Reader.header? e, congrArg Reader.clauses e⟩
  · rintro ⟨r, q, reads, ends, header, ended⟩
    obtain ⟨breaks, right⟩ := finish_iff.1 ⟨q, ends, rfl⟩
    obtain ⟨h', header', closed, count⟩ := verdict?_eq_none.1 right
    have same : q.inMode .lineStart = ⟨.lineStart, some h, [], clauses.reverse⟩ := by
      rw [inMode, header, ended]
      exact congrArg (Reader.mk _ _ · _) closed
    cases (congrArg Reader.header? same).symm.trans header'
    rw [same] at breaks count
    exact ⟨by simpa using count, r, reads, breaks⟩

end Reader

/-- The lines of a file that is accepted are taken. -/
theorem takesFile_of_read {breaksOff : Bool} {n? : Option Nat}
    (e : read chunks breaksOff = ⟨n?, clauses, none⟩) :
    ∃ h, n? = some h.numVariables ∧ Reader.TakesFile (content chunks) h clauses := by
  unfold read at e
  split at e
  rename_i q error? reads
  rw [Reading.ofReader, Reading.mk.injEq] at e
  obtain ⟨rfl, rfl, rfl⟩ := e
  obtain ⟨r, reads, ends⟩ := readOn_ok reads
  obtain ⟨h, header, -, -⟩ := Reader.verdict?_eq_none.1 (Reader.finish_iff.1 ⟨q, ends, rfl⟩).2
  have header : q.header? = some h := header
  exact ⟨h, by rw [header]; rfl, Reader.takesFile_iff.2 ⟨r, q, reads, ends, header, by simp⟩⟩

/-- A file is accepted if its lines are taken. -/
theorem read_of_takesFile (taken : Reader.TakesFile (content chunks) h clauses) :
    read chunks false = ⟨some h.numVariables, clauses, none⟩ := by
  obtain ⟨r, q, reads, ends, header, ended⟩ := Reader.takesFile_iff.1 taken
  rw [read, readOn_of_reads reads, ends]
  simp [Reading.ofReader, header, ended]

end ClauseLearning.Dimacs
