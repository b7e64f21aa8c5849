/-
  Decimal numerals.

  Model. A numeral has no zero in front of other digits, so a number has one numeral only
  (`numeral`). `IsNumeral` is the shape of the numerals of the numbers other than zero: a minus
  sign or none, and digits, of which the first one is not `0`.

  Rule. The numerals are what has this shape (`isNumeral_iff`), and reading the numeral of a
  64-bit word gives the word (`readWord?_toDigits`).
-/
import ClauseLearning.Decimal.Word

namespace ClauseLearning.Decimal

/-- The decimal numeral of an integer. -/
def numeral (n : Int) : List Char :=
  if n < 0 then '-' :: Nat.toDigits 10 n.natAbs else Nat.toDigits 10 n.natAbs

/-- The digits have no zero in front. -/
def IsMagnitude (ds : List Char) : Prop :=
  ∃ d rest, ds = d :: rest ∧ d ≠ '0' ∧ ∀ c ∈ ds, c.isDigit = true

/-- The word is a number without a zero in front, behind a minus sign or not. -/
def IsNumeral (w : List Char) : Prop := ∃ ds, IsMagnitude ds ∧ (w = ds ∨ w = '-' :: ds)

/-! ## Digits and their value -/

theorem digitValue_lt {c : Char} (digit : c.isDigit = true) : digitValue c < 10 := by
  have range : 48 ≤ c.toNat ∧ c.toNat ≤ 57 := Char.isDigit_iff_toNat.1 digit
  have zero : '0'.toNat = 48 := rfl
  rw [digitValue, zero]
  omega

theorem digitChar_digitValue {c : Char} (digit : c.isDigit = true) :
    Nat.digitChar (digitValue c) = c := by
  apply Char.toNat_inj.1
  have range : 48 ≤ c.toNat ∧ c.toNat ≤ 57 := Char.isDigit_iff_toNat.1 digit
  have zero : '0'.toNat = 48 := rfl
  rw [Nat.toNat_digitChar_of_lt_ten (digitValue_lt digit), digitValue, zero]
  omega

theorem digitsValue_toDigits (n : Nat) : digitsValue (Nat.toDigits 10 n) = n :=
  Nat.ofDigitChars_ten_toDigits

theorem digitsValue_cons (d : Char) (ds : List Char) :
    digitsValue (d :: ds) = Nat.ofDigitChars 10 ds (digitValue d) := by
  rw [digitsValue, List.foldl_cons, Nat.mul_zero, Nat.zero_add]
  rfl

theorem toDigits_inj {m n : Nat} (e : Nat.toDigits 10 m = Nat.toDigits 10 n) : m = n := by
  rw [← digitsValue_toDigits m, e, digitsValue_toDigits]

theorem toDigits_digits {n : Nat} {c : Char} (h : c ∈ Nat.toDigits 10 n) : c.isDigit = true :=
  Nat.isDigit_of_mem_toDigits (by decide) (by decide) h

theorem toDigits_ne_sign {n : Nat} {c : Char} {w : List Char} (sign : c.isDigit = false) :
    Nat.toDigits 10 n ≠ c :: w := by
  intro e
  have digit : c.isDigit = true := toDigits_digits (e ▸ List.mem_cons_self)
  exact Bool.noConfusion (sign.symm.trans digit)

/-- Digits behind those of a number greater than zero are those of a greater number. -/
theorem toDigits_ofDigitChars {ds : List Char} (digits : ∀ c ∈ ds, c.isDigit = true) {m : Nat}
    (pos : 0 < m) :
    Nat.toDigits 10 (Nat.ofDigitChars 10 ds m) = Nat.toDigits 10 m ++ ds ∧
      0 < Nat.ofDigitChars 10 ds m := by
  induction ds generalizing m with
  | nil => exact ⟨(List.append_nil _).symm, pos⟩
  | cons c ds ih =>
    have digit : c.isDigit = true := digits c (.head _)
    have more : Nat.toDigits 10 (10 * m + digitValue c) = Nat.toDigits 10 m ++ [c] := by
      rw [← Nat.toDigits_append_toDigits (by decide) pos (digitValue_lt digit),
        Nat.toDigits_of_lt_base (digitValue_lt digit), digitChar_digitValue digit]
    obtain ⟨e, pos'⟩ := ih (m := 10 * m + digitValue c)
      (fun c hc => digits c (.tail _ hc)) (by omega)
    rw [Nat.ofDigitChars_cons]
    refine ⟨e.trans ?_, pos'⟩
    rw [more, List.append_assoc]
    rfl

/-- A number is written with the digits that it is the value of. -/
theorem IsMagnitude.toDigits {ds : List Char} (h : IsMagnitude ds) :
    Nat.toDigits 10 (digitsValue ds) = ds ∧ 0 < digitsValue ds := by
  obtain ⟨d, rest, rfl, nonzero, digits⟩ := h
  have digit : d.isDigit = true := digits d (.head _)
  have pos : 0 < digitValue d := by
    refine Nat.pos_of_ne_zero fun zero => nonzero ?_
    rw [← digitChar_digitValue digit, zero]
    rfl
  obtain ⟨e, pos'⟩ := toDigits_ofDigitChars (fun c hc => digits c (.tail _ hc)) pos
  rw [Nat.toDigits_of_lt_base (digitValue_lt digit), digitChar_digitValue digit] at e
  rw [digitsValue_cons]
  exact ⟨e, pos'⟩

/-- The digits of a number other than zero have no zero in front. -/
theorem isMagnitude_toDigits {n : Nat} (pos : 0 < n) : IsMagnitude (Nat.toDigits 10 n) := by
  have head : ∃ d rest, Nat.toDigits 10 n = d :: rest ∧ d ≠ '0' := by
    induction n using Nat.strongRecOn with
    | ind n ih =>
      rw [Nat.toDigits_eq_if (by decide)]
      split
      · exact ⟨_, [], rfl, fun zero => Nat.ne_of_gt pos (Nat.digitChar_eq_zero.1 zero)⟩
      · obtain ⟨d, rest, e, nonzero⟩ := ih (n / 10) (by omega) (by omega)
        exact ⟨d, rest ++ [(n % 10).digitChar], by rw [e]; rfl, nonzero⟩
  obtain ⟨d, rest, e, nonzero⟩ := head
  exact ⟨d, rest, e, nonzero, fun c hc => toDigits_digits hc⟩

/-! ## Numerals -/

theorem numeral_of_nonneg {n : Int} (h : 0 ≤ n) : numeral n = Nat.toDigits 10 n.natAbs :=
  if_neg (Int.not_lt.2 h)

theorem numeral_of_neg {n : Int} (h : n < 0) : numeral n = '-' :: Nat.toDigits 10 n.natAbs :=
  if_pos h

/-- No two numbers have the same numeral. -/
theorem numeral_inj {m n : Int} (e : numeral m = numeral n) : m = n := by
  rcases Int.lt_or_le m 0 with hm | hm <;> rcases Int.lt_or_le n 0 with hn | hn
  · rw [numeral_of_neg hm, numeral_of_neg hn, List.cons.injEq] at e
    have := toDigits_inj e.2
    omega
  · rw [numeral_of_neg hm, numeral_of_nonneg hn] at e
    exact absurd e.symm (toDigits_ne_sign rfl)
  · rw [numeral_of_nonneg hm, numeral_of_neg hn] at e
    exact absurd e (toDigits_ne_sign rfl)
  · rw [numeral_of_nonneg hm, numeral_of_nonneg hn] at e
    have := toDigits_inj e
    omega

theorem isMagnitude_cons {d : Char} {ds : List Char} :
    IsMagnitude (d :: ds) ↔ d.isDigit = true ∧ d ≠ '0' ∧ ∀ c ∈ ds, c.isDigit = true := by
  constructor
  · rintro ⟨_, _, e, nonzero, digits⟩
    cases e
    exact ⟨digits d (.head _), nonzero, fun c hc => digits c (.tail _ hc)⟩
  · rintro ⟨digit, nonzero, digits⟩
    exact ⟨d, ds, rfl, nonzero, List.forall_mem_cons.2 ⟨digit, digits⟩⟩

theorem isNumeral_minus {w : List Char} : IsNumeral ('-' :: w) ↔ IsMagnitude w := by
  constructor
  · rintro ⟨_, magnitude, rfl | e⟩
    · exact absurd (isMagnitude_cons.1 magnitude).1 (by decide)
    · cases e
      exact magnitude
  · exact fun magnitude => ⟨w, magnitude, .inr rfl⟩

theorem isNumeral_unsigned {c : Char} {w : List Char} (h : c ≠ '-') :
    IsNumeral (c :: w) ↔ IsMagnitude (c :: w) := by
  constructor
  · rintro ⟨_, magnitude, rfl | e⟩
    · exact magnitude
    · cases e
      exact absurd rfl h
  · exact fun magnitude => ⟨_, magnitude, .inl rfl⟩

theorem IsNumeral.exists_cons {w : List Char} (h : IsNumeral w) :
    ∃ c cs, w = c :: cs ∧ c ≠ '0' := by
  obtain ⟨ds, ⟨d, rest, rfl, nonzero, -⟩, rfl | rfl⟩ := h
  · exact ⟨d, rest, rfl, nonzero⟩
  · exact ⟨'-', d :: rest, rfl, by decide⟩

theorem not_isNumeral_zero : ¬ IsNumeral ['0'] := fun h =>
  (isMagnitude_cons.1 ((isNumeral_unsigned (by decide)).1 h)).2.1 rfl

/-- The words without a zero in front are the numerals of the numbers other than zero. -/
theorem isNumeral_iff {w : List Char} : IsNumeral w ↔ ∃ n, n ≠ 0 ∧ w = numeral n := by
  constructor
  · rintro ⟨ds, magnitude, rfl | rfl⟩
    · obtain ⟨e, pos⟩ := magnitude.toDigits
      exact ⟨digitsValue w, by omega, by rw [numeral_of_nonneg (by omega), Int.natAbs_natCast, e]⟩
    · obtain ⟨e, pos⟩ := magnitude.toDigits
      refine ⟨-(digitsValue ds : Int), by omega, ?_⟩
      rw [numeral_of_neg (by omega), Int.natAbs_neg, Int.natAbs_natCast, e]
  · rintro ⟨n, nonzero, rfl⟩
    refine ⟨_, isMagnitude_toDigits (n := n.natAbs) (by omega), ?_⟩
    unfold numeral
    split
    · exact .inr rfl
    · exact .inl rfl

/-- The digits of a word stand for the word. -/
theorem readWord?_toDigits {n : Nat} (small : n < wordBound) :
    readWord? (Nat.toDigits 10 n) = some n := by
  have digits : ∀ c ∈ Nat.toDigits 10 n, c.isDigit = true := fun c hc => toDigits_digits hc
  have reads : readDigits? wordBound (Nat.toDigits 10 n) = some n := by
    rw [readDigits?, digitsValue_toDigits, if_pos]
    simpa [Nat.toDigits_ne_nil, small] using digits
  unfold readWord?
  split
  · rename_i e
    exact absurd e (toDigits_ne_sign rfl)
  · exact reads

end ClauseLearning.Decimal
