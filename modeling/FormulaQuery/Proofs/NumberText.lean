import FormulaQuery.Number.Decimal96
import FormulaQuery.Proofs.Names
import FormulaQuery.Proofs.Rounding
import FormulaQuery.Token.Lexeme
import Mathlib.Tactic.Ring

/-!
# The text of numbers

A decimal is written as digits, or as digits on both sides of a point (`Decimal.exists_numeral`). What is written
for a finite double is read as that double again, so different numbers have different texts (`Binary64.text_inj`).
-/

namespace FormulaQuery

/-- The digits of a fraction with the point before them; without digits there is no point. -/
def pointed : List Char → List Char
  | [] => []
  | ds => '.' :: ds

/-- Texts of digits, of which the second may be empty. -/
structure AreDigits (whole fraction : List Char) : Prop where
  whole_ne_nil : whole ≠ []
  whole_isDigit : ∀ c ∈ whole, Ascii.isDigit c = true
  fraction_isDigit : ∀ c ∈ fraction, Ascii.isDigit c = true

namespace AreDigits

variable {whole fraction whole' fraction' : List Char}

private theorem takeWhile_pointed (h : AreDigits whole fraction) :
    (whole ++ pointed fraction).takeWhile Ascii.isDigit = whole := by
  rw [List.takeWhile_append_of_pos h.whole_isDigit]
  cases fraction with
  | nil => exact List.append_nil _
  | cons c cs => exact List.append_nil _

/-- Both parts of a numeral can be read off it. -/
theorem eq_of_append_eq (h : AreDigits whole fraction) (h' : AreDigits whole' fraction')
    (e : whole ++ pointed fraction = whole' ++ pointed fraction') : whole = whole' ∧ fraction = fraction' := by
  have hwhole : whole = whole' := by
    rw [← h.takeWhile_pointed, e, h'.takeWhile_pointed]
  subst hwhole
  have hrest := List.append_cancel_left e
  refine ⟨rfl, ?_⟩
  cases fraction with
  | nil =>
    cases fraction' with
    | nil => rfl
    | cons d ds => cases hrest
  | cons c cs =>
    cases fraction' with
    | nil => cases hrest
    | cons d ds => exact (List.cons.inj hrest).2

theorem mem_append_pointed (h : AreDigits whole fraction) {c : Char} (hc : c ∈ whole ++ pointed fraction) :
    Ascii.isDigit c = true ∨ c = '.' := by
  rcases List.mem_append.1 hc with hc | hc
  · exact Or.inl (h.whole_isDigit c hc)
  · cases fraction with
    | nil => cases hc
    | cons d ds =>
      rcases List.mem_cons.1 hc with rfl | hc
      · exact Or.inr rfl
      · exact Or.inl (h.fraction_isDigit c hc)

/-- No numeral is the word for infinity. -/
theorem append_ne_inf (h : AreDigits whole fraction) : whole ++ pointed fraction ≠ "inf".toList := by
  intro heq
  have hi : 'i' ∈ whole ++ pointed fraction := by
    rw [heq]
    decide
  exact absurd (h.mem_append_pointed hi) (by decide)

/-- As many nines as one likes. -/
theorem nines {n : Nat} (hn : 0 < n) : AreDigits (List.replicate n '9') [] := by
  refine ⟨?_, ?_, List.forall_mem_nil _⟩
  · simpa using Nat.ne_of_gt hn
  · intro c hc
    rw [List.eq_of_mem_replicate hc]
    decide

end AreDigits

/-! ### Decimals -/

private theorem isDigit_of_char_isDigit {c : Char} (h : c.isDigit = true) : Ascii.isDigit c = true := by
  simpa [Char.isDigit, Ascii.isDigit, Char.le_def] using h

private theorem isDigit_toDigits {n : Nat} {c : Char} (h : c ∈ Nat.toDigits 10 n) : Ascii.isDigit c = true :=
  isDigit_of_char_isDigit (Nat.isDigit_of_mem_toDigits (by decide) (by decide) h)

private theorem digitsValue_append (xs ys : List Char) :
    Ascii.digitsValue (xs ++ ys) = 10 ^ ys.length * Ascii.digitsValue xs + Ascii.digitsValue ys :=
  (Nat.ofDigitChars_append 0).trans Nat.ofDigitChars_eq_ofDigitChars_zero

private theorem digitsValue_toDigits (n : Nat) : Ascii.digitsValue (Nat.toDigits 10 n) = n :=
  Nat.ofDigitChars_toDigits (by decide) (by decide)

private theorem digitsValue_replicate (n : Nat) : Ascii.digitsValue (List.replicate n '0') = 0 :=
  Nat.ofDigitChars_replicate_zero.trans (Nat.mul_zero _)

/-- The digits without the zeros at their end, and how many zeros these are. -/
private theorem exists_dropZeros (ds : List Char) :
    ∃ n, ds = (ds.reverse.dropWhile (· == '0')).reverse ++ List.replicate n '0' := by
  refine ⟨(ds.reverse.takeWhile (· == '0')).length, ?_⟩
  have hzero : ds.reverse.takeWhile (· == '0') = List.replicate (ds.reverse.takeWhile (· == '0')).length '0' := by
    apply List.eq_replicate_of_mem
    intro c hc
    exact beq_iff_eq.1 (List.all_eq_true.1 List.all_takeWhile c hc)
  have hsplit := congrArg List.reverse (List.takeWhile_append_dropWhile (p := (· == '0')) (l := ds.reverse))
  rw [List.reverse_append, List.reverse_reverse, hzero, List.reverse_replicate] at hsplit
  exact hsplit.symm

/-- A value that is filled up with zeros on the left. -/
private theorem padded_spec {value places : Nat} (hplaces : 0 < places) (h : value < 10 ^ places) {padded : List Char}
    (hpadded : List.replicate (places - (Nat.toDigits 10 value).length) '0' ++ Nat.toDigits 10 value = padded) :
    padded.length = places ∧ Ascii.digitsValue padded = value ∧ ∀ c ∈ padded, Ascii.isDigit c = true := by
  have hlength : (Nat.toDigits 10 value).length ≤ places := (Nat.length_toDigits_le_iff (by decide) hplaces).2 h
  subst hpadded
  refine ⟨?_, ?_, ?_⟩
  · rw [List.length_append, List.length_replicate]
    omega
  · rw [digitsValue_append, digitsValue_replicate, digitsValue_toDigits, Nat.mul_zero, Nat.zero_add]
  · intro c hc
    rcases List.mem_append.1 hc with hc | hc
    · rw [(List.mem_replicate.1 hc).2]
      decide
    · exact isDigit_toDigits hc

/-- Zeros at the end of a fraction do not change the double nearest to it. -/
private theorem nearestRank_dropZeros {digits places n : Nat} {kept : List Char}
    (hlength : (kept ++ List.replicate n '0').length = places)
    (hvalue : Ascii.digitsValue (kept ++ List.replicate n '0') = digits % 10 ^ places) :
    Binary64.nearestRank (Ascii.digitsValue (Nat.toDigits 10 (digits / 10 ^ places) ++ kept)) (10 ^ kept.length) =
      Binary64.nearestRank digits (10 ^ places) := by
  have hpos : ∀ k, 10 ^ k ≠ 0 := fun k => Nat.ne_of_gt (Nat.pow_pos (by decide))
  have hsum : 10 ^ places * (digits / 10 ^ places) + 10 ^ n * Ascii.digitsValue kept = digits := by
    rw [digitsValue_append, digitsValue_replicate, List.length_replicate, Nat.add_zero] at hvalue
    rw [hvalue, Nat.div_add_mod]
  rw [List.length_append, List.length_replicate] at hlength
  rw [digitsValue_append, digitsValue_toDigits]
  apply Binary64.nearestRank_eq_of_cross (hpos _) (hpos _)
  conv => rhs; rw [← hsum]
  rw [← hlength, Nat.pow_add]
  generalize 10 ^ kept.length = a
  generalize 10 ^ n = b
  rw [Nat.add_mul, Nat.add_mul]
  congr 1
  · ring
  · rw [Nat.mul_comm, Nat.mul_assoc, Nat.mul_comm b, Nat.mul_comm]

/-- A decimal is written as a numeral, whose value is that of the decimal. -/
theorem Decimal.exists_numeral (d : Decimal) :
    ∃ whole fraction, AreDigits whole fraction ∧ d.text = whole ++ pointed fraction ∧
      Binary64.nearestRank (Ascii.digitsValue (whole ++ fraction)) (10 ^ fraction.length) = d.rank := by
  obtain ⟨digits, power⟩ := d
  by_cases hp : 0 ≤ power
  · refine ⟨Nat.toDigits 10 (digits * 10 ^ power.toNat), [], ⟨Nat.toDigits_ne_nil, fun c => isDigit_toDigits, nofun⟩,
      ?_, ?_⟩
    · rw [text, if_pos hp, pointed, List.append_nil]
    · rw [List.append_nil, digitsValue_toDigits, rank, show (-power).toNat = 0 by omega, List.length_nil]
  · -- the digits after the point are filled up with zeros on the left and lose those on the right
    have hplaces : 0 < (-power).toNat := by omega
    have htop : power.toNat = 0 := by omega
    have htext : text ⟨digits, power⟩ = Nat.toDigits 10 (digits / 10 ^ (-power).toNat) ++ pointed
        ((List.replicate ((-power).toNat - (Nat.toDigits 10 (digits % 10 ^ (-power).toNat)).length) '0'
          ++ Nat.toDigits 10 (digits % 10 ^ (-power).toNat)).reverse.dropWhile (· == '0')).reverse := by
      rw [text, if_neg hp]
      dsimp only
      split
      · rename_i hkept
        rw [hkept, pointed, List.append_nil]
      · rename_i kept hne
        rw [pointed]
        exact hne
    rw [htext, rank, htop, Nat.pow_zero, Nat.mul_one]
    generalize (-power).toNat = places at *
    generalize hpadded : List.replicate (places - (Nat.toDigits 10 (digits % 10 ^ places)).length) '0'
      ++ Nat.toDigits 10 (digits % 10 ^ places) = padded
    obtain ⟨hcount, hvalue, hdigit⟩ := padded_spec hplaces (Nat.mod_lt _ (Nat.pow_pos (by decide))) hpadded
    obtain ⟨n, hn⟩ := exists_dropZeros padded
    generalize (padded.reverse.dropWhile (· == '0')).reverse = kept at *
    rw [hn] at hcount hvalue
    refine ⟨_, kept, ⟨Nat.toDigits_ne_nil, fun c => isDigit_toDigits, ?_⟩, rfl, nearestRank_dropZeros hcount hvalue⟩
    intro c hc
    exact hdigit c (hn ▸ List.mem_append_left _ hc)

/-! ### Doubles -/

/-- A numeral is read as the double nearest to the fraction that it writes. -/
theorem Lexeme.numberValue_eq (whole fraction : List Char) :
    numberValue whole fraction = .ofFraction false (Ascii.digitsValue (whole ++ fraction))
      (10 ^ fraction.length) := by
  rw [numberValue, Binary64.ofScientific_eq, show (-(fraction.length : Int)).toNat = 0 by omega,
    show (-(-(fraction.length : Int))).toNat = fraction.length by omega, Nat.pow_zero, Nat.mul_one]

namespace Binary64

/-- What is written for a finite double is read as that double. -/
theorem exists_numeral {rank : Fin (infinityRank + 1)} (h : rank.val ≠ infinityRank) :
    ∃ whole fraction, AreDigits whole fraction ∧ (text (.ranked false rank)).toList = whole ++ pointed fraction ∧
      Lexeme.numberValue whole fraction = .ranked false rank := by
  obtain ⟨whole, fraction, hdigits, htext, hvalue⟩ := (shortestDecimal rank.val).exists_numeral
  have hlt : rank.val < infinityRank := Nat.lt_of_le_of_ne rank.is_le h
  refine ⟨whole, fraction, hdigits, ?_, ?_⟩
  · unfold text
    dsimp only
    rw [if_neg h, if_neg (by decide), String.toList_ofList]
    exact htext
  · have hrank := hvalue.trans (rank_shortestDecimal hlt)
    rw [Lexeme.numberValue_eq]
    exact congrArg (ranked false) (Fin.ext hrank)

private theorem toList_text_infinite {rank : Fin (infinityRank + 1)} (h : rank.val = infinityRank) :
    (text (.ranked false rank)).toList = ['i', 'n', 'f'] := by
  unfold text
  dsimp only
  rw [if_pos h, String.toList_ofList]
  rfl

/-- The text of a finite double is a numeral. -/
private theorem text_ne_infinite {rank : Fin (infinityRank + 1)} (h : rank.val ≠ infinityRank) :
    (text (.ranked false rank)).toList ≠ ['i', 'n', 'f'] := by
  obtain ⟨whole, fraction, hdigits, htext, -⟩ := exists_numeral h
  rw [htext]
  exact hdigits.append_ne_inf

/-- Numbers that a formula can hold are known by their texts. -/
theorem text_inj {r s : Fin (infinityRank + 1)} (h : text (.ranked false r) = text (.ranked false s)) : r = s := by
  by_cases hr : r.val = infinityRank
  · by_cases hs : s.val = infinityRank
    · exact Fin.ext (hr.trans hs.symm)
    · exact absurd (h ▸ toList_text_infinite hr) (text_ne_infinite hs)
  · by_cases hs : s.val = infinityRank
    · exact absurd (h ▸ toList_text_infinite hs) (text_ne_infinite hr)
    · obtain ⟨whole, fraction, hdigits, htext, hvalue⟩ := exists_numeral hr
      obtain ⟨whole', fraction', hdigits', htext', hvalue'⟩ := exists_numeral hs
      obtain ⟨rfl, rfl⟩ := hdigits.eq_of_append_eq hdigits' (by rw [← htext, ← htext', h])
      rw [hvalue] at hvalue'
      cases hvalue'
      rfl

end Binary64

/-- The texts of numbers that are not negative: numerals and the word for infinity. -/
def IsNumberText (cs : List Char) : Prop :=
  cs = "inf".toList ∨ ∃ whole fraction, AreDigits whole fraction ∧ cs = whole ++ pointed fraction

namespace IsNumberText

variable {cs : List Char}

theorem ne_nil (h : IsNumberText cs) : cs ≠ [] := by
  rcases h with rfl | ⟨whole, fraction, hdigits, rfl⟩
  · decide
  · exact List.append_ne_nil_of_left_ne_nil hdigits.whole_ne_nil _

theorem mem (h : IsNumberText cs) {c : Char} (hc : c ∈ cs) : Ascii.isWordPart c = true ∨ c = '.' := by
  rcases h with rfl | ⟨whole, fraction, hdigits, rfl⟩
  · have hname : Ascii.IsName "inf" := by decide
    exact Or.inl (hname c hc)
  · rcases hdigits.mem_append_pointed hc with hc | hc
    · exact Or.inl (Ascii.isWordPart_of_isDigit hc)
    · exact Or.inr hc

end IsNumberText

theorem Binary64.isNumberText (rank : Fin (infinityRank + 1)) : IsNumberText (text (.ranked false rank)).toList := by
  by_cases h : rank.val = infinityRank
  · exact Or.inl (toList_text_infinite h)
  · obtain ⟨whole, fraction, hdigits, htext, -⟩ := exists_numeral h
    exact Or.inr ⟨whole, fraction, hdigits, htext⟩

namespace Decimal96

variable {rank : Fin (infinityRank + 1)}

/-- Finite numbers reach the query as the numerals of decimals, or as the doubles that they are. -/
theorem exists_numeral (h : rank.val ≠ infinityRank) :
    ∃ whole fraction, AreDigits whole fraction ∧ (text (.ranked false rank)).toList = whole ++ pointed fraction := by
  have hdouble : ∃ whole fraction, AreDigits whole fraction ∧
      (Binary64.text (.ranked false rank)).toList = whole ++ pointed fraction := by
    obtain ⟨whole, fraction, hdigits, htext, -⟩ := Binary64.exists_numeral h
    exact ⟨whole, fraction, hdigits, htext⟩
  unfold text
  dsimp only
  rw [if_neg h]
  split
  · exact ⟨['0'], [], ⟨by decide, by simp; decide, List.forall_mem_nil _⟩, rfl⟩
  · split
    · exact hdouble
    · obtain ⟨whole, fraction, hdigits, htext, -⟩ := Decimal.exists_numeral _
      rw [Bool.false_and, if_neg (by decide), String.toList_ofList]
      exact ⟨whole, fraction, hdigits, htext⟩

theorem toList_text_infinite (h : rank.val = infinityRank) : (text (.ranked false rank)).toList = "inf".toList := by
  unfold text
  dsimp only
  rw [if_pos h]
  exact Binary64.toList_text_infinite h

/-- What numbers reach the query as. -/
theorem isNumberText (rank : Fin (infinityRank + 1)) : IsNumberText (text (.ranked false rank)).toList := by
  by_cases h : rank.val = infinityRank
  · exact Or.inl (toList_text_infinite h)
  · exact Or.inr (exists_numeral h)

end Decimal96

end FormulaQuery
