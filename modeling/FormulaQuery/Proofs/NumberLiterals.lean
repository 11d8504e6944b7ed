import FormulaQuery.Proofs.Constants
import FormulaQuery.Proofs.Registration
import FormulaQuery.Proofs.Rendering

/-!
# Number literals

A numeral in a formula is read as the double nearest to it, and this double is printed into the query, unquoted.
What is printed is a numeral again, unless the one in the formula is so great that the nearest double is infinite:
then the word `inf` stands in the query (`Plan.numeral_printed_iff`). Numerals may have any length, so there are
such numerals (`Plan.exists_ofFormula_inf`).
-/

namespace FormulaQuery

/-- Digits, or digits on both sides of a point. -/
def IsNumeral (cs : List Char) : Prop := ∃ whole fraction, AreDigits whole fraction ∧ cs = whole ++ pointed fraction

private theorem not_isNumeral_inf : ¬IsNumeral "inf".toList := by
  rintro ⟨whole, fraction, h, heq⟩
  exact h.append_ne_inf heq.symm

namespace Decimal96

variable {rank : Fin (infinityRank + 1)}

/-- Only infinity is not printed as a numeral. -/
theorem isNumeral_text_iff : IsNumeral (text (.ranked false rank)).toList ↔ rank.val ≠ infinityRank := by
  constructor
  · intro h hrank
    rw [toList_text_infinite hrank] at h
    exact not_isNumeral_inf h
  · exact exists_numeral

private theorem text_eq_inf (h : rank.val = infinityRank) : text (.ranked false rank) = "inf" :=
  String.toList_inj.1 (toList_text_infinite h)

end Decimal96

namespace Lexeme

variable {whole fraction : List Char}

/-- A numeral is read as infinity exactly from `overflow` on. -/
theorem exists_numberValue (whole fraction : List Char) :
    ∃ rank : Fin (infinityRank + 1), numberValue whole fraction = .ranked false rank ∧
      (rank.val = infinityRank ↔
        Binary64.overflow * 10 ^ fraction.length ≤ Ascii.digitsValue (whole ++ fraction)) := by
  have hpos : 10 ^ fraction.length ≠ 0 := Nat.ne_of_gt (Nat.pow_pos (by decide))
  exact ⟨_, numberValue_eq whole fraction, Binary64.nearestRank_eq_infinityRank_iff hpos⟩

/-- A numeral by itself is cut into one token. -/
private theorem lexes_numeral (h : AreDigits whole fraction) :
    Lexes (whole ++ pointed fraction) [.number (numberValue whole fraction)] := by
  have hlexes := (Spells.number h).lexes_append (maximal_number_nil _ _) lexes_nil
  rwa [List.append_nil] at hlexes

end Lexeme

variable {whole fraction : List Char}

/-- A numeral by itself is a formula. -/
private theorem Formula.exists_parse_numeral (h : AreDigits whole fraction) :
    ∃ pos, Formula.parse (String.ofList (whole ++ pointed fraction)) =
      .ok (.number pos (Lexeme.numberValue whole fraction)) := by
  have hlexes := Lexeme.lexes_numeral h
  rw [← String.toList_ofList (l := whole ++ pointed fraction)] at hlexes
  obtain ⟨hkinds, hending⟩ : (Run.ofString (String.ofList (whole ++ pointed fraction))).tokens.map (·.kind) = _ ∧
      (Run.ofString (String.ofList (whole ++ pointed fraction))).ending.error? = none := hlexes .start
  obtain ⟨⟨kind, pos⟩, htokens, hkind⟩ := List.map_eq_singleton_iff.1 hkinds
  subst hkind
  refine ⟨pos, parse_eq_ok_iff_lexes.2 ⟨?_, ?_, hending⟩⟩
  · rw [htokens]
    exact (Derives.number pos _).to_comparison
  · rw [htokens]
    exact List.isChain_singleton _

/-- What a number is printed as, whatever the sources are. -/
theorem Expression.printsAs_number (info : Info) (n : Binary64) : (number info n).PrintsAs (Decimal96.text n) :=
  fun _ => rfl

namespace Plan

/-- The plan of a numeral. -/
theorem exists_ofFormula_numeral (h : AreDigits whole fraction) (schema : Table) (maxDepth : Nat) :
    ∃ p info, ofFormula (String.ofList (whole ++ pointed fraction)) schema maxDepth = .ok p ∧
      p.expression = .number info (Lexeme.numberValue whole fraction) := by
  obtain ⟨pos, hparse⟩ := Formula.exists_parse_numeral h
  exact ⟨_, _, ofFormula_eq_ok_iff.2 ⟨_, hparse, .number _ pos _⟩, rfl⟩

/-- A numeral is printed as a numeral exactly if it is below `overflow`, and else as a word. This holds wherever it
stands in a text and in every scope; by itself it is a formula over every schema. -/
theorem numeral_printed_iff (h : AreDigits whole fraction) :
    ∃ n, ∃ sql : String,
      (∀ rest, Lexeme.Maximal (.number n) (whole ++ pointed fraction) rest →
        Lexeme.read (whole ++ pointed fraction ++ rest) = .ok ⟨.number n, whole ++ pointed fraction, rest⟩) ∧
      (∀ (s : Scope) pos, ∃ info, s.compile (.number pos n) = .ok (.ofExpression (.number info n)) ∧
        (Expression.number info n).PrintsAs sql) ∧
      (∀ schema maxDepth, ∃ p, ofFormula (String.ofList (whole ++ pointed fraction)) schema maxDepth = .ok p ∧
        p.expression.PrintsAs sql) ∧
      (IsNumeral sql.toList ↔ Ascii.digitsValue (whole ++ fraction) < Binary64.overflow * 10 ^ fraction.length) ∧
      (¬IsNumeral sql.toList → sql = "inf") := by
  obtain ⟨rank, hvalue, hrank⟩ := Lexeme.exists_numberValue whole fraction
  refine ⟨.ranked false rank, Decimal96.text (.ranked false rank), ?_, ?_, ?_, ?_, ?_⟩
  · intro rest hmax
    rw [← hvalue] at hmax ⊢
    exact (Lexeme.Spells.number h).read_eq hmax
  · intro s pos
    exact ⟨_, Scope.compile_eq_ok_iff.2 (.number s pos _), Expression.printsAs_number _ _⟩
  · intro schema maxDepth
    obtain ⟨p, info, hp, hexpression⟩ := exists_ofFormula_numeral h schema maxDepth
    refine ⟨p, hp, ?_⟩
    rw [hexpression, hvalue]
    exact Expression.printsAs_number _ _
  · rw [Decimal96.isNumeral_text_iff, ne_eq, hrank, Nat.not_le]
  · intro hnot
    rw [Decimal96.isNumeral_text_iff, not_not] at hnot
    exact Decimal96.text_eq_inf hnot

/-- The greatest numeral of 308 places before the point and one behind it is printed as a numeral. -/
theorem numeral_printed_iff_nines :
    AreDigits (List.replicate 308 '9') ['9'] ∧ ∃ p, ∃ sql : String,
      ofFormula (String.ofList (List.replicate 308 '9' ++ pointed ['9'])) .tangled 3 = .ok p ∧
      p.expression.PrintsAs sql ∧ IsNumeral sql.toList := by
  have hdigits : AreDigits (List.replicate 308 '9') ['9'] := by
    refine ⟨by decide, (AreDigits.nines (by decide)).whole_isDigit, ?_⟩
    simp only [List.mem_singleton, forall_eq]
    decide
  have hbelow : Ascii.digitsValue (List.replicate 308 '9' ++ ['9']) < Binary64.overflow * 10 ^ ['9'].length := by
    decide +kernel
  obtain ⟨n, sql, -, -, hplan, hiff, -⟩ := numeral_printed_iff hdigits
  obtain ⟨p, hp, hprints⟩ := hplan .tangled 3
  exact ⟨hdigits, p, sql, hp, hprints, hiff.2 hbelow⟩

/-- A numeral of 309 places is printed as a word that is no numeral. -/
theorem exists_ofFormula_inf :
    ∃ p, ofFormula (String.ofList (List.replicate 309 '9')) (.ofName "t") 3 = .ok p ∧ p.expression.PrintsAs "inf" ∧
      ¬IsNumeral "inf".toList := by
  obtain ⟨p, info, hp, hexpression⟩ := exists_ofFormula_numeral (.nines (n := 309) (by decide)) (.ofName "t") 3
  rw [pointed, List.append_nil] at hp
  refine ⟨p, hp, ?_, not_isNumeral_inf⟩
  have htext : Decimal96.text (.ranked false (Fin.last infinityRank)) = "inf" := Decimal96.text_eq_inf rfl
  have hprints := Expression.printsAs_number info (.ranked false (Fin.last infinityRank))
  rw [htext] at hprints
  rw [hexpression, Lexeme.numberValue_nines]
  exact hprints

end Plan

end FormulaQuery
