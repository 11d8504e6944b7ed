/-!
# Double precision numbers

A double is not a number, or a sign and a magnitude. The non-negative doubles are counted in ascending order from
zero, and a magnitude is stored as its rank in that order; the last rank is that of infinity. So equal doubles have
equal representations, and rounding a fraction is the choice of a natural number.
-/

namespace FormulaQuery

/-- Powers are those of `Nat.pow`, also where monoids bring powers of their own. -/
@[default_instance 100000]
scoped instance (priority := high) natPow : Pow Nat Nat := instPowNat

/-- The rank of infinity among the non-negative doubles. -/
def infinityRank : Nat := 2047 * 2 ^ 52

inductive Binary64 where
  | nan
  | ranked (negative : Bool) (rank : Fin (infinityRank + 1))
deriving DecidableEq, Repr

namespace Binary64

/-- Binades are the blocks of `2 ^ 52` ranks over which the spacing of the doubles is constant. -/
def binade (rank : Nat) : Nat := rank / 2 ^ 52

/-- The magnitude of finite rank is `significand rank * 2 ^ exponent rank`. -/
def significand (rank : Nat) : Nat := if binade rank = 0 then rank else rank % 2 ^ 52 + 2 ^ 52

def exponent (rank : Nat) : Int := if binade rank = 0 then -1074 else binade rank - 1075

/-- The magnitude of finite rank as a numerator and a denominator. -/
def fraction (rank : Nat) : Nat × Nat :=
  (significand rank * 2 ^ (exponent rank).toNat, 2 ^ (-exponent rank).toNat)

/-- The quotient `num / den` rounded to the nearest integer, a half to the even one. -/
def roundHalfEven (num den : Nat) : Nat :=
  let q := num / den
  let r := num % den
  if 2 * r < den then q else if den < 2 * r then q + 1 else q + q % 2

/-- The greatest `k` with `2 ^ k ≤ num / den`. -/
def floorLog2 (num den : Nat) : Int :=
  let k : Int := num.log2 - den.log2
  if den * 2 ^ k.toNat ≤ num * 2 ^ (-k).toNat then k else k - 1

/-- The rank of the double nearest to `num / den`, a tie going to the even rank. -/
def nearestRank (num den : Nat) : Nat :=
  if num = 0 then 0 else
    let e := max (floorLog2 num den - 52) (-1074)
    min ((e + 1074).toNat * 2 ^ 52 + roundHalfEven (num * 2 ^ (-e).toNat) (den * 2 ^ e.toNat)) infinityRank

theorem nearestRank_le (num den : Nat) : nearestRank num den ≤ infinityRank := by
  unfold nearestRank
  split
  · exact Nat.zero_le _
  · exact Nat.min_le_right _ _

/-- The double nearest to `num / den`; a fraction beyond the greatest double is infinite. -/
def ofFraction (negative : Bool) (num den : Nat) : Binary64 :=
  .ranked negative ⟨nearestRank num den, Nat.lt_succ_of_le (nearestRank_le num den)⟩

def infinity (negative : Bool) : Binary64 := .ranked negative (Fin.last infinityRank)

def zero (negative : Bool) : Binary64 := .ranked negative 0

/-- The double nearest to `digits * 10 ^ power`.  Powers so great or so small that the outcome is clear from the
length of `digits` are not computed. -/
def ofScientific (negative : Bool) (digits : Nat) (power : Int) : Binary64 :=
  if digits = 0 ∨ power < -(400 + digits.log2 : Int) then zero negative
  else if 400 < power then infinity negative
  else ofFraction negative (digits * 10 ^ power.toNat) (10 ^ (-power).toNat)

def isInfinite : Binary64 → Bool
  | .nan => false
  | .ranked _ rank => rank.val == infinityRank

end Binary64

end FormulaQuery
