import FormulaQuery.Number.Binary64

/-!
# Shortest decimal text of a double

A double is written with the fewest digits that read back as the same double, and of those with the digits nearest
to it, always in positional notation. The search tries one digit, then two, and so on; on each grid of decimals only
the two neighbours of the value can read back.
-/

namespace FormulaQuery

/-- The decimal `digits * 10 ^ power`. -/
structure Decimal where
  digits : Nat
  power : Int
deriving DecidableEq, Repr

namespace Decimal

/-- The rank of the double nearest to a decimal. -/
def rank (d : Decimal) : Nat := Binary64.nearestRank (d.digits * 10 ^ d.power.toNat) (10 ^ (-d.power).toNat)

/-- A decimal in positional notation, with no zero at the end of its fraction. -/
def text (d : Decimal) : List Char :=
  if 0 ≤ d.power then
    Nat.toDigits 10 (d.digits * 10 ^ d.power.toNat)
  else
    let places := (-d.power).toNat
    let whole := Nat.toDigits 10 (d.digits / 10 ^ places)
    let fraction := Nat.toDigits 10 (d.digits % 10 ^ places)
    let padded := List.replicate (places - fraction.length) '0' ++ fraction
    match (padded.reverse.dropWhile (· == '0')).reverse with
    | [] => whole
    | kept => whole ++ '.' :: kept

end Decimal

namespace Binary64

/-- The two neighbours of the fraction `num / den` among the multiples of `10 ^ power`, the nearer one first; of two
that are equally near, the upper one. -/
def neighbours (num den : Nat) (power : Int) : Decimal × Decimal :=
  let n := num * 10 ^ (-power).toNat
  let d := den * 10 ^ power.toNat
  let low := n / d
  if 2 * (n % d) < d then (⟨low, power⟩, ⟨low + 1, power⟩) else (⟨low + 1, power⟩, ⟨low, power⟩)

/-- The number of digits before the decimal point, negative if zeros follow the point. -/
def magnitude (num den : Nat) : Int := (Nat.toDigits 10 (num * 10 ^ 400 / den)).length - 400

/-- Tries the grids of `n`, `n + 1`, … digits, `count` of them. -/
def searchShortest (rank num den : Nat) (top : Int) (n : Nat) : (count : Nat) → Option Decimal
  | 0 => none
  | count + 1 =>
    let c := neighbours num den (top - n)
    if c.1.rank = rank then some c.1
    else if c.2.rank = rank then some c.2
    else searchShortest rank num den top (n + 1) count

/-- All the digits of a finite magnitude. -/
def exactDecimal (rank : Nat) : Decimal :=
  let e := exponent rank
  if 0 ≤ e then ⟨significand rank * 2 ^ e.toNat, 0⟩ else ⟨significand rank * 5 ^ (-e).toNat, e⟩

/-- The shortest decimal that reads back as the magnitude of finite rank.  Seventeen digits are always enough. -/
def shortestDecimal (rank : Nat) : Decimal :=
  let f := fraction rank
  (searchShortest rank f.1 f.2 (magnitude f.1 f.2) 1 17).getD (exactDecimal rank)

/-- The text of a double: `inf`, `NaN`, or its shortest digits. -/
def text : Binary64 → String
  | .nan => "NaN"
  | .ranked negative rank =>
    let body := if rank.val = infinityRank then "inf".toList else (shortestDecimal rank.val).text
    String.ofList (if negative then '-' :: body else body)

end Binary64

end FormulaQuery
