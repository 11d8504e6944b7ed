import FormulaQuery.Number.Shortest

/-!
# Values of written numbers

The value of a written number is found with two roundings. The digits at its front, as many as make a number of 64
bits, are rounded to a double, and that double is multiplied or divided by a power of ten, which is a double too.
Close to the greatest double the outcome is therefore not always the double nearest to the number. A number whose
product is infinite has no value.
-/

namespace FormulaQuery.Json

/-- A number as it is written: its sign, the digits before and after the point, and the power of ten. -/
structure Numeral where
  negative : Bool
  whole : List Char
  fraction : List Char
  power : Int
deriving DecidableEq, Repr

namespace Numeral

/-- Puts digits behind those of `n` as long as the outcome fits into 64 bits, and counts them. -/
def appendDigits (n : Nat) : List Char → Nat × Nat
  | [] => (n, 0)
  | d :: ds =>
    let longer := 10 * n + (d.toNat - '0'.toNat)
    if longer < 2 ^ 64 then
      let r := appendDigits longer ds
      (r.1, r.2 + 1)
    else (n, 0)

/-- The digits that count, with their power of ten. -/
def leading (n : Numeral) : Decimal :=
  let whole := appendDigits 0 n.whole
  let all := appendDigits whole.1 n.fraction
  ⟨all.1, n.power + (n.whole.length - whole.2 : Nat) - all.2⟩

/-- The greatest power of ten that is a finite double. -/
def maxPower : Nat := 308

/-- The double nearest to a power of ten, as a fraction. -/
def ten (power : Nat) : Nat × Nat := Binary64.fraction (Binary64.nearestRank (10 ^ power) 1)

/-- The magnitude of the given rank times a power of ten. -/
def multiply (negative : Bool) (rank power : Nat) : Binary64 :=
  let f := Binary64.fraction rank
  let t := ten power
  .ofFraction negative (f.1 * t.1) (f.2 * t.2)

/-- The magnitude of the given rank divided by a power of ten, by the greatest one as often as it takes. -/
def divide (negative : Bool) (rank power : Nat) : Binary64 :=
  let f := Binary64.fraction rank
  if power ≤ maxPower then
    let t := ten power
    .ofFraction negative (f.1 * t.2) (f.2 * t.1)
  else if rank = 0 then .zero negative
  else
    let t := ten maxPower
    divide negative (Binary64.nearestRank (f.1 * t.2) (f.2 * t.1)) (power - maxPower)
termination_by power
decreasing_by
  have : 0 < maxPower := by decide
  omega

def value? (n : Numeral) : Option Binary64 :=
  let d := n.leading
  let rank := Binary64.nearestRank d.digits 1
  match d.power with
  | .negSucc k => some (divide n.negative rank (k + 1))
  | .ofNat k =>
    if rank = 0 then some (.zero n.negative)
    else if maxPower < k then none
    else
      let product := multiply n.negative rank k
      if product.isInfinite then none else some product

end Numeral

end FormulaQuery.Json
