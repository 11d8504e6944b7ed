import FormulaQuery.Number.Shortest

/-!
# Decimals of 96 bits

Numbers reach the query as decimals whose digits fit in 96 bits, with at most 28 places. The double `m * 2 ^ e` is
`m * 10 ^ e * 5 ^ (-e)`, and its factors of five are worked off one by one. Bits are given up only where 96 are too
few. In the end digits beyond the precision of a double are rounded away. A double for which this fails is written
with its shortest digits.
-/

namespace FormulaQuery.Decimal96

/-- Digits are below this bound. -/
def capacity : Nat := 2 ^ 96

/-- Works off the fives of `m * 10 ^ shift * 5 ^ count`. -/
def multiplyFives (m : Nat) (shift : Int) : (count : Nat) → Nat × Int
  | 0 => (m, shift)
  | count + 1 =>
    if m % 2 = 0 then multiplyFives (m / 2) (shift + 1) count
    else if m * 5 < capacity then multiplyFives (m * 5) shift count
    else multiplyFives (m / 2) (shift + 1) count

/-- Works off the fives of `m * 10 ^ shift / 5 ^ count`; fails once the digits are full and the power of ten is out of
reach. -/
def divideFives (m : Nat) (shift : Int) : (count : Nat) → Option (Nat × Int)
  | 0 => some (m, shift)
  | count + 1 =>
    if m < 2 ^ 95 then divideFives (m * 2) (shift - 1) count
    else if (count + 1 : Int) < 2 * shift then none
    else divideFives (m / 5) shift count

/-- Multiplies out `count` factors of ten. -/
def multiplyTens (m : Nat) : (count : Nat) → Option Nat
  | 0 => some m
  | count + 1 => if m * 10 < capacity then multiplyTens (m * 10) count else none

/-- Drops `count` places, a five going up; stops at zero. -/
def dropPlaces (m : Nat) : (count places : Nat) → Nat × Nat
  | 0, places => (m, places)
  | count + 1, places =>
    if m / 10 = 0 then (0, 0)
    else dropPlaces (if 5 ≤ m % 10 then m / 10 + 1 else m / 10) count (places - 1)

/-- Drops places while the digits exceed the precision of a double. -/
def roundToPrecision (m : Nat) : (places : Nat) → Nat × Nat
  | 0 => (m, 0)
  | places + 1 =>
    if 2 ^ 52 ≤ m then roundToPrecision (if 5 ≤ m % 10 then m / 10 + 1 else m / 10) places
    else (m, places + 1)

/-- The 96 bit decimal of a finite magnitude, as digits and places. -/
def ofRank? (rank : Nat) : Option (Nat × Nat) := do
  let e := Binary64.exponent rank
  let (m, shift) ←
    if e < 0 then some (multiplyFives (Binary64.significand rank) e (-e).toNat)
    else divideFives (Binary64.significand rank) e e.toNat
  let m ← multiplyTens m shift.toNat
  let places := (-shift).toNat
  let (m, places) := dropPlaces m (places - 28) places
  return roundToPrecision m places

/-- The text of a number in the query. -/
def text (n : Binary64) : String :=
  match n with
  | .nan => n.text
  | .ranked negative rank =>
    if rank.val = infinityRank then n.text
    else if rank.val = 0 then "0"
    else match ofRank? rank.val with
      | none => n.text
      | some (m, places) =>
        let body := Decimal.text ⟨m, -(places : Int)⟩
        String.ofList (if negative && m ≠ 0 then '-' :: body else body)

end FormulaQuery.Decimal96
