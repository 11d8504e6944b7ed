import FormulaQuery.Number.Shortest

/-!
# Rounding to doubles

The rank nearest to a fraction depends on the value of the fraction alone (`nearestRank_mul`), and the magnitude of
a finite rank is rounded to that rank (`nearestRank_fraction`). So the decimal that a double is written with reads
back as the double (`rank_shortestDecimal`). What is rounded to infinity are the fractions from `overflow` on
(`nearestRank_eq_infinityRank_iff`), and no power of ten has to be computed that would lead beyond the doubles
(`ofScientific_eq`).
-/

namespace FormulaQuery.Binary64

/-! ### Logarithms of fractions -/

/-- The power `2 ^ k` is at most `num / den`. -/
def PowerLe (num den : Nat) (k : Int) : Prop := den * 2 ^ k.toNat ≤ num * 2 ^ (-k).toNat

private theorem PowerLe.pred {num den : Nat} {k : Int} (h : PowerLe num den (k + 1)) : PowerLe num den k := by
  unfold PowerLe at *
  by_cases hk : 0 ≤ k
  · rw [show (k + 1).toNat = k.toNat + 1 by omega, show (-(k + 1)).toNat = 0 by omega, Nat.pow_succ] at h
    rw [show (-k).toNat = 0 by omega]
    have : den * 2 ^ k.toNat ≤ den * (2 ^ k.toNat * 2) :=
      Nat.mul_le_mul_left _ (Nat.le_mul_of_pos_right _ (by decide))
    omega
  · rw [show (k + 1).toNat = 0 by omega] at h
    rw [show k.toNat = 0 by omega, show (-k).toNat = (-(k + 1)).toNat + 1 by omega, Nat.pow_succ]
    have : num * 2 ^ (-(k + 1)).toNat ≤ num * (2 ^ (-(k + 1)).toNat * 2) :=
      Nat.mul_le_mul_left _ (Nat.le_mul_of_pos_right _ (by decide))
    omega

private theorem PowerLe.of_le {num den : Nat} {k l : Int} (h : PowerLe num den k) (hl : l ≤ k) :
    PowerLe num den l := by
  obtain ⟨n, rfl⟩ : ∃ n : Nat, k = l + n := ⟨(k - l).toNat, by omega⟩
  clear hl
  induction n with
  | zero => simpa using h
  | succ n ih => exact ih (PowerLe.pred (by rwa [Int.add_assoc]))

private theorem powerLe_mul {num den m : Nat} (hm : 0 < m) (k : Int) :
    PowerLe (num * m) (den * m) k ↔ PowerLe num den k := by
  unfold PowerLe
  rw [Nat.mul_right_comm den, Nat.mul_right_comm num]
  exact Nat.mul_le_mul_right_iff hm

/-- There is only one greatest power of two below a fraction. -/
private theorem powerLe_unique {num den : Nat} {k l : Int} (hk : PowerLe num den k) (hk' : ¬PowerLe num den (k + 1))
    (hl : PowerLe num den l) (hl' : ¬PowerLe num den (l + 1)) : k = l := by
  by_cases h : k < l
  · exact absurd (hl.of_le (by omega)) hk'
  · by_cases h' : l < k
    · exact absurd (hk.of_le (by omega)) hl'
    · omega

/-- The logarithms of numerator and denominator tell the power up to one. -/
private theorem powerLe_log2 {num den : Nat} (hn : num ≠ 0) (hd : den ≠ 0) :
    PowerLe num den ((num.log2 : Int) - den.log2 - 1) ∧ ¬PowerLe num den ((num.log2 : Int) - den.log2 + 1) := by
  have hn₁ : 2 ^ num.log2 ≤ num := Nat.log2_self_le hn
  have hn₂ : num < 2 ^ (num.log2 + 1) := Nat.lt_log2_self
  have hd₁ : 2 ^ den.log2 ≤ den := Nat.log2_self_le hd
  have hd₂ : den < 2 ^ (den.log2 + 1) := Nat.lt_log2_self
  generalize num.log2 = a at *
  generalize den.log2 = b at *
  unfold PowerLe
  constructor
  · by_cases h : b + 1 ≤ a
    · rw [show ((a : Int) - b - 1).toNat = a - (b + 1) by omega, show (-((a : Int) - b - 1)).toNat = 0 by omega,
        Nat.pow_zero, Nat.mul_one]
      calc den * 2 ^ (a - (b + 1)) ≤ 2 ^ (b + 1) * 2 ^ (a - (b + 1)) := Nat.mul_le_mul_right _ (Nat.le_of_lt hd₂)
        _ = 2 ^ a := by rw [← Nat.pow_add, Nat.add_sub_cancel' h]
        _ ≤ num := hn₁
    · rw [show ((a : Int) - b - 1).toNat = 0 by omega, show (-((a : Int) - b - 1)).toNat = b + 1 - a by omega,
        Nat.pow_zero, Nat.mul_one]
      calc den ≤ 2 ^ (b + 1) := Nat.le_of_lt hd₂
        _ = 2 ^ a * 2 ^ (b + 1 - a) := by rw [← Nat.pow_add, Nat.add_sub_cancel' (by omega)]
        _ ≤ num * 2 ^ (b + 1 - a) := Nat.mul_le_mul_right _ hn₁
  · rw [Nat.not_le]
    by_cases h : b ≤ a + 1
    · rw [show ((a : Int) - b + 1).toNat = a + 1 - b by omega, show (-((a : Int) - b + 1)).toNat = 0 by omega,
        Nat.pow_zero, Nat.mul_one]
      calc num < 2 ^ (a + 1) := hn₂
        _ = 2 ^ b * 2 ^ (a + 1 - b) := by rw [← Nat.pow_add, Nat.add_sub_cancel' h]
        _ ≤ den * 2 ^ (a + 1 - b) := Nat.mul_le_mul_right _ hd₁
    · rw [show ((a : Int) - b + 1).toNat = 0 by omega, show (-((a : Int) - b + 1)).toNat = b - (a + 1) by omega,
        Nat.pow_zero, Nat.mul_one]
      calc num * 2 ^ (b - (a + 1)) < 2 ^ (a + 1) * 2 ^ (b - (a + 1)) :=
            Nat.mul_lt_mul_of_pos_right hn₂ (Nat.two_pow_pos _)
        _ = 2 ^ b := by rw [← Nat.pow_add, Nat.add_sub_cancel' (by omega)]
        _ ≤ den := hd₁

private theorem floorLog2_spec {num den : Nat} (hn : num ≠ 0) (hd : den ≠ 0) :
    PowerLe num den (floorLog2 num den) ∧ ¬PowerLe num den (floorLog2 num den + 1) := by
  obtain ⟨hlow, hhigh⟩ := powerLe_log2 hn hd
  unfold floorLog2
  dsimp only
  split
  · rename_i h
    exact ⟨h, hhigh⟩
  · rename_i h
    exact ⟨hlow, by rwa [Int.sub_add_cancel]⟩

private theorem floorLog2_eq {num den : Nat} (hn : num ≠ 0) (hd : den ≠ 0) {k : Int} (hk : PowerLe num den k)
    (hk' : ¬PowerLe num den (k + 1)) : floorLog2 num den = k :=
  powerLe_unique (floorLog2_spec hn hd).1 (floorLog2_spec hn hd).2 hk hk'

private theorem floorLog2_mul {num den m : Nat} (hn : num ≠ 0) (hd : den ≠ 0) (hm : 0 < m) :
    floorLog2 (num * m) (den * m) = floorLog2 num den := by
  obtain ⟨h, h'⟩ := floorLog2_spec hn hd
  exact floorLog2_eq (Nat.mul_ne_zero hn (by omega)) (Nat.mul_ne_zero hd (by omega)) ((powerLe_mul hm _).2 h)
    (fun hp => h' ((powerLe_mul hm _).1 hp))

/-! ### Rounding fractions -/

private theorem roundHalfEven_mul {num den m : Nat} (hm : 0 < m) :
    roundHalfEven (num * m) (den * m) = roundHalfEven num den := by
  have hlt : ∀ x y, x * m < y * m ↔ x < y := fun x y => Nat.mul_lt_mul_right hm
  unfold roundHalfEven
  simp only [Nat.mul_div_mul_right _ _ hm, Nat.mul_mod_mul_right, ← Nat.mul_assoc, hlt]

private theorem roundHalfEven_mul_self {m den : Nat} (hd : 0 < den) : roundHalfEven (m * den) den = m := by
  unfold roundHalfEven
  simp only [Nat.mul_div_cancel _ hd, Nat.mul_mod_left, Nat.mul_zero, hd, if_true]

/-- Rounding does not depend on how a fraction is written. -/
theorem nearestRank_mul {num den m : Nat} (hd : den ≠ 0) (hm : 0 < m) :
    nearestRank (num * m) (den * m) = nearestRank num den := by
  unfold nearestRank
  by_cases hn : num = 0
  · rw [if_pos hn, if_pos (by rw [hn, Nat.zero_mul])]
  · rw [if_neg hn, if_neg (Nat.mul_ne_zero hn (by omega)), floorLog2_mul hn hd hm]
    dsimp only
    rw [Nat.mul_right_comm num, Nat.mul_right_comm den, roundHalfEven_mul hm]

theorem nearestRank_eq_of_cross {num den num' den' : Nat} (hd : den ≠ 0) (hd' : den' ≠ 0)
    (h : num * den' = num' * den) : nearestRank num den = nearestRank num' den' := by
  rw [← nearestRank_mul hd (Nat.pos_of_ne_zero hd'), ← nearestRank_mul hd' (Nat.pos_of_ne_zero hd), h,
    Nat.mul_comm den]

/-! ### Magnitudes of finite ranks -/

/-- The exponents of a power and of its inverse balance. -/
private theorem floorLog2_scaled {m k : Nat} (e : Int) (hlow : 2 ^ k ≤ m) (hhigh : m < 2 ^ (k + 1)) :
    floorLog2 (m * 2 ^ e.toNat) (2 ^ (-e).toNat) = k + e := by
  have hm : m ≠ 0 := by
    have := Nat.two_pow_pos k
    omega
  refine floorLog2_eq (Nat.mul_ne_zero hm (Nat.ne_of_gt (Nat.two_pow_pos _))) (Nat.ne_of_gt (Nat.two_pow_pos _)) ?_ ?_
  · unfold PowerLe
    rw [← Nat.pow_add, Nat.mul_assoc, ← Nat.pow_add,
      show (-e).toNat + ((k : Int) + e).toNat = k + (e.toNat + (-((k : Int) + e)).toNat) by omega, Nat.pow_add 2 k]
    exact Nat.mul_le_mul_right _ hlow
  · unfold PowerLe
    rw [← Nat.pow_add, Nat.mul_assoc, ← Nat.pow_add, Nat.not_le,
      show (-e).toNat + ((k : Int) + e + 1).toNat = k + 1 + (e.toNat + (-((k : Int) + e + 1)).toNat) by omega,
      Nat.pow_add 2 (k + 1)]
    exact Nat.mul_lt_mul_of_pos_right hhigh (Nat.two_pow_pos _)

private theorem nearestRank_scaled {m k : Nat} {e : Int} (hlow : 2 ^ k ≤ m) (hhigh : m < 2 ^ (k + 1))
    (he : max ((k : Int) + e - 52) (-1074) = e) :
    nearestRank (m * 2 ^ e.toNat) (2 ^ (-e).toNat) = min ((e + 1074).toNat * 2 ^ 52 + m) infinityRank := by
  have hm : m ≠ 0 := by
    have := Nat.two_pow_pos k
    omega
  unfold nearestRank
  rw [if_neg (Nat.mul_ne_zero hm (Nat.ne_of_gt (Nat.two_pow_pos _))), floorLog2_scaled e hlow hhigh, he]
  dsimp only
  rw [Nat.mul_assoc, Nat.mul_comm (2 ^ e.toNat),
    roundHalfEven_mul_self (Nat.mul_pos (Nat.two_pow_pos _) (Nat.two_pow_pos _))]

/-- The magnitude of a finite rank is rounded to that rank. -/
theorem nearestRank_fraction {rank : Nat} (h : rank < infinityRank) :
    nearestRank (fraction rank).1 (fraction rank).2 = rank := by
  have hdiv : binade rank * 2 ^ 52 + rank % 2 ^ 52 = rank := by
    rw [binade, Nat.mul_comm]
    exact Nat.div_add_mod rank (2 ^ 52)
  have hmod : rank % 2 ^ 52 < 2 ^ 52 := Nat.mod_lt _ (by decide)
  by_cases hb : binade rank = 0
  · -- below the first binade the significand is the rank itself
    rw [fraction, significand, exponent, if_pos hb, if_pos hb]
    by_cases hr : rank = 0
    · rw [hr, Nat.zero_mul, nearestRank, if_pos rfl]
    · rw [hb, Nat.zero_mul, Nat.zero_add] at hdiv
      rw [nearestRank_scaled (Nat.log2_self_le hr) Nat.lt_log2_self]
      · rw [show (-1074 + 1074 : Int).toNat = 0 from rfl, Nat.zero_mul, Nat.zero_add]
        exact Nat.min_eq_left (Nat.le_of_lt h)
      · have : rank.log2 < 52 := (Nat.log2_lt hr).2 (by omega)
        omega
  · rw [fraction, significand, exponent, if_neg hb, if_neg hb]
    rw [nearestRank_scaled (k := 52) (Nat.le_add_left _ _) (by rw [Nat.pow_succ]; omega) (by omega),
      show ((binade rank : Int) - 1075 + 1074).toNat = binade rank - 1 by omega]
    have hsum : (binade rank - 1) * 2 ^ 52 + (rank % 2 ^ 52 + 2 ^ 52) = rank := by
      have hpred : (binade rank - 1) * 2 ^ 52 + 2 ^ 52 = binade rank * 2 ^ 52 := by
        rw [← Nat.succ_mul, Nat.succ_eq_add_one, Nat.sub_add_cancel (Nat.pos_of_ne_zero hb)]
      rw [Nat.add_comm (rank % 2 ^ 52), ← Nat.add_assoc, hpred, hdiv]
    rw [hsum]
    exact Nat.min_eq_left (Nat.le_of_lt h)

/-! ### Overflow -/

/-- A quotient is rounded up to an even number from half a unit below it on. -/
private theorem le_roundHalfEven_iff {num den m : Nat} (hd : 0 < den) (hm : m % 2 = 0) :
    m ≤ roundHalfEven num den ↔ 2 * (m * den) ≤ 2 * num + den := by
  have hdiv := Nat.div_add_mod num den
  have hmod := Nat.mod_lt num hd
  unfold roundHalfEven
  dsimp only
  generalize num / den = q at *
  generalize num % den = r at *
  have hbelow : m ≤ q → m * den ≤ den * q := fun h => by
    rw [Nat.mul_comm den]
    exact Nat.mul_le_mul_right den h
  have habove : q + 2 ≤ m → den * q + 2 * den ≤ m * den := fun h => by
    rw [Nat.mul_comm den, ← Nat.add_mul]
    exact Nat.mul_le_mul_right den h
  -- the quotient just below is odd, so that a half goes up
  have hnext : m = q + 1 → m * den = den * q + den := fun h => by rw [h, Nat.succ_mul, Nat.mul_comm]
  split
  · omega
  · split <;> omega

/-- A power of two below a fraction, seen from a lower power of two. -/
private theorem powerLe_add_iff (num den : Nat) (e : Int) (j : Nat) :
    PowerLe num den (e + j) ↔ 2 ^ j * (den * 2 ^ e.toNat) ≤ num * 2 ^ (-e).toNat := by
  have hsum : (e + j).toNat + (-e).toNat = j + (e.toNat + (-(e + j)).toNat) := by omega
  have hden : den * 2 ^ (e + j).toNat * 2 ^ (-e).toNat = 2 ^ j * (den * 2 ^ e.toNat) * 2 ^ (-(e + j)).toNat := by
    rw [Nat.mul_assoc, ← Nat.pow_add, hsum, Nat.pow_add, Nat.pow_add, Nat.mul_left_comm, Nat.mul_assoc, Nat.mul_assoc]
  calc PowerLe num den (e + j)
      ↔ den * 2 ^ (e + j).toNat * 2 ^ (-e).toNat ≤ num * 2 ^ (-(e + j)).toNat * 2 ^ (-e).toNat :=
        (Nat.mul_le_mul_right_iff (Nat.two_pow_pos _)).symm
    _ ↔ 2 ^ j * (den * 2 ^ e.toNat) * 2 ^ (-(e + j)).toNat ≤ num * 2 ^ (-e).toNat * 2 ^ (-(e + j)).toNat := by
        rw [hden, Nat.mul_right_comm num]
    _ ↔ 2 ^ j * (den * 2 ^ e.toNat) ≤ num * 2 ^ (-e).toNat := Nat.mul_le_mul_right_iff (Nat.two_pow_pos _)

/-- Half the distance between the two greatest doubles. -/
def halfStep : Nat := 2 ^ 970

/-- The least value that is rounded to infinity. It lies half a step beyond the greatest double. -/
def overflow : Nat := (2 ^ 54 - 1) * halfStep

/-- The powers of two from half a step on. -/
private theorem powerLe_iff_halfStep (num den j : Nat) :
    PowerLe num den (970 + j) ↔ 2 ^ j * (den * halfStep) ≤ num := by
  have h := powerLe_add_iff num den 970 j
  rwa [show (-970 : Int).toNat = 0 from rfl, Nat.pow_zero, Nat.mul_one, show (970 : Int).toNat = 970 from rfl,
    ← halfStep] at h

/-- A fraction is rounded to infinity exactly from `overflow` on. -/
theorem nearestRank_eq_infinityRank_iff {num den : Nat} (hd : den ≠ 0) :
    nearestRank num den = infinityRank ↔ overflow * den ≤ num := by
  have hpower : ∀ k : Nat, 0 < den * 2 ^ k := fun k => Nat.mul_pos (Nat.pos_of_ne_zero hd) (Nat.two_pow_pos k)
  have hunit : 0 < den * halfStep := hpower 970
  rw [overflow, Nat.mul_assoc, Nat.mul_comm halfStep]
  by_cases hn : num = 0
  · rw [hn, nearestRank, if_pos rfl]
    have hrank : 0 ≠ infinityRank := by decide
    omega
  obtain ⟨hlow, hhigh⟩ := floorLog2_spec hn hd
  rw [nearestRank, if_neg hn, infinityRank]
  dsimp only
  generalize he : max (floorLog2 num den - 52) (-1074) = e
  have hround : ∀ m, m % 2 = 0 → (m ≤ roundHalfEven (num * 2 ^ (-e).toNat) (den * 2 ^ e.toNat) ↔
      2 * (m * (den * 2 ^ e.toNat)) ≤ 2 * (num * 2 ^ (-e).toNat) + den * 2 ^ e.toNat) :=
    fun m hm => le_roundHalfEven_iff (hpower _) hm
  generalize roundHalfEven (num * 2 ^ (-e).toNat) (den * 2 ^ e.toNat) = significand at *
  rcases Int.lt_trichotomy e 971 with hlt | rfl | hgt
  · -- up to this exponent the greatest significand gives a double
    have hbelow : ¬PowerLe num den (e + (53 : Nat)) := fun h => hhigh (h.of_le (by omega))
    have hnum : ¬PowerLe num den (970 + (53 : Nat)) := fun h => hhigh (h.of_le (by omega))
    rw [powerLe_add_iff] at hbelow
    rw [powerLe_iff_halfStep] at hnum
    have := hround (3 * 2 ^ 52) (by decide)
    omega
  · -- at the last exponent a significand that is rounded to the next power of two is infinite
    have hdouble : ∀ k : Nat, den * 2 ^ (k + 1) = 2 * (den * 2 ^ k) := fun k => by
      rw [Nat.pow_succ, ← Nat.mul_assoc, Nat.mul_comm]
    have hden : den * 2 ^ (971 : Int).toNat = 2 * (den * halfStep) := by
      rw [show (971 : Int).toNat = 970 + 1 from rfl]
      exact hdouble 970
    have := hround (2 ^ 53) (by decide)
    rw [hden, show (-971 : Int).toNat = 0 from rfl] at this
    omega
  · have habove : PowerLe num den (e + (52 : Nat)) := hlow.of_le (by omega)
    have hnum : PowerLe num den (970 + (54 : Nat)) := hlow.of_le (by omega)
    rw [powerLe_add_iff] at habove
    rw [powerLe_iff_halfStep] at hnum
    have := hround (2 ^ 52) (by decide)
    omega

/-- What is below half the least double is rounded to zero. -/
private theorem nearestRank_eq_zero {num den : Nat} (h : ¬PowerLe num den (-1075)) : nearestRank num den = 0 := by
  by_cases hn : num = 0
  · rw [hn, nearestRank, if_pos rfl]
  have hd : den ≠ 0 := by
    rintro rfl
    exact h (by rw [PowerLe, Nat.zero_mul]; exact Nat.zero_le _)
  have hlog : floorLog2 num den < -1075 :=
    Int.not_le.1 fun hge => h ((floorLog2_spec hn hd).1.of_le hge)
  have hsmall : 2 * (num * 2 ^ 1074) < den := by
    have hdouble : ∀ k : Nat, num * 2 ^ (k + 1) = 2 * (num * 2 ^ k) := fun k => by
      rw [Nat.pow_succ, ← Nat.mul_assoc, Nat.mul_comm]
    rw [← hdouble]
    rw [PowerLe, show (-1075 : Int).toNat = 0 from rfl, Nat.pow_zero, Nat.mul_one,
      show (-(-1075) : Int).toNat = 1074 + 1 from rfl] at h
    exact Nat.lt_of_not_le h
  have hround : roundHalfEven (num * 2 ^ 1074) den = 0 := by
    have hlt : num * 2 ^ 1074 < den := by omega
    rw [roundHalfEven, Nat.div_eq_of_lt hlt, Nat.mod_eq_of_lt hlt, if_pos hsmall]
  rw [nearestRank, if_neg hn, show max (floorLog2 num den - 52) (-1074) = -1074 by omega]
  dsimp only
  rw [show (-(-1074) : Int).toNat = 1074 from rfl, show (-1074 : Int).toNat = 0 from rfl, Nat.pow_zero, Nat.mul_one,
    hround]
  rfl

/-! ### Powers of ten -/

private theorem two_pow_le_ten_pow (n : Nat) : 2 ^ (3 * n) ≤ 10 ^ n := by
  rw [Nat.pow_mul]
  exact Nat.pow_le_pow_left (by decide) n

/-- A number that is divided by so many tens is below half the least double. -/
private theorem not_powerLe_of_log2_lt {digits places : Nat} (h : 400 + digits.log2 < places) :
    ¬PowerLe digits (10 ^ places) (-1075) := by
  have hdigits : digits < 2 ^ (digits.log2 + 1) := Nat.lt_log2_self
  have hpower : ∀ k : Nat, k ≤ 3 * 400 → digits * 2 ^ k < 10 ^ places := by
    intro k hk
    calc digits * 2 ^ k < 2 ^ (digits.log2 + 1) * 2 ^ k := Nat.mul_lt_mul_of_pos_right hdigits (Nat.two_pow_pos k)
      _ = 2 ^ (digits.log2 + 1 + k) := (Nat.pow_add ..).symm
      _ ≤ 2 ^ (3 * places) := Nat.pow_le_pow_right (by decide) (by omega)
      _ ≤ 10 ^ places := two_pow_le_ten_pow places
  rw [PowerLe, show (-1075 : Int).toNat = 0 from rfl, Nat.pow_zero, Nat.mul_one,
    show (-(-1075) : Int).toNat = 1075 from rfl]
  exact Nat.not_le_of_lt (hpower 1075 (by decide))

private theorem overflow_le_of_lt {digits power : Nat} (hdigits : digits ≠ 0) (h : 400 < power) :
    overflow ≤ digits * 10 ^ power := by
  have hstep : ∀ k : Nat, k ≤ 970 → (2 ^ 54 - 1) * 2 ^ k ≤ digits * 10 ^ power := by
    intro k hk
    calc (2 ^ 54 - 1) * 2 ^ k ≤ 2 ^ 54 * 2 ^ k := Nat.mul_le_mul_right _ (Nat.sub_le ..)
      _ = 2 ^ (54 + k) := (Nat.pow_add ..).symm
      _ ≤ 2 ^ (3 * power) := Nat.pow_le_pow_right (by decide) (by omega)
      _ ≤ 10 ^ power := two_pow_le_ten_pow power
      _ ≤ digits * 10 ^ power := Nat.le_mul_of_pos_left _ (Nat.pos_of_ne_zero hdigits)
  have h := hstep 970 (Nat.le_refl _)
  rwa [← halfStep, ← overflow] at h

/-- Powers of ten that are not computed are so great or so small that they change nothing. -/
theorem ofScientific_eq (negative : Bool) (digits : Nat) (power : Int) :
    ofScientific negative digits power = ofFraction negative (digits * 10 ^ power.toNat) (10 ^ (-power).toNat) := by
  unfold ofScientific
  by_cases hdigits : digits = 0
  · rw [if_pos (Or.inl hdigits), hdigits, Nat.zero_mul]
    refine congrArg (ranked negative) (Fin.ext ?_)
    show 0 = nearestRank 0 (10 ^ (-power).toNat)
    rw [nearestRank, if_pos rfl]
  by_cases hsmall : power < -(400 + digits.log2 : Int)
  · rw [if_pos (Or.inr hsmall), show power.toNat = 0 by omega, Nat.pow_zero, Nat.mul_one]
    refine congrArg (ranked negative) (Fin.ext ?_)
    exact (nearestRank_eq_zero (not_powerLe_of_log2_lt (by omega))).symm
  rw [if_neg (not_or.2 ⟨hdigits, hsmall⟩)]
  by_cases hgreat : 400 < power
  · rw [if_pos hgreat, show (-power).toNat = 0 by omega, Nat.pow_zero]
    refine congrArg (ranked negative) (Fin.ext ?_)
    refine ((nearestRank_eq_infinityRank_iff (by decide)).2 ?_).symm
    rw [Nat.mul_one]
    exact overflow_le_of_lt hdigits (by omega)
  · rw [if_neg hgreat]

/-! ### The shortest decimal -/

private theorem rank_exactDecimal {rank : Nat} (h : rank < infinityRank) : (exactDecimal rank).rank = rank := by
  unfold exactDecimal Decimal.rank
  dsimp only
  split
  · rename_i he
    conv => rhs; rw [← nearestRank_fraction h]
    rw [fraction, show (-exponent rank).toNat = 0 by omega]
    simp
  · rename_i he
    -- the fives that were put in are cancelled against those of the denominator
    conv => rhs; rw [← nearestRank_fraction h]
    dsimp only [fraction]
    rw [show (exponent rank).toNat = 0 by omega]
    simp only [Nat.pow_zero, Nat.mul_one]
    rw [show 10 = 2 * 5 from rfl, Nat.mul_pow]
    exact nearestRank_mul (Nat.ne_of_gt (Nat.two_pow_pos _)) (Nat.pow_pos (by decide))

private theorem rank_searchShortest {rank num den n count : Nat} {top : Int} {d : Decimal}
    (h : searchShortest rank num den top n count = some d) : d.rank = rank := by
  induction count generalizing n with
  | zero => cases h
  | succ count ih =>
    unfold searchShortest at h
    dsimp only at h
    split at h
    · rename_i hrank
      cases h
      exact hrank
    · split at h
      · rename_i hrank
        cases h
        exact hrank
      · exact ih h

/-- The decimal that a finite double is written with reads back as the double. -/
theorem rank_shortestDecimal {rank : Nat} (h : rank < infinityRank) : (shortestDecimal rank).rank = rank := by
  unfold shortestDecimal
  dsimp only
  cases hs : searchShortest rank (fraction rank).1 (fraction rank).2
      (magnitude (fraction rank).1 (fraction rank).2) 1 17 with
  | none => exact rank_exactDecimal h
  | some d => exact rank_searchShortest hs

end FormulaQuery.Binary64
