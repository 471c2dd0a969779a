import Mathlib.Algebra.Order.Field.Power
import Mathlib.Data.Rat.Cast.Order
import Mathlib.Tactic.Linarith
import Mathlib.Tactic.Positivity
import Mathlib.Tactic.Ring
import RespWire.Decimal.Shortest
import RespWire.Proofs.Numerals

/-!
# Rounding

A fraction is rounded to a magnitude through its binary exponent, and the
exponent is found by comparing lengths of numerator and denominator.
`floorLog2_spec` says what is found, as an inequality between rational numbers.
From it follows what the search does not show: that rounding depends on the
ratio alone, so a fraction may be extended, and that a magnitude is its own
nearest.

The same holds for decimals. The cut-off far outside the range of doubles asks
for the number of digits and never gets in the way: all digits of a finite
magnitude lie within it.
-/

namespace RespWire

namespace Double

theorem reachesPower_iff {num den : Nat} {k : Int} :
    reachesPower num den k = true ↔ (2 : ℚ) ^ k * den ≤ num := by
  simp only [reachesPower, Nat.shiftLeft_eq]
  split
  · next hk =>
      obtain ⟨n, rfl⟩ := Int.eq_ofNat_of_zero_le hk
      rw [decide_eq_true_eq, zpow_natCast, Int.toNat_natCast, Nat.mul_comm]
      exact_mod_cast Iff.rfl
  · next hk =>
      obtain ⟨n, hn⟩ := Int.eq_ofNat_of_zero_le (show 0 ≤ -k by omega)
      obtain rfl : k = -(n : ℤ) := by omega
      have hpow : (0 : ℚ) < 2 ^ n := by positivity
      rw [decide_eq_true_eq, neg_neg, Int.toNat_natCast, zpow_neg, zpow_natCast,
        inv_mul_le_iff₀ hpow, mul_comm]
      exact_mod_cast Iff.rfl

/-- The binary exponent of a fraction: it lies between that power of two and the
next. -/
theorem floorLog2_spec {num den : Nat} (hnum : 0 < num) (hden : 0 < den) :
    (2 : ℚ) ^ floorLog2 num den * den ≤ num ∧
      (num : ℚ) < 2 ^ (floorLog2 num den + 1) * den := by
  have hnum' : (num : ℚ) < 2 ^ ((Nat.log2 num : ℤ) + 1) := by
    exact_mod_cast Nat.lt_log2_self (n := num)
  have hnum'' : (2 : ℚ) ^ (Nat.log2 num : ℤ) ≤ num := by
    exact_mod_cast Nat.log2_self_le (Nat.pos_iff_ne_zero.mp hnum)
  have hden' : (den : ℚ) < 2 ^ ((Nat.log2 den : ℤ) + 1) := by
    exact_mod_cast Nat.lt_log2_self (n := den)
  have hden'' : (2 : ℚ) ^ (Nat.log2 den : ℤ) ≤ den := by
    exact_mod_cast Nat.log2_self_le (Nat.pos_iff_ne_zero.mp hden)
  unfold floorLog2
  simp only
  generalize (Nat.log2 num : ℤ) = a at *
  generalize (Nat.log2 den : ℤ) = b at *
  split
  · next hreach =>
      refine ⟨reachesPower_iff.mp hreach, lt_of_lt_of_le hnum' ?_⟩
      calc (2 : ℚ) ^ (a + 1) = 2 ^ (a - b + 1) * 2 ^ b := by
            rw [← zpow_add₀ two_ne_zero]; congr 1; omega
        _ ≤ 2 ^ (a - b + 1) * den := by gcongr
  · next hreach =>
      rw [reachesPower_iff, not_le] at hreach
      rw [sub_add_cancel]
      refine ⟨le_trans ?_ hnum'', hreach⟩
      calc (2 : ℚ) ^ (a - b - 1) * den
          ≤ 2 ^ (a - b - 1) * 2 ^ (b + 1) := by gcongr
        _ = 2 ^ a := by rw [← zpow_add₀ two_ne_zero]; congr 1; omega

theorem floorLog2_eq {num den : Nat} {k : Int} (hnum : 0 < num) (hden : 0 < den)
    (hle : (2 : ℚ) ^ k * den ≤ num) (hlt : (num : ℚ) < 2 ^ (k + 1) * den) :
    floorLog2 num den = k := by
  obtain ⟨hle', hlt'⟩ := floorLog2_spec hnum hden
  have hpos : (0 : ℚ) < den := by exact_mod_cast hden
  have h₁ := (zpow_lt_zpow_iff_right₀ one_lt_two).mp
    (lt_of_mul_lt_mul_right (lt_of_le_of_lt hle hlt') hpos.le)
  have h₂ := (zpow_lt_zpow_iff_right₀ one_lt_two).mp
    (lt_of_mul_lt_mul_right (lt_of_le_of_lt hle' hlt) hpos.le)
  omega

theorem floorLog2_mul {c num den : Nat} (hc : 0 < c) (hnum : 0 < num)
    (hden : 0 < den) :
    floorLog2 (c * num) (c * den) = floorLog2 num den := by
  obtain ⟨hle, hlt⟩ := floorLog2_spec hnum hden
  have hc' : (0 : ℚ) < c := by exact_mod_cast hc
  refine floorLog2_eq (Nat.mul_pos hc hnum) (Nat.mul_pos hc hden) ?_ ?_
  · push_cast
    rw [mul_left_comm]
    gcongr
  · push_cast
    rw [mul_left_comm]
    gcongr

theorem roundDiv_mul {c : Nat} (hc : 0 < c) (num den : Nat) :
    roundDiv (c * num) (c * den) = roundDiv num den := by
  have hscale : ∀ a b : Nat, c * a < c * b ↔ a < b :=
    fun a b => Nat.mul_lt_mul_left hc
  unfold roundDiv
  simp only [Nat.mul_div_mul_left _ _ hc, Nat.mul_mod_mul_left,
    Nat.mul_left_comm 2 c, hscale]

/-- Rounding depends on the ratio alone. -/
theorem nearest_mul {c : Nat} (hc : 0 < c) (num : Nat) {den : Nat}
    (hden : 0 < den) :
    nearest (c * num) (c * den) = nearest num den := by
  rcases Nat.eq_zero_or_pos num with rfl | hnum
  · rw [Nat.mul_zero, nearest, nearest, if_pos rfl, if_pos rfl]
  · unfold nearest
    rw [if_neg (Nat.mul_pos hc hnum).ne', if_neg hnum.ne']
    simp only [floorLog2_mul hc hnum hden, Nat.shiftLeft_eq, Nat.mul_assoc,
      roundDiv_mul hc]

theorem roundDiv_mul_self (s : Nat) {c : Nat} (hc : 0 < c) :
    roundDiv (s * c) c = s := by
  rw [roundDiv]
  simp only [Nat.mul_div_cancel s hc, Nat.mul_mod_left, Nat.mul_zero, if_pos hc]

/-! ## A magnitude is its own nearest -/

/-- The significand and the exponent of a finite magnitude. The significand is
short of its 53 bits only at the least exponent. -/
theorem significand_exponent (m : Nat) :
    significand m < 2 ^ 53 ∧ -1074 ≤ exponent m ∧
      (2 ^ 52 ≤ significand m ∨ exponent m = -1074) ∧
      (exponent m + 1074).toNat * 0x10000000000000 + significand m = m := by
  unfold significand exponent
  split
  · next h =>
      rw [h]
      omega
  · next h => omega

theorem significand_pos {m : Nat} (h : 0 < m) : 0 < significand m := by
  unfold significand
  split <;> omega

/-- The exponent that rounding finds for `s` scaled by a power of two. -/
theorem roundingExponent {num den s : Nat} {q : Int} (hden : 0 < den)
    (hs : 0 < s) (hvalue : (num : ℚ) = s * 2 ^ q * den) (hlong : s < 2 ^ 53)
    (hq : -1074 ≤ q) (hfull : 2 ^ 52 ≤ s ∨ q = -1074) :
    max (floorLog2 num den - 52) (-1074) = q := by
  have hden' : (0 : ℚ) < den := by exact_mod_cast hden
  have hnum : 0 < num := by
    have : (0 : ℚ) < num := by rw [hvalue]; positivity
    exact_mod_cast this
  obtain ⟨hle, hlt⟩ := floorLog2_spec hnum hden
  have hupper : floorLog2 num den < 53 + q := by
    have hlong' : (s : ℚ) < 2 ^ (53 : ℤ) := by exact_mod_cast hlong
    have : (2 : ℚ) ^ floorLog2 num den * den < 2 ^ (53 + q) * den := by
      calc (2 : ℚ) ^ floorLog2 num den * den ≤ s * 2 ^ q * den := hvalue ▸ hle
        _ < 2 ^ (53 : ℤ) * 2 ^ q * den := by gcongr
        _ = 2 ^ (53 + q) * den := by rw [← zpow_add₀ two_ne_zero]
    exact (zpow_lt_zpow_iff_right₀ one_lt_two).mp
      (lt_of_mul_lt_mul_right this hden'.le)
  rcases hfull with hfull | hfull
  · have hlower : 52 + q < floorLog2 num den + 1 := by
      have hfull' : (2 : ℚ) ^ (52 : ℤ) ≤ s := by exact_mod_cast hfull
      have : (2 : ℚ) ^ (52 + q) * den < 2 ^ (floorLog2 num den + 1) * den := by
        calc (2 : ℚ) ^ (52 + q) * den = 2 ^ (52 : ℤ) * 2 ^ q * den := by
              rw [← zpow_add₀ two_ne_zero]
          _ ≤ s * 2 ^ q * den := by gcongr
          _ < 2 ^ (floorLog2 num den + 1) * den := hvalue ▸ hlt
      exact (zpow_lt_zpow_iff_right₀ one_lt_two).mp
        (lt_of_mul_lt_mul_right this hden'.le)
    omega
  · omega

theorem nearest_fraction {m : Nat} (h : m ≤ infinity) :
    nearest (fraction m).1 (fraction m).2 = m := by
  rcases Nat.eq_zero_or_pos m with rfl | hm
  · have hzero : (fraction 0).1 = 0 := by
      simp only [fraction, significand]
      split <;> simp
    rw [nearest, if_pos hzero]
  · obtain ⟨hlong, hq, hfull, hsum⟩ := significand_exponent m
    have hs := significand_pos hm
    have hround : ∀ num den : Nat,
        0 < den → (num : ℚ) = significand m * 2 ^ exponent m * den → num ≠ 0 →
        (if 0 ≤ exponent m then roundDiv num (den * 2 ^ (exponent m).toNat)
          else roundDiv (num * 2 ^ (-exponent m).toNat) den) = significand m →
        nearest num den = m := by
      intro num den hden hvalue hnum hdiv
      rw [nearest, if_neg hnum]
      simp only [roundingExponent hden hs hvalue hlong hq hfull,
        Nat.shiftLeft_eq]
      rw [hdiv, hsum, Nat.min_eq_left h]
    simp only [fraction, Nat.shiftLeft_eq, Nat.one_mul]
    generalize exponent m = q at *
    generalize significand m = s at *
    split
    · next hpos =>
        obtain ⟨n, rfl⟩ := Int.eq_ofNat_of_zero_le hpos
        rw [Int.toNat_natCast] at *
        refine hround _ _ Nat.one_pos ?_ (Nat.mul_pos hs (by positivity)).ne' ?_
        · push_cast
          rw [zpow_natCast, mul_one]
        · rw [if_pos hpos, Nat.one_mul, roundDiv_mul_self s (by positivity)]
    · next hneg =>
        obtain ⟨n, hn⟩ := Int.eq_ofNat_of_zero_le (show 0 ≤ -q by omega)
        obtain rfl : q = -(n : ℤ) := by omega
        refine hround _ _ (by positivity) ?_ hs.ne' ?_
        · rw [neg_neg, Int.toNat_natCast, zpow_neg, zpow_natCast]
          push_cast
          rw [mul_assoc, inv_mul_cancel₀ (by positivity), mul_one]
        · rw [if_neg hneg, roundDiv_mul_self s (by positivity)]

/-! ## Decimals -/

/-- A zero less in the coefficient is a power of ten more. -/
theorem nearestDecimal_mul_ten {c : Nat} (hc : 0 < c) (p : Int) :
    nearestDecimal ⟨c * 10, p⟩ = nearestDecimal ⟨c, p + 1⟩ := by
  have htop : (Decimal.digitCount (c * 10) : Int) + p = Decimal.digitCount c +
      (p + 1) := by
    rw [Decimal.digitCount_mul_ten hc]
    omega
  have hratio : (if 0 ≤ p then nearest (c * 10 * 10 ^ p.toNat) 1
        else nearest (c * 10) (10 ^ (-p).toNat)) =
      if 0 ≤ p + 1 then nearest (c * 10 ^ (p + 1).toNat) 1
        else nearest c (10 ^ (-(p + 1)).toNat) := by
    by_cases hp : 0 ≤ p
    · rw [if_pos hp, if_pos (by omega), Int.toNat_add hp (by decide),
        Nat.pow_add, Nat.mul_assoc, Nat.mul_comm 10]
      rfl
    · rw [if_neg hp, show (-p).toNat = (-(p + 1)).toNat + 1 by omega,
        Nat.pow_succ,
        Nat.mul_comm c, Nat.mul_comm (10 ^ _),
          nearest_mul (by decide) c (by positivity)]
      by_cases hp' : 0 ≤ p + 1
      · rw [if_pos hp', show (-(p + 1)).toNat = 0 by omega,
          show (p + 1).toNat = 0 by omega, Nat.pow_zero, Nat.mul_one]
      · rw [if_neg hp']
  have hzero : (c * 10 = 0) = (c = 0) := by simp
  simp only [nearestDecimal, Nat.pow_eq, htop, hzero, hratio]

theorem nearestDecimal_mul_pow {c : Nat} (hc : 0 < c) (n : Nat) (p : Int) :
    nearestDecimal ⟨c * 10 ^ n, p⟩ = nearestDecimal ⟨c, p + n⟩ := by
  induction n generalizing p with
  | zero => simp
  | succ n ih =>
      rw [Nat.pow_succ, ← Nat.mul_assoc,
        nearestDecimal_mul_ten (Nat.mul_pos hc (by positivity)),
        ih, Int.add_assoc, Int.add_comm 1]
      rfl

theorem nearestDecimal_trim (c : Nat) (p : Int) :
    nearestDecimal (trim c p) = nearestDecimal ⟨c, p⟩ := by
  induction c using Nat.strongRecOn generalizing p with
  | _ c ih =>
      rw [trim]
      split
      · next h =>
          obtain ⟨hpos, hmod⟩ := h
          rw [ih (c / 10) (by omega), ← nearestDecimal_mul_ten (by omega),
            Nat.div_mul_cancel (Nat.dvd_of_mod_eq_zero hmod)]
      · rfl

/-- Within the cut-off a decimal is rounded as the fraction that it is. -/
theorem nearestDecimal_of_top {c : Nat} {p : Int} (hc : 0 < c)
    (hlow : -400 ≤ (Decimal.digitCount c : Int) + p)
    (hhigh : (Decimal.digitCount c : Int) + p ≤ 400) :
    nearestDecimal ⟨c, p⟩ =
      if 0 ≤ p then nearest (c * 10 ^ p.toNat) 1
      else nearest c (10 ^ (-p).toNat) := by
  simp only [nearestDecimal, Nat.pow_eq]
  rw [if_neg (by simp; omega), if_neg (by omega)]

/-- Thirteen binary digits are fewer than four decimal ones. -/
theorem two_pow_le_ten_pow {a b : Nat} (h : 4 * ((a + 12) / 13) ≤ b) :
    2 ^ a ≤ 10 ^ b :=
  calc 2 ^ a ≤ 2 ^ (13 * ((a + 12) / 13)) :=
    Nat.pow_le_pow_right (by decide) (by omega)
    _ = (2 ^ 13) ^ ((a + 12) / 13) := Nat.pow_mul ..
    _ ≤ (10 ^ 4) ^ ((a + 12) / 13) := Nat.pow_le_pow_left (by decide) _
    _ = 10 ^ (4 * ((a + 12) / 13)) := (Nat.pow_mul ..).symm
    _ ≤ 10 ^ b := Nat.pow_le_pow_right (by decide) h

/-! How many digits a significand has where it is scaled up, and where it is
scaled down and the power of two is written with powers of five. -/

theorem digitCount_mul_two_pow_le {s n k : Nat} (hlong : s < 2 ^ 53)
    (hk : 4 * ((53 + n + 12) / 13) ≤ k + 1) :
    Decimal.digitCount (s * 2 ^ n) ≤ k + 1 := by
  refine Decimal.digitCount_le_iff.mpr
    (lt_of_lt_of_le ?_ (two_pow_le_ten_pow hk))
  rw [Nat.pow_add]
  gcongr

theorem digitCount_mul_five_pow_le {s k : Nat} (hlong : s < 2 ^ 53)
    (hk : 20 ≤ k + 1) (n : Nat) :
    Decimal.digitCount (s * 5 ^ n) ≤ k + n + 1 := by
  refine Decimal.digitCount_le_iff.mpr ?_
  calc s * 5 ^ n < 2 ^ 53 * 5 ^ n := by gcongr
    _ ≤ 10 ^ (k + 1) * 10 ^ n :=
        Nat.mul_le_mul (two_pow_le_ten_pow (by omega))
          (Nat.pow_le_pow_left (by decide) n)
    _ = 10 ^ (k + n + 1) := by rw [← Nat.pow_add, Nat.add_right_comm]

theorem lt_digitCount_mul_five_pow {s j k : Nat} (hs : 0 < s)
    (hk : k + 1 ≤ 2 * j) :
    k + 1 < Decimal.digitCount (s * 5 ^ (j + (k + 1))) := by
  by_contra hle
  refine absurd (Decimal.digitCount_le_iff.mp (Nat.not_lt.mp hle))
    (Nat.not_lt.mpr ?_)
  calc 10 ^ (k + 1) = 2 ^ (k + 1) * 5 ^ (k + 1) := by rw [← Nat.mul_pow]
    _ ≤ 2 ^ (2 * j) * 5 ^ (k + 1) :=
      Nat.mul_le_mul_right _ (Nat.pow_le_pow_right (by decide) hk)
    _ = 4 ^ j * 5 ^ (k + 1) := by rw [Nat.pow_mul]
    _ ≤ 5 ^ j * 5 ^ (k + 1) :=
      Nat.mul_le_mul_right _ (Nat.pow_le_pow_left (by decide) j)
    _ = 5 ^ (j + (k + 1)) := (Nat.pow_add ..).symm
    _ ≤ s * 5 ^ (j + (k + 1)) := Nat.le_mul_of_pos_left _ hs

theorem le_digitCount_mul_five_pow {s n : Nat} (hs : 0 < s) (hn : n ≤ 1074) :
    n ≤ Decimal.digitCount (s * 5 ^ n) + 400 := by
  rcases Nat.lt_or_ge n 402 with h | h
  · have := Decimal.digitCount_pos (s * 5 ^ n)
    omega
  · obtain ⟨k, rfl⟩ := Nat.exists_eq_add_of_le (show 401 + 1 ≤ n from h)
    have := lt_digitCount_mul_five_pow hs (show k + 1 ≤ 2 * 401 by omega)
    rw [show 401 + 1 + k = 401 + (k + 1) by omega]
    omega

theorem exponent_le {m : Nat} (h : m < infinity) : exponent m ≤ 971 := by
  unfold infinity at h
  unfold exponent
  omega

/-- All digits of a finite magnitude read back. -/
theorem nearestDecimal_exact {m : Nat} (hm : 0 < m) (h : m < infinity) :
    nearestDecimal (exact m) = m := by
  obtain ⟨hlong, hq, -, -⟩ := significand_exponent m
  have hs := significand_pos hm
  have hq' := exponent_le h
  have hfraction := nearest_fraction h.le
  simp only [fraction, Nat.shiftLeft_eq, Nat.one_mul] at hfraction
  simp only [exact, Nat.shiftLeft_eq, Nat.pow_eq]
  generalize exponent m = q at *
  generalize significand m = s at *
  split
  · next hpos =>
      obtain ⟨n, rfl⟩ := Int.eq_ofNat_of_zero_le hpos
      rw [if_pos hpos] at hfraction
      simp only [Int.toNat_natCast] at *
      have hpow : 0 < s * 2 ^ n := Nat.mul_pos hs (by positivity)
      have hcount :=
        digitCount_mul_two_pow_le (n := n) (k := 398) hlong (by omega)
      rw [nearestDecimal_of_top hpow (by omega) (by omega),
        if_pos (Int.le_refl 0)]
      simpa using hfraction
  · next hneg =>
      obtain ⟨n, hn⟩ := Int.eq_ofNat_of_zero_le (show 0 ≤ -q by omega)
      obtain rfl : q = -(n : ℤ) := by omega
      rw [if_neg hneg] at hfraction
      simp only [neg_neg, Int.toNat_natCast] at *
      have hpow : 0 < s * 5 ^ n := Nat.mul_pos hs (by positivity)
      have hhigh := digitCount_mul_five_pow_le (k := 398) hlong (by decide) n
      have hlow := le_digitCount_mul_five_pow hs (show n ≤ 1074 by omega)
      rw [nearestDecimal_of_top hpow (by omega) (by omega), if_neg hneg,
        neg_neg, Int.toNat_natCast,
        show (10 : Nat) = 5 * 2 from rfl, Nat.mul_pow, Nat.mul_comm s,
        nearest_mul (by positivity) s (by positivity)]
      exact hfraction

theorem nearestDecimal_of_atPower? {m : Nat} {p : Int} {s : Decimal.Scaled}
    (h : atPower? m p = some s) : nearestDecimal s = m := by
  unfold atPower? at h
  simp only at h
  generalize floorAt _ _ p = low at h
  split at h
  · next hlow hnext =>
      cases h
      rw [beq_iff_eq] at hlow hnext
      split <;> assumption
  · next hlow hnext =>
      cases h
      exact beq_iff_eq.mp hlow
  · next hlow hnext =>
      cases h
      exact beq_iff_eq.mp hnext
  · cases h

/-- What is written of a finite magnitude reads back. -/
theorem nearestDecimal_shortest {m : Nat} (hm : 0 < m) (h : m < infinity) :
    nearestDecimal (shortest m) = m := by
  unfold shortest
  simp only
  rw [nearestDecimal_trim]
  cases hfound : (List.range 17).findSome? _ with
  | none => exact nearestDecimal_exact hm h
  | some s =>
      obtain ⟨i, -, hi⟩ := List.exists_of_findSome?_eq_some hfound
      exact nearestDecimal_of_atPower? hi

end Double

end RespWire
