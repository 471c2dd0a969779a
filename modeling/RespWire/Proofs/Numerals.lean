import RespWire.Proofs.Grammar

/-!
# Written numbers read back

The digits of a number are digits, and the number they denote is that number.
How many digits there are tells how great a number is: those with at most `k`
digits are the ones below the `k`-th power of ten.

The digits are built from the last to the first while their value is taken
from the first to the last. `ofNat_of_le` turns one into the other: the digits
of a number are those of its tenth, with one more behind.
-/

namespace RespWire

namespace Decimal

theorem isDigit_digit {d : Nat} (h : d < 10) : isDigit (digit d) = true := by
  revert d
  decide

theorem digitValue_digit {d : Nat} (h : d < 10) : digitValue (digit d) = d := by
  revert d
  decide

theorem digitsOnto_append (n : Nat) (rest : Bytes) :
    digitsOnto n rest = ofNat n ++ rest := by
  induction n using Nat.strongRecOn generalizing rest with
  | _ n ih =>
      rw [ofNat, digitsOnto.eq_def n rest, digitsOnto.eq_def n []]
      split
      · rfl
      · rw [ih (n / 10) (by omega), ih (n / 10) (by omega), List.append_assoc]
        rfl

theorem ofNat_of_lt {n : Nat} (h : n < 10) : ofNat n = [digit n] := by
  rw [ofNat, digitsOnto, if_pos h]

theorem ofNat_of_le {n : Nat} (h : 10 ≤ n) :
    ofNat n = ofNat (n / 10) ++ [digit (n % 10)] := by
  rw [ofNat, digitsOnto, if_neg (Nat.not_lt.mpr h), digitsOnto_append]

theorem digits_ofNat (n : Nat) : Digits (ofNat n) := by
  induction n using Nat.strongRecOn with
  | _ n ih =>
      rcases Nat.lt_or_ge n 10 with h | h
      · rw [ofNat_of_lt h]
        exact ⟨List.cons_ne_nil _ _,
          fun b hb => List.mem_singleton.mp hb ▸ isDigit_digit h⟩
      · rw [ofNat_of_le h]
        refine ⟨by simp, fun b hb => ?_⟩
        rcases List.mem_append.mp hb with hb | hb
        · exact (ih (n / 10) (by omega)).isDigit b hb
        · exact List.mem_singleton.mp hb ▸ isDigit_digit
            (Nat.mod_lt n (by decide))

theorem valueFrom_append (m : Nat) (xs ys : Bytes) :
    valueFrom m (xs ++ ys) = valueFrom (valueFrom m xs) ys := List.foldl_append

theorem value_append (xs ys : Bytes) :
    value (xs ++ ys) = valueFrom (value xs) ys :=
  valueFrom_append 0 xs ys

theorem value_ofNat (n : Nat) : value (ofNat n) = n := by
  induction n using Nat.strongRecOn with
  | _ n ih =>
      rcases Nat.lt_or_ge n 10 with h | h
      · rw [ofNat_of_lt h]
        show 0 * 10 + digitValue (digit n) = n
        rw [digitValue_digit h, Nat.zero_mul, Nat.zero_add]
      · rw [ofNat_of_le h, value_append, ih (n / 10) (by omega)]
        show n / 10 * 10 + digitValue (digit (n % 10)) = n
        rw [digitValue_digit (Nat.mod_lt n (by decide))]
        omega

/-! ## How many digits -/

theorem digitCount_of_lt {n : Nat} (h : n < 10) : digitCount n = 1 := by
  rw [digitCount, ofNat_of_lt h]
  rfl

theorem digitCount_of_le {n : Nat} (h : 10 ≤ n) :
    digitCount n = digitCount (n / 10) + 1 := by
  rw [digitCount, ofNat_of_le h, List.length_append]
  rfl

theorem digitCount_pos (n : Nat) : 0 < digitCount n :=
  List.length_pos_iff.mpr (digits_ofNat n).ne_nil

theorem digitCount_le_iff {n k : Nat} :
    digitCount n ≤ k + 1 ↔ n < 10 ^ (k + 1) := by
  induction k generalizing n with
  | zero =>
      rcases Nat.lt_or_ge n 10 with h | h
      · rw [digitCount_of_lt h]
        omega
      · rw [digitCount_of_le h]
        have := digitCount_pos (n / 10)
        omega
  | succ k ih =>
      rcases Nat.lt_or_ge n 10 with h | h
      · rw [digitCount_of_lt h]
        have := Nat.pow_le_pow_right (show 0 < 10 by decide)
          (show 1 ≤ k + 1 + 1 by omega)
        omega
      · rw [digitCount_of_le h, Nat.add_le_add_iff_right, ih,
          Nat.div_lt_iff_lt_mul (by decide), ← Nat.pow_succ]

theorem digitCount_mul_ten {n : Nat} (h : 0 < n) :
    digitCount (n * 10) = digitCount n + 1 := by
  rw [digitCount_of_le (by omega), Nat.mul_div_cancel n (by decide)]

end Decimal

/-! ## Numerals -/

theorem numeral_ofInt (n : Int) : Numeral (Decimal.ofInt n) n := by
  cases n with
  | ofNat n =>
      have h := Numeral.plain (Decimal.digits_ofNat n)
      rw [Decimal.value_ofNat] at h
      exact h
  | negSucc n =>
      have h := Numeral.negative (Decimal.digits_ofNat (n + 1))
      rw [Decimal.value_ofNat] at h
      exact h

theorem count_ofNat {n : Nat} (h : n < 2 ^ 63) : Count (Decimal.ofNat n) n :=
  ⟨numeral_ofInt n, h⟩

end RespWire
