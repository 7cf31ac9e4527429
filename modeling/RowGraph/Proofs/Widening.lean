import RowGraph.Value.Number

/-!
# Widened numbers

A finite 32-bit number is a finite number in 64 bits too (`exists_convert_single`).
-/

namespace RowGraph.Floating

theorem roundHalfEven_le (num den : Nat) : roundHalfEven num den ≤ num / den + 1 := by
  unfold roundHalfEven
  dsimp only
  split <;> omega

namespace Format

theorem single_decode_finite {bits significand : Nat} {negative : Bool} {exponent : Int}
    (h : single.decode bits = .finite negative significand exponent) :
    significand < twoPow 24 ∧ exponent ≤ 104 := by
  have fraction : twoPow single.fractionBits = 8388608 := rfl
  have fields : twoPow single.exponentBits = 256 := rfl
  have top : single.maxField = 255 := rfl
  have least : single.minExponent = -149 := rfl
  have bound : twoPow 24 = 16777216 := rfl
  simp only [decode, fraction, fields, top, least] at h
  split at h
  · split at h <;> cases h
  · split at h <;> cases h <;> omega

theorem double_lastPlace_bounds {num den : Nat} (hnum : num ≠ 0) (hden : den ≠ 0)
    (h : num < twoPow 128 * den) : double.lastPlace num den ≤ 76 ∧
      num * twoPow (-double.lastPlace num den).toNat <
        den * twoPow (double.lastPlace num den).toNat * twoPow 54 := by
  have least : double.minExponent = -1074 := rfl
  have precision : double.precision = 53 := rfl
  have lower : twoPow (Nat.log2 den) ≤ den := Nat.log2_self_le hden
  have upper : num < twoPow (Nat.log2 num + 1) := Nat.lt_log2_self
  have most : Nat.log2 num ≤ 128 + Nat.log2 den := by
    apply Nat.le_of_lt_succ
    apply (Nat.log2_lt hnum).mpr
    calc num < twoPow 128 * den := h
      _ ≤ twoPow 128 * twoPow (Nat.log2 den + 1) :=
          Nat.mul_le_mul_left _ (Nat.le_of_lt Nat.lt_log2_self)
      _ = twoPow (128 + Nat.log2 den + 1) := (twoPow_add ..).symm
  have bounds : (Nat.log2 num : Int) - Nat.log2 den - 53 ≤ double.lastPlace num den ∧
      double.lastPlace num den ≤ 76 := by
    unfold lastPlace
    dsimp only
    rw [least, precision]
    split <;> omega
  refine ⟨bounds.2, ?_⟩
  generalize double.lastPlace num den = place at bounds
  calc num * twoPow (-place).toNat
      < twoPow (Nat.log2 num + 1) * twoPow (-place).toNat :=
        Nat.mul_lt_mul_of_pos_right upper (twoPow_pos _)
    _ ≤ twoPow (Nat.log2 den) * twoPow place.toNat * twoPow 54 := by
        rw [← twoPow_add, ← twoPow_add, ← twoPow_add]
        exact twoPow_le_of_le (by omega)
    _ ≤ den * twoPow place.toNat * twoPow 54 :=
        Nat.mul_le_mul_right _ (Nat.mul_le_mul_right _ lower)

theorem double_round_lt {num den : Nat} (hden : den ≠ 0) (h : num < twoPow 128 * den)
    (negative : Bool) : ∃ magnitude < double.infinity,
      double.round negative num den = double.signBit negative + magnitude := by
  have infinity : double.infinity = 9218868437227405312 := rfl
  refine ⟨_, ?_, rfl⟩
  rw [infinity]
  split
  · omega
  · next hnum =>
    obtain ⟨most, places⟩ := double_lastPlace_bounds hnum hden h
    generalize double.lastPlace num den = place at most places
    have significand := roundHalfEven_le (num * twoPow (-place).toNat) (den * twoPow place.toNat)
    have quotient := Nat.div_lt_of_lt_mul places
    have least : double.minExponent = -1074 := rfl
    have fraction : twoPow double.fractionBits = 4503599627370496 := rfl
    have bound : twoPow 54 = 18014398509481984 := rfl
    rw [bound] at quotient
    refine Nat.lt_of_le_of_lt (Nat.min_le_left ..) ?_
    rw [least, fraction]
    have steps : (place - -1074).toNat ≤ 1150 := by omega
    omega

theorem double_decode_of_lt {magnitude : Nat} (h : magnitude < double.infinity) (negative : Bool) :
    double.signBit negative + magnitude < UInt64.size ∧ ∃ significand exponent,
      double.decode (double.signBit negative + magnitude) =
        .finite negative significand exponent := by
  have fraction : twoPow double.fractionBits = 4503599627370496 := rfl
  have fields : twoPow double.exponentBits = 2048 := rfl
  have sign : twoPow (double.fractionBits + double.exponentBits) = 9223372036854775808 := rfl
  have top : double.maxField = 2047 := rfl
  have infinity : double.infinity = 9218868437227405312 := rfl
  have size : UInt64.size = 18446744073709551616 := rfl
  rw [infinity] at h
  have bit : double.signBit negative = if negative then 9223372036854775808 else 0 := by
    rw [signBit, sign]
  have field : (double.signBit negative + magnitude) / 4503599627370496 % 2048 ≠ 2047 := by
    rw [bit]
    split <;> omega
  have signed :
      ((double.signBit negative + magnitude) / 9223372036854775808 % 2 == 1) = negative := by
    rw [bit]
    cases negative <;> simp <;> omega
  constructor
  · rw [bit, size]
    split <;> omega
  · simp only [decode, fraction, fields, sign, top, if_neg field, signed]
    split
    · exact ⟨_, _, rfl⟩
    · exact ⟨_, _, rfl⟩

theorem exists_convert_single {bits significand : Nat} {negative : Bool} {exponent : Int}
    (h : single.decode bits = .finite negative significand exponent) :
    single.convert double bits < UInt64.size ∧ ∃ wide place,
      double.decode (single.convert double bits) = .finite negative wide place := by
  obtain ⟨few, low⟩ := single_decode_finite h
  have small : significand * twoPow exponent.toNat < twoPow 128 * twoPow (-exponent).toNat := by
    calc significand * twoPow exponent.toNat
        < twoPow 24 * twoPow exponent.toNat := Nat.mul_lt_mul_of_pos_right few (twoPow_pos _)
      _ = twoPow (24 + exponent.toNat) := (twoPow_add ..).symm
      _ ≤ twoPow (128 + (-exponent).toNat) := twoPow_le_of_le (by omega)
      _ = twoPow 128 * twoPow (-exponent).toNat := twoPow_add ..
  have nonzero : twoPow (-exponent).toNat ≠ 0 := Nat.ne_of_gt (twoPow_pos _)
  obtain ⟨magnitude, finite, rounded⟩ := double_round_lt nonzero small negative
  have converted : single.convert double bits = double.signBit negative + magnitude := by
    rw [convert, h]
    exact rounded
  rw [converted]
  exact double_decode_of_lt finite negative

end Format
end RowGraph.Floating
