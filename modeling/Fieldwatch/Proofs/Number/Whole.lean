import Fieldwatch.Proofs.Number.Order
import Mathlib.Algebra.Order.Floor.Semifield

/-! Whole numbers in single precision, and parts of them. Each whole number below `2 ^ 24` is a
float of its own, and rounding does not stay below one that it is almost at. So hundredths of a
small number have the right whole part, although a hundredth is not exact. -/

namespace Fieldwatch.Single

open Float.Model Float.Model.UnpackedFloat

variable {v : ℝ} {w z : Float32}

theorem exists_full_of_nonneg (hw : w.isFinite) (h0 : 0 ≤ value w) :
    ∃ n f, IsFull n f ∧ value w = n * 2 ^ f := by
  obtain ⟨t, n, f, hn, -, huw⟩ := finite_cases hw
  refine ⟨n, f, hn, ?_⟩
  rw [← abs_of_nonneg h0, value_eq huw, abs_signed_mul]

/-- Rounding ends below a float only if it began below it, and by more than half of what there is
between the float and the next one down. -/
theorem Nears.le_value (h : Nears v z) (hw : w.isFinite) (h0 : 0 ≤ value w)
    (hv : value w * (1 - 1 / 2 ^ 25) < v) : value w ≤ value z := by
  obtain ⟨n, f, hn, hwn⟩ := exists_full_of_nonneg hw h0
  obtain ⟨s, m, e, hm, huz, hhalf⟩ := h.half
  have hv0 : 0 ≤ v := (mul_nonneg h0 (by norm_num)).trans hv.le
  have hzm : value z = m * 2 ^ e := by
    rw [← abs_of_nonneg (h.nonneg hv0), value_eq huz, abs_signed_mul]
  by_contra hc
  rw [hwn] at hv hc
  rw [hzm] at hhalf hc
  have hnext : ((m : ℝ) + 1) * 2 ^ e ≤ n * 2 ^ f := next_le hm hn (not_le.1 hc)
  -- a mantissa has 24 bits, so one unit of it is worth at least that part of the whole
  have hbits : (m : ℝ) + 1 ≤ 2 ^ 24 := by exact_mod_cast hm.1
  have hunit : ((m : ℝ) + 1) * 2 ^ e ≤ 2 ^ 24 * 2 ^ e := by gcongr
  have hbelow : v ≤ m * 2 ^ e + 2 ^ e / 2 := by linarith [(abs_sub_le_iff.1 hhalf).2]
  norm_num at hv hunit
  linarith

theorem Nears.eq_natCast {n : ℕ} (h : Nears n z) (hn : n < 2 ^ 24) : value z = n := by
  obtain ⟨s, m, e, hm, huz, hhalf⟩ := h.half
  have hn' : (n : ℝ) < 2 ^ 24 := by exact_mod_cast hn
  have hzm : value z = m * 2 ^ e := by
    rw [← abs_of_nonneg (h.nonneg (Nat.cast_nonneg n)), value_eq huz, abs_signed_mul]
  rw [hzm] at hhalf ⊢
  have he : e ≤ 0 := by
    -- a unit greater than one would be that of a number beyond `n`, and by more than it is off
    by_contra hc
    have hbits : (2 : ℝ) ^ 23 ≤ m := by
      exact_mod_cast hm.2.2.resolve_right (by omega)
    have hunit : (2 : ℝ) ^ (1 : ℤ) ≤ 2 ^ e := zpow_le_zpow_right₀ one_le_two (by omega)
    have hbig : (2 : ℝ) ^ 23 * 2 ^ (1 : ℤ) ≤ m * 2 ^ e :=
      mul_le_mul hbits hunit (by positivity) (Nat.cast_nonneg m)
    have hlast : (n : ℝ) + 1 ≤ 2 ^ 24 := by exact_mod_cast hn
    have hclose := (abs_sub_le_iff.1 h.close).1
    have hslack := slack_le n
    rw [Nat.abs_cast] at hslack
    rw [hzm] at hclose
    norm_num at hbig hlast hslack
    linarith
  obtain ⟨k, rfl⟩ : ∃ k : ℕ, e = -k := ⟨e.natAbs, by omega⟩
  have hp : (0 : ℝ) < 2 ^ (-(k : ℤ)) := zpow_pos two_pos _
  -- so `n` is a whole number of units too, and half a unit does not lead from it to another one
  have hwhole : (n : ℝ) = ((n * 2 ^ k : ℕ) : ℝ) * 2 ^ (-(k : ℤ)) := by
    rw [zpow_neg, zpow_natCast]
    push_cast
    field_simp
  rw [hwhole, ← sub_mul, abs_mul, abs_of_pos hp] at hhalf
  have hunits : |(m : ℝ) - (n * 2 ^ k : ℕ)| ≤ 1 / 2 := by
    refine le_of_mul_le_mul_right ?_ hp
    linarith
  have hlt : |((m : ℤ) - (n * 2 ^ k : ℕ) : ℤ)| < 1 := by
    have hreal : (|((m : ℤ) - (n * 2 ^ k : ℕ) : ℤ)| : ℝ) < 1 := by
      push_cast at hunits ⊢
      linarith
    exact_mod_cast hreal
  have hmn : m = n * 2 ^ k := by
    have := Int.abs_lt_one_iff.1 hlt
    omega
  rw [hmn, ← hwhole]

theorem value_toFloat32 {n : UInt64} (hn : n.toNat < 2 ^ 24) :
    n.toFloat32.isFinite ∧ value n.toFloat32 = n.toNat := by
  have hz : Written n.toFloat32
      (UnpackedFloat.normalize Format.binary32 (n.toNat : ℤ) 0 .positive) := rfl
  have hround := rounds_of_normalize hz
  rw [zpow_zero, mul_one, Int.cast_natCast] at hround
  have hnear : Nears n.toNat n.toFloat32 := by
    refine hround.nears ?_
    rw [Nat.abs_cast]
    exact_mod_cast hn.le.trans (by norm_num)
  exact ⟨hnear.finite, hnear.eq_natCast hn⟩

theorem roundToInt_eq (m : ℕ) (e : ℤ) :
    roundToInt .positive m e = (⌊(m : ℝ) * 2 ^ e⌋₊ : ℤ) := by
  have hval := decreaseExponent_value m e 0
  have hint : roundToInt .positive m e = ((ExtendedMantissa.ofMantissaAndAccuracy
      (decreaseExponent m e 0).1 .exact >>> (0 - (decreaseExponent m e 0).2).toNat).mantissa : ℤ) :=
    rfl
  rw [hint, mantissa_shift, mantissa_of, ← hval]
  obtain ⟨k, hk⟩ : ∃ k : ℕ, (decreaseExponent m e 0).2 = -k := by
    rw [decreaseExponent_eq]
    exact ⟨(((e - 0).toNat : ℤ) - e).toNat, by dsimp only; omega⟩
  have hshift : (0 - -(k : ℤ)).toNat = k := by omega
  rw [hk, hshift, zpow_neg, zpow_natCast, ← div_eq_mul_inv]
  congr 1
  exact_mod_cast (Nat.floor_div_eq_div (K := ℝ) _ _).symm

theorem toNat_toUInt64 (hz : z.isFinite) (h0 : 0 ≤ value z) (hlt : value z < 2 ^ 64) :
    z.toUInt64.toNat = ⌊value z⌋₊ := by
  obtain ⟨s, m, e, -, -, huz⟩ := finite_cases hz
  have hto : z.toUInt64 = (number s m e).toUInt64 := congrArg UnpackedFloat.toUInt64 huz
  have hval := value_eq huz
  rcases Nat.eq_zero_or_pos m with rfl | hm
  · rw [hto, hval, Nat.cast_zero, zero_mul, mul_zero, Nat.floor_zero]
    rfl
  · have hpos : (0 : ℝ) < m * 2 ^ e := by positivity
    cases s with
    | negative =>
      rw [signed_negative] at hval
      linarith
    | positive =>
      rw [signed_positive] at hval
      have hsmall : ⌊(m : ℝ) * 2 ^ e⌋₊ < UInt64.size := by
        rw [Nat.floor_lt hpos.le, ← hval]
        exact_mod_cast hlt
      have hclamp : (UnpackedFloat.finite .positive m e hm).toUInt64 =
          UInt64.ofNatClamp (roundToInt .positive m e).toNat := rfl
      rw [hto, number_of_pos hm, hclamp, roundToInt_eq, Int.toNat_natCast, UInt64.ofNatClamp,
        dif_pos hsmall, hval]
      rfl

section Percentages

/-- `c` is `p` hundredths, as nearly as single precision can tell, and more than one half. -/
structure IsPercentage (p : ℕ) (c : Float32) : Prop where
  finite : c.isFinite
  near : |value c - p / 100| < 1 / 2 ^ 26
  half_lt : 50 < p
  lt_whole : p < 100

variable {p : ℕ} {c : Float32} {n : ℕ}

theorem IsPercentage.abs_mul_sub_lt (h : IsPercentage p c) (hn : 0 < n) :
    |(n : ℝ) * value c - n * p / 100| < n / 2 ^ 26 := by
  have hn' : (0 : ℝ) < n := by exact_mod_cast hn
  have hfactor : (n : ℝ) * value c - n * p / 100 = n * (value c - p / 100) := by ring
  rw [hfactor, abs_mul, abs_of_pos hn', div_eq_mul_one_div (n : ℝ)]
  exact mul_lt_mul_of_pos_left h.near hn'

/-- Where `p` hundredths of `n` are a whole number, the exact product may be a little less than
that; but rounding makes up for it. -/
theorem IsPercentage.le_value (h : IsPercentage p c) (hn : n ≤ 1000) (hn0 : 0 < n)
    (hz : Nears (n * value c) z) : ((p * n / 100 : ℕ) : ℝ) ≤ value z := by
  have hlow : p * n / 100 * 100 ≤ p * n := Nat.div_mul_le_self _ _
  have hlow' : ((p * n / 100 : ℕ) : ℝ) * 100 ≤ p * n := by exact_mod_cast hlow
  have hpart : p * n / 100 ≤ n := Nat.div_le_of_le_mul (Nat.mul_le_mul_right n h.lt_whole.le)
  have hword : (p * n / 100).toUInt64.toNat = p * n / 100 := Nat.mod_eq_of_lt (by omega)
  obtain ⟨hfin, hval⟩ := value_toFloat32 (n := (p * n / 100).toUInt64) (by omega)
  rw [hword] at hval
  rw [← hval]
  refine hz.le_value hfin (by rw [hval]; positivity) ?_
  have hoff := (abs_sub_lt_iff.1 (h.abs_mul_sub_lt hn0)).2
  have hn' : (0 : ℝ) < n := by exact_mod_cast hn0
  have hp : (51 : ℝ) * n ≤ p * n := by
    gcongr
    exact_mod_cast h.half_lt
  rw [hval]
  norm_num at hoff ⊢
  linarith

theorem IsPercentage.product_nonneg (h : IsPercentage p c) : (0 : ℝ) ≤ n * value c := by
  have hp : (51 : ℝ) ≤ p := by exact_mod_cast h.half_lt
  have hc : 0 ≤ value c := by
    have hnear := (abs_sub_lt_iff.1 h.near).2
    norm_num at hnear
    linarith
  positivity

theorem IsPercentage.product_lt (h : IsPercentage p c) (hn : n ≤ 1000) (hn0 : 0 < n) :
    (n : ℝ) * value c < 1000 := by
  have hmost : p * n ≤ 99 * 1000 := Nat.mul_le_mul (Nat.le_of_lt_succ h.lt_whole) hn
  have hmost' : (p : ℝ) * n ≤ 99 * 1000 := by exact_mod_cast hmost
  have hn' : (n : ℝ) ≤ 1000 := by exact_mod_cast hn
  have hoff := (abs_sub_lt_iff.1 (h.abs_mul_sub_lt hn0)).1
  norm_num at hoff
  linarith

theorem IsPercentage.value_lt (h : IsPercentage p c) (hn : n ≤ 1000) (hn0 : 0 < n)
    (hz : Nears (n * value c) z) : value z < (p * n / 100 : ℕ) + 1 := by
  have hhigh : p * n ≤ p * n / 100 * 100 + 99 := by omega
  have hhigh' : (p : ℝ) * n ≤ (p * n / 100 : ℕ) * 100 + 99 := by exact_mod_cast hhigh
  have hn' : (n : ℝ) ≤ 1000 := by exact_mod_cast hn
  have hoff := (abs_sub_lt_iff.1 (h.abs_mul_sub_lt hn0)).1
  have hsmall := h.product_lt hn hn0
  have hslack := slack_le (n * value c)
  have hclose := (abs_sub_le_iff.1 hz.close).1
  rw [abs_of_nonneg h.product_nonneg] at hslack
  norm_num at hoff hslack
  linarith

theorem IsPercentage.toNat_mul (h : IsPercentage p c) (hn : n ≤ 1000) (hn0 : 0 < n) :
    (n.toUInt64.toFloat32 * c).toUInt64.toNat = p * n / 100 := by
  have hword : n.toUInt64.toNat = n := Nat.mod_eq_of_lt (by omega)
  obtain ⟨hfin, hval⟩ := value_toFloat32 (n := n.toUInt64) (by omega)
  have hround := rounds_mul hfin h.finite
  rw [hval, hword] at hround
  have hnear : Nears (n * value c) (n.toUInt64.toFloat32 * c) := by
    refine hround.nears ?_
    rw [abs_of_nonneg h.product_nonneg]
    exact (h.product_lt hn hn0).le.trans (by norm_num)
  have hle := h.le_value hn hn0 hnear
  have hlt := h.value_lt hn hn0 hnear
  have h0 : 0 ≤ value (n.toUInt64.toFloat32 * c) := (Nat.cast_nonneg _).trans hle
  have hpart : p * n / 100 ≤ n := Nat.div_le_of_le_mul (Nat.mul_le_mul_right n h.lt_whole.le)
  have hpart' : ((p * n / 100 : ℕ) : ℝ) ≤ 1000 := by exact_mod_cast hpart.trans hn
  rw [toNat_toUInt64 hnear.finite h0 (by norm_num; linarith), Nat.floor_eq_iff h0]
  exact ⟨hle, hlt⟩

end Percentages

end Fieldwatch.Single
