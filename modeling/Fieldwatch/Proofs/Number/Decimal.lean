import Fieldwatch.Proofs.Number.Notation
import Fieldwatch.Proofs.Number.Whole
import Mathlib.Tactic.IntervalCases

/-! Decimal numbers in single precision. A decimal number is read as the number rounded once,
however many digits it has and however far they are from the point. -/

namespace Fieldwatch.Single

open Float.Model Float.Model.UnpackedFloat

variable {z : Float32} {v : ℝ} {m k : ℕ} {e : ℤ}

theorem rounds_of_tiny (hz : Written z (.zero .positive)) (h0 : 0 ≤ v) (hv : v ≤ 1 / 2 ^ 150) :
    Rounds v z := by
  have hoff : |((0 : ℕ) : ℝ) * 2 ^ (-149 : ℤ) - v| = v := by
    rw [Nat.cast_zero, zero_mul, zero_sub, abs_neg, abs_of_nonneg h0]
  have hhalf : (1 : ℝ) / 2 ^ 150 = 2 ^ (-149 : ℤ) / 2 := by norm_num
  have h := rounds_of_number (s := .positive) full_zero h0 (by rwa [hoff, ← hhalf])
    (by rw [hoff]; exact hv.trans (le_max_right _ _)) hz
  rwa [signed_positive] at h

theorem rounds_of_large (hz : Written z (.infinity .positive)) (hv : 2 ^ 128 ≤ v) : Rounds v z := by
  refine .inr ⟨.positive, hz.infinite, ?_⟩
  rw [signed_positive]
  exact hv.trans (le_add_of_nonneg_right (slack_pos v).le)

theorem large_of_exponent (hm : 0 < m) (he : 39 ≤ e) : (2 : ℝ) ^ 128 ≤ m * 10 ^ e := by
  have hm' : (1 : ℝ) ≤ m := by exact_mod_cast hm
  calc (2 : ℝ) ^ 128 ≤ 10 ^ (39 : ℤ) := by norm_num
    _ ≤ 10 ^ e := zpow_le_zpow_right₀ (by norm_num) he
    _ ≤ m * 10 ^ e := le_mul_of_one_le_left (by positivity) hm'

theorem value_ofBits {b : UInt32} {s : Sign}
    (hb : UnpackedFloat.unpack Format.binary32 b.toBitVec = number s m e) (hf : IsFull m e)
    (he : e ≤ 104) :
    (Float32.ofBits b).isFinite ∧ value (Float32.ofBits b) = signed s * (m * 2 ^ e) := by
  have hz : Written (Float32.ofBits b) (UnpackedFloat.unpack Format.binary32 b.toBitVec) := rfl
  rw [hb, Written, pack_number hf he] at hz
  have hfin : (Float32.ofBits b).toModel.unpack.isFinite = true := by rw [hz, isFinite_number]
  exact ⟨hfin, value_eq hz⟩

/-- The powers of ten that single precision has exactly: the power of five fits the mantissa. -/
theorem value_powerOfTen (hk : k < Float32.exactlyRepresentablePowersOfTen.size) :
    Float32.exactlyRepresentablePowersOfTen[k].isFinite ∧
      value Float32.exactlyRepresentablePowersOfTen[k] = 10 ^ k := by
  have hk' : k ≤ 10 := Nat.le_of_lt_succ hk
  obtain ⟨b, hb, hunpack⟩ : ∃ b, Float32.exactlyRepresentablePowersOfTen[k] = Float32.ofBits b ∧
      UnpackedFloat.unpack Format.binary32 b.toBitVec =
        number .positive (5 ^ k * 2 ^ (23 - (5 ^ k).log2)) ((k : ℤ) - 23 + (5 ^ k).log2) := by
    interval_cases k <;> exact ⟨_, rfl, rfl⟩
  have hlog : (5 ^ k).log2 ≤ 23 := by interval_cases k <;> decide
  have hfull : IsFull (5 ^ k * 2 ^ (23 - (5 ^ k).log2)) ((k : ℤ) - 23 + (5 ^ k).log2) := by
    refine ⟨?_, by omega, .inl ?_⟩ <;> interval_cases k <;> decide
  obtain ⟨hfin, hval⟩ := value_ofBits hunpack hfull (by omega)
  rw [hb]
  refine ⟨hfin, hval.trans ?_⟩
  have hten : (10 : ℝ) ^ k = 5 ^ k * 2 ^ k := by
    rw [← mul_pow]
    norm_num
  have htwo : (2 : ℝ) ^ (23 - (5 ^ k).log2) * 2 ^ ((k : ℤ) - 23 + (5 ^ k).log2) = 2 ^ k := by
    rw [← zpow_natCast, ← zpow_add₀ two_ne_zero, ← zpow_natCast]
    congr 1
    omega
  rw [signed_positive, hten, ← htwo]
  push_cast
  ring

theorem tiny_of_exponent (he : e < -(256 + (m.log2 : ℤ))) : (m : ℝ) * 10 ^ e ≤ 1 / 2 ^ 150 := by
  obtain ⟨k, rfl⟩ : ∃ k : ℕ, e = -(k : ℤ) := ⟨(-e).toNat, by omega⟩
  have hk : m.log2 + 1 + 150 ≤ k := by omega
  have hlog : (m : ℝ) ≤ 2 ^ (m.log2 + 1) := by exact_mod_cast (Nat.lt_log2_self (n := m)).le
  have hten : (2 : ℝ) ^ (m.log2 + 1) * 2 ^ 150 ≤ 10 ^ k :=
    calc (2 : ℝ) ^ (m.log2 + 1) * 2 ^ 150 = 2 ^ (m.log2 + 1 + 150) := (pow_add 2 _ _).symm
      _ ≤ 2 ^ k := pow_le_pow_right₀ one_le_two hk
      _ ≤ 10 ^ k := by
        gcongr
        norm_num
  rw [zpow_neg, zpow_natCast, ← div_eq_mul_inv, div_le_div_iff₀ (by positivity) (by positivity),
    one_mul]
  exact (mul_le_mul_of_nonneg_right hlog (by positivity)).trans hten

theorem rounds_of_raised (hm : 0 < m <<< Format.binary32.mantissaBits) (ht : 0 < 10 ^ k)
    (hz : Written z (UnpackedFloat.mul Format.binary32
      (.finite .positive (m <<< Format.binary32.mantissaBits) (-Format.binary32.mantissaBits) hm)
      (.finite .positive (10 ^ k) 0 ht))) : Rounds (m * 10 ^ (k : ℤ)) z := by
  have hshift : m <<< Format.binary32.mantissaBits = m * 2 ^ Format.binary32.mantissaBits :=
    Nat.shiftLeft_eq m _
  have hbits : 23 ≤ Format.binary32.mantissaBits := by decide
  have hm0 : 0 < m := by
    rw [hshift] at hm
    exact Nat.pos_of_mul_pos_right hm
  have hlarge : 2 ^ 23 ≤ m <<< Format.binary32.mantissaBits * 10 ^ k := by
    rw [hshift]
    calc 2 ^ 23 ≤ 2 ^ Format.binary32.mantissaBits := Nat.pow_le_pow_right two_pos hbits
      _ ≤ m * 2 ^ Format.binary32.mantissaBits := Nat.le_mul_of_pos_left _ hm0
      _ ≤ _ := Nat.le_mul_of_pos_right _ ht
  have h := rounds_product hm ht (.inr hlarge) hz
  have hval : signed .positive * (((m <<< Format.binary32.mantissaBits : ℕ) : ℝ) *
      2 ^ (-(Format.binary32.mantissaBits : ℤ))) *
        (signed .positive * (((10 ^ k : ℕ) : ℝ) * 2 ^ (0 : ℤ))) = m * 10 ^ (k : ℤ) := by
    rw [signed_positive, signed_positive, hshift, zpow_neg, zpow_natCast, zpow_zero, zpow_natCast]
    push_cast
    field_simp
  rwa [← hval]

theorem rounds_of_lowered (hm : 0 < m) (ht : 0 < 10 ^ k)
    (hz : Written z (UnpackedFloat.div Format.binary32 (.finite .positive m 0 hm)
      (.finite .positive (10 ^ k) 0 ht))) : Rounds (m * 10 ^ (-(k : ℤ))) z := by
  have h := rounds_quotient hm ht hz
  have hval : signed .positive * ((m : ℝ) * 2 ^ (0 : ℤ)) /
      (signed .positive * (((10 ^ k : ℕ) : ℝ) * 2 ^ (0 : ℤ))) = m * 10 ^ (-(k : ℤ)) := by
    rw [signed_positive, signed_positive, zpow_neg, zpow_natCast, zpow_zero]
    push_cast
    ring
  rwa [← hval]

theorem rounds_of_scientific
    (hz : Written z (UnpackedFloat.ofScientific Format.binary32 m e)) : Rounds (m * 10 ^ e) z := by
  unfold UnpackedFloat.ofScientific at hz
  by_cases h0 : m = 0
  · rw [dif_pos h0] at hz
    rw [h0, Nat.cast_zero, zero_mul]
    exact rounds_zero hz
  rw [dif_neg h0] at hz
  by_cases hbig : e > 2 ^ Format.binary32.exponentBits
  · rw [if_pos hbig] at hz
    have he : (256 : ℤ) < e := hbig
    exact rounds_of_large hz (large_of_exponent (Nat.pos_of_ne_zero h0) (by omega))
  rw [if_neg hbig] at hz
  by_cases hsmall : e < -((2 ^ Format.binary32.exponentBits : ℤ) + m.log2)
  · rw [if_pos hsmall] at hz
    exact rounds_of_tiny hz (by positivity) (tiny_of_exponent hsmall)
  rw [if_neg hsmall] at hz
  by_cases hpos : 0 ≤ e
  · rw [if_pos hpos] at hz
    have hexp : (e.toNat : ℤ) = e := Int.toNat_of_nonneg hpos
    exact hexp ▸ rounds_of_raised _ _ hz
  · rw [if_neg hpos] at hz
    have hexp : -((-e).toNat : ℤ) = e := by omega
    exact hexp ▸ rounds_of_lowered _ _ hz

theorem rounds_ofScientific (m : ℕ) (below : Bool) (k : ℕ) :
    Rounds (m * 10 ^ (if below then -(k : ℤ) else k)) (Float32.ofScientific m below k) := by
  -- with both operands exact a single operation is enough, and it rounds once
  by_cases h : m < 2 ^ 23 ∧ k ≤ 10
  · obtain ⟨hfin, hval⟩ := value_powerOfTen (Nat.lt_succ_of_le h.2)
    have hword : m.toUInt64.toNat = m := Nat.mod_eq_of_lt (h.1.trans (by norm_num))
    obtain ⟨hmfin, hmval⟩ := value_toFloat32 (n := m.toUInt64) (by omega)
    rw [hword] at hmval
    unfold Float32.ofScientific
    rw [dif_pos h]
    cases below with
    | true =>
      have hdiv := rounds_div hmfin hfin (by rw [hval]; positivity)
      rw [hmval, hval] at hdiv
      have hv : (m : ℝ) * 10 ^ (if true then -(k : ℤ) else k) = m / 10 ^ k := by
        rw [if_pos rfl, zpow_neg, zpow_natCast, div_eq_mul_inv]
      rw [hv]
      exact hdiv
    | false =>
      have hmul := rounds_mul hmfin hfin
      rw [hmval, hval] at hmul
      exact hmul
  · have hz : Written (Float32.ofScientific m below k)
        (UnpackedFloat.ofScientific Format.binary32 m (if below then Int.negOfNat k else k)) := by
      unfold Float32.ofScientific
      rw [dif_neg h]
      rfl
    have hneg : Int.negOfNat k = -(k : ℤ) := Int.negOfNat_eq
    rw [← hneg]
    exact rounds_of_scientific hz

theorem written_zero : Written (0 : Float32) (.zero .positive) := rfl

theorem written_infinity : Written (1 / 0 : Float32) (.infinity .positive) := by
  have hbits : (1 / 0 : Float32).toBits = 0x7f800000 := by decide +kernel
  exact unpack_of_toBits hbits

theorem bounds_of_length (hm : 0 < m) (e : ℤ) :
    (10 : ℝ) ^ ((toString m).length + e - 1) ≤ m * 10 ^ e ∧
      (m : ℝ) * 10 ^ e ≤ 10 ^ ((toString m).length + e) := by
  obtain ⟨k, hk⟩ : ∃ k, (toString m).length = k + 1 :=
    Nat.exists_eq_add_one.2 (by rw [Nat.toString_eq_repr]; exact Nat.length_repr_pos)
  have hlow : 10 ^ k ≤ m := by
    rcases Nat.eq_zero_or_pos k with rfl | hk0
    · exact hm
    · refine Nat.le_of_not_lt fun hlt => ?_
      have := (Nat.length_repr_le_iff hk0).2 hlt
      rw [← Nat.toString_eq_repr] at this
      omega
  have hhigh : m < 10 ^ (k + 1) :=
    (Nat.length_repr_le_iff (Nat.succ_pos k)).1 (by rw [← Nat.toString_eq_repr, hk])
  have hlow' : (10 : ℝ) ^ k ≤ m := by exact_mod_cast hlow
  have hhigh' : (m : ℝ) ≤ 10 ^ (k + 1) := by exact_mod_cast hhigh.le
  have hten : (10 : ℝ) ≠ 0 := by norm_num
  constructor
  · have hexp : ((toString m).length : ℤ) + e - 1 = k + e := by omega
    rw [hexp, zpow_add₀ hten, zpow_natCast]
    gcongr
  · rw [hk, zpow_add₀ hten, zpow_natCast]
    gcongr

theorem rounds_ofDecimal (m : ℕ) (e : ℤ) : Rounds (m * 10 ^ e) (Reading.ofDecimal m e) := by
  unfold Reading.ofDecimal
  rcases Nat.eq_zero_or_pos m with rfl | hm
  · rw [Nat.cast_zero, zero_mul]
    exact rounds_zero written_zero
  obtain ⟨hlow, hhigh⟩ := bounds_of_length hm e
  dsimp only
  -- numbers far out of range are not computed, but zero and infinity are their roundings
  split
  · next h =>
    have hshort : ((toString m).length : ℤ) + e ≤ -51 := by
      rcases Bool.or_eq_true_iff.1 h with h0 | hless
      · exact absurd (of_decide_eq_true h0) hm.ne'
      · have := of_decide_eq_true hless
        omega
    refine rounds_of_tiny written_zero (by positivity) (hhigh.trans ?_)
    calc (10 : ℝ) ^ ((toString m).length + e) ≤ 10 ^ (-51 : ℤ) :=
          zpow_le_zpow_right₀ (by norm_num) hshort
      _ ≤ 1 / 2 ^ 150 := by norm_num
  split
  · next h =>
    refine rounds_of_large written_infinity (le_trans ?_ hlow)
    calc (2 : ℝ) ^ 128 ≤ 10 ^ (40 : ℤ) := by norm_num
      _ ≤ 10 ^ ((toString m).length + e - 1) := zpow_le_zpow_right₀ (by norm_num) (by omega)
  split
  · next h =>
    have hround := rounds_ofScientific m true (-e).toNat
    have hexp : -((-e).toNat : ℤ) = e := by omega
    rwa [if_pos rfl, hexp] at hround
  · next h =>
    have hround := rounds_ofScientific m false e.toNat
    have hexp : (e.toNat : ℤ) = e := by omega
    rwa [if_neg Bool.noConfusion, hexp] at hround

end Fieldwatch.Single

namespace Fieldwatch.Reading

variable {cs : List Char} {m : ℕ} {e : ℤ} {x : Float32}

theorem nears_ofDecimal (h : (ofDecimal m e).isFinite) :
    Single.Nears (m * 10 ^ e) (ofDecimal m e) := by
  refine (Single.rounds_ofDecimal m e).resolve_right ?_
  rintro ⟨s, hs, -⟩
  exact hs.not_finite h

theorem SpellsMagnitude.decimal (h : SpellsMagnitude cs x) (hx : x.isFinite) :
    ∃ m e, SpellsDecimal cs m e ∧ x = ofDecimal m e := by
  have hinf : ¬ (1 / 0 : Float32).isFinite := by decide +kernel
  have hnan : ¬ (0 / 0 : Float32).isFinite := by decide +kernel
  rcases h with ⟨-, rfl⟩ | ⟨-, rfl⟩ | h
  · exact absurd hx hinf
  · exact absurd hx hnan
  · exact h

theorem SpellsFloat.exists_nears (h : SpellsFloat cs x) (hx : x.isFinite) (h0 : 0 < x) :
    ∃ body m e, (cs = body ∨ cs = '+' :: body) ∧ SpellsDecimal body m e ∧
      Single.Nears (m * 10 ^ e) x := by
  rcases h with ⟨body, hcs, h⟩ | ⟨body, y, rfl, h, rfl⟩
  · obtain ⟨m, e, hdec, rfl⟩ := h.decimal hx
    exact ⟨body, m, e, hcs, hdec, nears_ofDecimal hx⟩
  · have hy := Single.finite_of_neg hx
    obtain ⟨m, e, -, rfl⟩ := h.decimal hy
    have hnonneg := (nears_ofDecimal hy).nonneg (by positivity)
    rw [Single.lt_iff Single.isFinite_zero hx, Single.value_zero, Single.value_neg hy] at h0
    linarith

end Fieldwatch.Reading
