import Fieldwatch.Proofs.Number.Encoding

/-! What the operations of single precision compute. Each result is the exact one rounded once: as
near as one rounding gets and on the same side of zero, or infinite where that is too large. -/

namespace Fieldwatch.Single

open Float.Model Float.Model.UnpackedFloat

def Written (z : Float32) (u : UnpackedFloat) : Prop :=
  z.toModel.unpack = unpack Format.binary32 (pack Format.binary32 u)

/-- `z` is as near to `v` as one rounding gets, and on the same side of zero. -/
structure Nears (v : ℝ) (z : Float32) : Prop where
  finite : z.isFinite
  close : |value z - v| ≤ slack v
  /-- It is off by half a unit of its own last bit at most. -/
  half : ∃ s m e, IsFull m e ∧ z.toModel.unpack = number s m e ∧ |value z - v| ≤ 2 ^ e / 2
  nonneg : 0 ≤ v → 0 ≤ value z
  nonpos : v ≤ 0 → value z ≤ 0

def IsInfinite (s : Sign) (z : Float32) : Prop := z.toModel.unpack = .infinity s

def Rounds (v : ℝ) (z : Float32) : Prop :=
  Nears v z ∨ ∃ s, IsInfinite s z ∧ limit ≤ signed s * v + slack v

theorem slack_signed (s : Sign) (v : ℝ) : slack (signed s * v) = slack v := by
  rw [slack, abs_mul, abs_signed, one_mul, slack]

theorem slack_pos (v : ℝ) : 0 < slack v := lt_of_lt_of_le (by norm_num) (le_max_right _ _)

theorem eq_zero_of_le {n : ℕ} {t : ℤ} (ht : -149 ≤ t) (h : (n : ℝ) * 2 ^ t ≤ slack 0) : n = 0 := by
  have hs : slack 0 = 1 / 2 ^ 150 := by
    rw [slack, abs_zero, zero_div, max_eq_right (by positivity)]
  have hp : (2 : ℝ) ^ (-149 : ℤ) ≤ 2 ^ t := zpow_le_zpow_right₀ one_le_two ht
  have hp0 : (2 : ℝ) ^ (-149 : ℤ) = 1 / 2 ^ 149 := by rw [zpow_neg, one_div]; norm_cast
  by_contra hn
  have h1 : (1 : ℝ) ≤ n := by exact_mod_cast Nat.one_le_iff_ne_zero.2 hn
  have h2 : (2 : ℝ) ^ (-149 : ℤ) ≤ n * 2 ^ t :=
    hp.trans (le_mul_of_one_le_left (zpow_pos two_pos t).le h1)
  rw [hp0] at h2
  have h3 : (1 : ℝ) / 2 ^ 149 ≤ 1 / 2 ^ 150 := (h2.trans h).trans_eq hs
  norm_num at h3

theorem rounds_of_number {s : Sign} {n : ℕ} {t : ℤ} {w : ℝ} {z : Float32} (hf : IsFull n t)
    (hw : 0 ≤ w) (hh : |(n : ℝ) * 2 ^ t - w| ≤ 2 ^ t / 2) (hs : |(n : ℝ) * 2 ^ t - w| ≤ slack w)
    (hz : Written z (number s n t)) : Rounds (signed s * w) z := by
  have hpos : (0 : ℝ) ≤ n * 2 ^ t := mul_nonneg (Nat.cast_nonneg n) (zpow_pos two_pos t).le
  rcases le_or_gt t 104 with ht | ht
  · rw [Written, pack_number hf ht] at hz
    have hval : value z = signed s * (n * 2 ^ t) := by rw [value, hz, worth_number]
    have hzero : w = 0 → (n : ℝ) * 2 ^ t = 0 := by
      rintro rfl
      rw [sub_zero, abs_of_nonneg hpos] at hs
      rw [eq_zero_of_le hf.2.1 hs, Nat.cast_zero, zero_mul]
    have hfin : z.toModel.unpack.isFinite = true := by rw [hz, isFinite_number]
    have hoff : |value z - signed s * w| = |(n : ℝ) * 2 ^ t - w| := by
      rw [hval, ← mul_sub, abs_mul, abs_signed, one_mul]
    have hclose : |value z - signed s * w| ≤ slack (signed s * w) := by rwa [hoff, slack_signed]
    refine .inl ⟨hfin, hclose, ⟨s, n, t, hf, hz, hoff.trans_le hh⟩, fun hv => ?_, fun hv => ?_⟩ <;>
      rw [hval]
    · cases s with
      | positive => simpa [signed] using hpos
      | negative =>
        have hw0 : w = 0 := le_antisymm (by simpa [signed] using hv) hw
        rw [hzero hw0, mul_zero]
    · cases s with
      | negative => simpa [signed] using hpos
      | positive =>
        have hw0 : w = 0 := le_antisymm (by simpa [signed] using hv) hw
        rw [hzero hw0, mul_zero]
  · have hn : 2 ^ 23 ≤ n := hf.2.2.resolve_right (by omega)
    rw [Written, pack_overflow (lt_of_lt_of_le (by norm_num) hn) ht] at hz
    refine .inr ⟨s, hz, ?_⟩
    have hbig : limit ≤ n * 2 ^ t := by
      have h1 : (2 : ℝ) ^ 23 ≤ n := by exact_mod_cast hn
      have h2 : (2 : ℝ) ^ (105 : ℤ) ≤ 2 ^ t := zpow_le_zpow_right₀ one_le_two (by omega)
      have h3 : limit = 2 ^ 23 * 2 ^ (105 : ℤ) := by
        unfold limit
        norm_cast
      rw [h3]
      exact mul_le_mul h1 h2 (zpow_pos two_pos _).le (Nat.cast_nonneg n)
    have hle := (abs_le.1 hs).2
    rw [← mul_assoc, signed_mul_self, one_mul, slack_signed]
    linarith

theorem rounds_number {s : Sign} {n : ℕ} {t : ℤ} {z : Float32} (hf : IsFull n t)
    (hz : Written z (number s n t)) : Rounds (signed s * (n * 2 ^ t)) z := by
  have hpos : (0 : ℝ) ≤ n * 2 ^ t := by positivity
  have hexact : |(n : ℝ) * 2 ^ t - n * 2 ^ t| = 0 := by rw [sub_self, abs_zero]
  exact rounds_of_number hf hpos (hexact.trans_le (by positivity))
    (hexact.trans_le (slack_pos _).le) hz

theorem full_zero : IsFull 0 (-149) := ⟨by norm_num, le_rfl, .inr rfl⟩

theorem rounds_zero {s : Sign} {z : Float32} (hz : Written z (.zero s)) : Rounds 0 z := by
  have h := rounds_number (s := s) full_zero hz
  rwa [Nat.cast_zero, zero_mul, mul_zero] at h

theorem rounds_of_roundWithAccuracy {s : Sign} {m : ℕ} {e : ℤ} {acc : Accuracy} {x : ℝ}
    {z : Float32} (hx : Holds (ExtendedMantissa.ofMantissaAndAccuracy m acc) x)
    (he : e ≤ lastBit m e) (hm : m = 0 → e ≤ -149)
    (hz : Written z (roundWithAccuracy Format.binary32 s m e acc)) :
    Rounds (signed s * (x * 2 ^ e)) z := by
  obtain ⟨n, u, hf, hh, hs, heq⟩ := roundWithAccuracy_spec s hx he hm
  have hx0 : 0 ≤ x := (Nat.cast_nonneg _).trans hx.bounds.1
  rw [heq] at hz
  exact rounds_of_number hf (mul_nonneg hx0 (zpow_pos two_pos e).le) hh hs hz

theorem le_lastBit {m : ℕ} {e : ℤ} (h : e ≤ -149 ∨ 2 ^ 23 ≤ m) : e ≤ lastBit m e := by
  unfold lastBit
  rcases h with h | h
  · omega
  · have : 23 ≤ m.log2 := (Nat.le_log2 (by omega)).2 h
    omega

theorem rounds_product {s t : Sign} {m n : ℕ} {e f : ℤ} {z : Float32} (hm : 0 < m) (hn : 0 < n)
    (hmn : e + f ≤ -149 ∨ 2 ^ 23 ≤ m * n)
    (hz : Written z (UnpackedFloat.mul Format.binary32 (.finite s m e hm) (.finite t n f hn))) :
    Rounds (signed s * (m * 2 ^ e) * (signed t * (n * 2 ^ f))) z := by
  have h := rounds_of_roundWithAccuracy (s := s * t) (holds_exact (m * n)) (le_lastBit hmn)
    (fun h0 => absurd h0 (Nat.mul_pos hm hn).ne') hz
  have hv : signed s * (m * 2 ^ e) * (signed t * (n * 2 ^ f)) =
      signed (s * t) * (((m * n : ℕ) : ℝ) * 2 ^ (e + f)) := by
    rw [signed_mul, zpow_add₀ two_ne_zero]
    push_cast
    ring
  rwa [hv]

theorem rounds_mul {x y : Float32} (hx : x.isFinite) (hy : y.isFinite) :
    Rounds (value x * value y) (x * y) := by
  obtain ⟨s, m, e, ⟨-, he, hfull⟩, -, hux⟩ := finite_cases hx
  obtain ⟨t, n, f, ⟨-, hf, hfull'⟩, -, huy⟩ := finite_cases hy
  have hz : Written (x * y) (UnpackedFloat.mul Format.binary32 x.toModel.unpack y.toModel.unpack) :=
    rfl
  rw [hux, huy] at hz
  rw [value_eq hux, value_eq huy]
  rcases Nat.eq_zero_or_pos m with rfl | hm
  · have hz0 : UnpackedFloat.mul Format.binary32 (number s 0 e) (number t n f) = .zero (s * t) := by
      rcases Nat.eq_zero_or_pos n with rfl | hn
      · rfl
      · rw [number_of_pos hn]
        rfl
    rw [Nat.cast_zero, zero_mul, mul_zero, zero_mul]
    exact rounds_zero (hz0 ▸ hz)
  rcases Nat.eq_zero_or_pos n with rfl | hn
  · have hz0 : UnpackedFloat.mul Format.binary32 (number s m e) (number t 0 f) = .zero (s * t) := by
      rw [number_of_pos hm]
      rfl
    rw [Nat.cast_zero, zero_mul, mul_zero, mul_zero]
    exact rounds_zero (hz0 ▸ hz)
  · have hmn : e + f ≤ -149 ∨ 2 ^ 23 ≤ m * n := by
      by_cases hbig : 2 ^ 23 ≤ m
      · exact .inr (hbig.trans (Nat.le_mul_of_pos_right m hn))
      by_cases hbig' : 2 ^ 23 ≤ n
      · exact .inr (hbig'.trans (Nat.le_mul_of_pos_left n hm))
      · have := hfull.resolve_left hbig
        have := hfull'.resolve_left hbig'
        exact .inl (by omega)
    rw [number_of_pos hm, number_of_pos hn] at hz
    exact rounds_product hm hn hmn hz

theorem log2_mul_two_pow {m : ℕ} (hm : 0 < m) (k : ℕ) : (m * 2 ^ k).log2 = m.log2 + k := by
  induction k with
  | zero => rw [pow_zero, mul_one, add_zero]
  | succ k ih =>
    rw [pow_succ, ← mul_assoc, mul_comm _ 2,
      Nat.log2_two_mul (Nat.mul_pos hm (Nat.two_pow_pos k)).ne', ih, add_assoc]

theorem decreaseExponent_eq (m : ℕ) (e t : ℤ) :
    decreaseExponent m e t = (m * 2 ^ (e - t).toNat, e - ((e - t).toNat : ℤ)) := by
  rw [← Nat.shiftLeft_eq]
  rfl

theorem decreaseExponent_value (m : ℕ) (e t : ℤ) :
    ((decreaseExponent m e t).1 : ℝ) * 2 ^ (decreaseExponent m e t).2 = m * 2 ^ e := by
  rw [decreaseExponent_eq]
  push_cast
  rw [zpow_sub₀ two_ne_zero, zpow_natCast]
  field_simp

theorem rounds_of_round {s : Sign} {m : ℕ} {e : ℤ} {z : Float32} (hm : 0 < m)
    (hz : Written z (UnpackedFloat.round Format.binary32 s m e)) :
    Rounds (signed s * (m * 2 ^ e)) z := by
  obtain ⟨k, hk⟩ : ∃ k, (e - lastBit m e).toNat = k := ⟨_, rfl⟩
  have hround : UnpackedFloat.round Format.binary32 s m e = roundWithAccuracy Format.binary32 s
      (decreaseExponent m e (lastBit m e)).1 (decreaseExponent m e (lastBit m e)).2 .exact := by
    rw [← targetExponent_eq]
    rfl
  have hlog : (m * 2 ^ k).log2 = m.log2 + k := log2_mul_two_pow hm k
  have he : e - (k : ℤ) ≤ lastBit (m * 2 ^ k) (e - k) := by
    unfold lastBit at hk ⊢
    rw [hlog]
    push_cast
    omega
  have hval := decreaseExponent_value m e (lastBit m e)
  rw [hround] at hz
  rw [← hval]
  rw [decreaseExponent_eq, hk] at hz ⊢
  exact rounds_of_roundWithAccuracy (holds_exact _) he
    (fun h0 => absurd h0 (Nat.mul_pos hm (Nat.two_pow_pos k)).ne') hz

theorem normalize_apply (s : Sign) {m : ℕ} (hm : 0 < m) (e : ℤ) :
    UnpackedFloat.normalize Format.binary32 (s.apply (m : ℤ)) e .positive =
      UnpackedFloat.round Format.binary32 s m e := by
  have hm' : (0 : ℤ) < m := by exact_mod_cast hm
  cases s with
  | negative =>
    have hc : compare (-(m : ℤ)) 0 = .lt := Int.compare_eq_lt.2 (by omega)
    have hneg : (- -(m : ℤ)).toNat = m := by omega
    change UnpackedFloat.normalize Format.binary32 (-(m : ℤ)) e .positive = _
    delta UnpackedFloat.normalize
    rw [hc, hneg]
  | positive =>
    have hc : compare (m : ℤ) 0 = .gt := Int.compare_eq_gt.2 hm'
    change UnpackedFloat.normalize Format.binary32 (m : ℤ) e .positive = _
    delta UnpackedFloat.normalize
    rw [hc]
    rfl

theorem exists_apply_eq {m : ℤ} (hm : m ≠ 0) :
    ∃ (s : Sign) (n : ℕ), 0 < n ∧ s.apply (n : ℤ) = m := by
  rcases lt_or_gt_of_ne hm with h | h
  · refine ⟨.negative, m.natAbs, by omega, ?_⟩
    change -(m.natAbs : ℤ) = m
    omega
  · refine ⟨.positive, m.natAbs, by omega, ?_⟩
    change (m.natAbs : ℤ) = m
    omega

theorem rounds_of_normalize {m e : ℤ} {z : Float32}
    (hz : Written z (UnpackedFloat.normalize Format.binary32 m e .positive)) :
    Rounds (m * 2 ^ e) z := by
  rcases eq_or_ne m 0 with rfl | hm
  · rw [Int.cast_zero, zero_mul]
    exact rounds_zero hz
  · obtain ⟨s, n, hn, rfl⟩ := exists_apply_eq hm
    rw [normalize_apply s hn] at hz
    rw [apply_eq, mul_assoc]
    exact rounds_of_round hn hz

theorem decreased_sum (s t : Sign) (m n : ℕ) (e f : ℤ) :
    ((s.apply ((decreaseExponent m e (min e f)).1 : ℤ) +
      t.apply ((decreaseExponent n f (min e f)).1 : ℤ) : ℤ) : ℝ) * 2 ^ min e f =
        signed s * (m * 2 ^ e) + signed t * (n * 2 ^ f) := by
  have hm := decreaseExponent_value m e (min e f)
  have hn := decreaseExponent_value n f (min e f)
  have he : (decreaseExponent m e (min e f)).2 = min e f := by
    rw [decreaseExponent_eq]
    omega
  have hf : (decreaseExponent n f (min e f)).2 = min e f := by
    rw [decreaseExponent_eq]
    omega
  rw [he] at hm
  rw [hf] at hn
  rw [← hm, ← hn]
  push_cast
  rw [apply_eq, apply_eq]
  push_cast
  ring

theorem add_number_zero (s t : Sign) (m : ℕ) (e f : ℤ) :
    ∃ u, UnpackedFloat.add Format.binary32 (number s m e) (number t 0 f) = number u m e ∧
      signed u * ((m : ℝ) * 2 ^ e) = signed s * (m * 2 ^ e) := by
  rcases Nat.eq_zero_or_pos m with rfl | hm
  · rw [Nat.cast_zero, zero_mul, mul_zero]
    cases s <;> cases t <;> exact ⟨_, rfl, mul_zero _⟩
  · rw [number_of_pos hm]
    exact ⟨s, (number_of_pos hm).symm ▸ rfl, rfl⟩

theorem rounds_add {x y : Float32} (hx : x.isFinite) (hy : y.isFinite) :
    Rounds (value x + value y) (x + y) := by
  obtain ⟨s, m, e, hfull, -, hux⟩ := finite_cases hx
  obtain ⟨t, n, f, hfull', -, huy⟩ := finite_cases hy
  have hz : Written (x + y) (UnpackedFloat.add Format.binary32 x.toModel.unpack y.toModel.unpack) :=
    rfl
  rw [hux, huy] at hz
  rw [value_eq hux, value_eq huy]
  rcases Nat.eq_zero_or_pos n with rfl | hn
  · obtain ⟨u, hu, hval⟩ := add_number_zero s t m e f
    rw [Nat.cast_zero, zero_mul, mul_zero, add_zero, ← hval]
    exact rounds_number hfull (hu ▸ hz)
  rcases Nat.eq_zero_or_pos m with rfl | hm
  · have hadd : UnpackedFloat.add Format.binary32 (number s 0 e) (number t n f) = number t n f := by
      rw [number_of_pos hn]
      rfl
    rw [Nat.cast_zero, zero_mul, mul_zero, zero_add]
    exact rounds_number hfull' (hadd ▸ hz)
  · rw [number_of_pos hm, number_of_pos hn] at hz
    rw [← decreased_sum]
    exact rounds_of_normalize hz

/-- The exponent of a quotient, low enough for all the bits that are kept. -/
def quotientExponent (m : ℕ) (e : ℤ) (n : ℕ) (f : ℤ) : ℤ :=
  min (e - f) (max ((m.log2 : ℤ) + 1 + e - (n.log2 + 1 + f) - 24) (-149))

theorem div_finite {s t : Sign} {m n : ℕ} {e f : ℤ} (hm : 0 < m) (hn : 0 < n) :
    UnpackedFloat.div Format.binary32 (.finite s m e hm) (.finite t n f hn) =
      roundWithAccuracy Format.binary32 (s / t)
        (m * 2 ^ (e - f - quotientExponent m e n f).toNat / n) (quotientExponent m e n f)
        (accuracyOfFraction (m * 2 ^ (e - f - quotientExponent m e n f).toNat % n) n) := by
  rw [← Nat.shiftLeft_eq]
  rfl

theorem quotientExponent_le {m n : ℕ} (e f : ℤ) (hm : 0 < m) (hn : 0 < n) :
    quotientExponent m e n f ≤ -149 ∨
      2 ^ 23 ≤ m * 2 ^ (e - f - quotientExponent m e n f).toNat / n := by
  refine (le_or_gt (quotientExponent m e n f) (-149)).imp id fun hu => ?_
  obtain ⟨k, hk⟩ : ∃ k, (e - f - quotientExponent m e n f).toNat = k := ⟨_, rfl⟩
  have hshift : 24 + n.log2 ≤ m.log2 + k := by
    unfold quotientExponent at hu hk
    omega
  rw [hk, Nat.le_div_iff_mul_le hn]
  calc 2 ^ 23 * n ≤ 2 ^ 23 * 2 ^ (n.log2 + 1) := Nat.mul_le_mul_left _ Nat.lt_log2_self.le
    _ = 2 ^ (24 + n.log2) := by rw [← pow_add, add_comm n.log2, ← add_assoc]
    _ ≤ 2 ^ (m.log2 + k) := Nat.pow_le_pow_right two_pos hshift
    _ = 2 ^ m.log2 * 2 ^ k := pow_add 2 _ _
    _ ≤ m * 2 ^ k := Nat.mul_le_mul_right _ (Nat.log2_self_le hm.ne')

theorem rounds_quotient {s t : Sign} {m n : ℕ} {e f : ℤ} {z : Float32} (hm : 0 < m) (hn : 0 < n)
    (hz : Written z (UnpackedFloat.div Format.binary32 (.finite s m e hm) (.finite t n f hn))) :
    Rounds (signed s * (m * 2 ^ e) / (signed t * (n * 2 ^ f))) z := by
  rw [div_finite] at hz
  have hq := quotientExponent_le e f hm hn
  have hlow : quotientExponent m e n f ≤ e - f := min_le_left _ _
  generalize quotientExponent m e n f = u at hz hq hlow
  obtain ⟨k, hk⟩ : ∃ k, (e - f - u).toNat = k := ⟨_, rfl⟩
  rw [hk] at hz hq
  have h := rounds_of_roundWithAccuracy (holds_fraction (m * 2 ^ k) hn) (le_lastBit hq)
    (fun h0 => hq.resolve_right (by rw [h0]; norm_num)) hz
  have hv : signed s * (m * 2 ^ e) / (signed t * (n * 2 ^ f)) =
      signed (s / t) * (((m * 2 ^ k : ℕ) : ℝ) / n * 2 ^ u) := by
    have hke : (2 : ℝ) ^ k * 2 ^ u = 2 ^ e / 2 ^ f := by
      rw [← zpow_natCast, ← zpow_add₀ two_ne_zero, ← zpow_sub₀ two_ne_zero]
      congr 1
      omega
    have hst : signed s / signed t = signed s * signed t := by
      rw [div_eq_iff (by cases t <;> norm_num [signed]), mul_assoc, signed_mul_self, mul_one]
    rw [signed_div, mul_div_mul_comm, hst, mul_div_mul_comm, ← hke]
    push_cast
    ring
  rwa [hv]

theorem rounds_div {x y : Float32} (hx : x.isFinite) (hy : y.isFinite) (hy0 : value y ≠ 0) :
    Rounds (value x / value y) (x / y) := by
  obtain ⟨s, m, e, -, -, hux⟩ := finite_cases hx
  obtain ⟨t, n, f, -, -, huy⟩ := finite_cases hy
  have hz : Written (x / y) (UnpackedFloat.div Format.binary32 x.toModel.unpack y.toModel.unpack) :=
    rfl
  have hn : 0 < n := by
    refine Nat.pos_of_ne_zero fun h0 => hy0 ?_
    rw [value_eq huy, h0, Nat.cast_zero, zero_mul, mul_zero]
  rw [hux, huy, number_of_pos hn] at hz
  rcases Nat.eq_zero_or_pos m with rfl | hm
  · rw [value_eq hux, Nat.cast_zero, zero_mul, mul_zero, zero_div]
    exact rounds_zero hz
  rw [number_of_pos hm] at hz
  rw [value_eq hux, value_eq huy]
  exact rounds_quotient hm hn hz

theorem sub_finite {s t : Sign} {m n : ℕ} {e f : ℤ} (hm : 0 < m) (hn : 0 < n) :
    UnpackedFloat.sub Format.binary32 (.finite s m e hm) (.finite t n f hn) =
      UnpackedFloat.normalize Format.binary32 (s.apply ((decreaseExponent m e (min e f)).1 : ℤ) -
        t.apply ((decreaseExponent n f (min e f)).1 : ℤ)) (min e f) .positive := rfl

theorem apply_sub (s t : Sign) (m n : ℤ) : s.apply m - t.apply n = s.apply m + (-t).apply n := by
  cases t
  · exact sub_neg_eq_add _ _
  · exact sub_eq_add_neg _ _

theorem sub_number_zero (s t : Sign) (m : ℕ) (e f : ℤ) :
    ∃ u, UnpackedFloat.sub Format.binary32 (number s m e) (number t 0 f) = number u m e ∧
      signed u * ((m : ℝ) * 2 ^ e) = signed s * (m * 2 ^ e) := by
  rcases Nat.eq_zero_or_pos m with rfl | hm
  · rw [Nat.cast_zero, zero_mul, mul_zero]
    cases s <;> cases t <;> exact ⟨_, rfl, mul_zero _⟩
  · rw [number_of_pos hm]
    exact ⟨s, (number_of_pos hm).symm ▸ rfl, rfl⟩

theorem rounds_sub {x y : Float32} (hx : x.isFinite) (hy : y.isFinite) :
    Rounds (value x - value y) (x - y) := by
  obtain ⟨s, m, e, hfull, -, hux⟩ := finite_cases hx
  obtain ⟨t, n, f, hfull', -, huy⟩ := finite_cases hy
  have hz : Written (x - y) (UnpackedFloat.sub Format.binary32 x.toModel.unpack y.toModel.unpack) :=
    rfl
  rw [hux, huy] at hz
  rw [value_eq hux, value_eq huy, sub_eq_add_neg, ← neg_mul, ← signed_neg]
  rcases Nat.eq_zero_or_pos n with rfl | hn
  · obtain ⟨u, hu, hval⟩ := sub_number_zero s t m e f
    rw [Nat.cast_zero, zero_mul, mul_zero, add_zero, ← hval]
    exact rounds_number hfull (hu ▸ hz)
  rcases Nat.eq_zero_or_pos m with rfl | hm
  · have hsub : UnpackedFloat.sub Format.binary32 (number s 0 e) (number t n f) =
        number (-t) n f := by
      rw [number_of_pos hn, number_of_pos hn]
      rfl
    rw [Nat.cast_zero, zero_mul, mul_zero, zero_add]
    exact rounds_number hfull' (hsub ▸ hz)
  · rw [number_of_pos hm, number_of_pos hn, sub_finite, apply_sub] at hz
    rw [← decreased_sum]
    exact rounds_of_normalize hz

def rootExponent (m : ℕ) (e : ℤ) : ℤ :=
  min (e.ediv 2) (max (((m.log2 : ℤ) + 1 + e + 1).ediv 2 - 24) (-149))

theorem sqrt_finite {m : ℕ} {e : ℤ} (hm : 0 < m) :
    UnpackedFloat.sqrt Format.binary32 (.finite .positive m e hm) =
      roundWithAccuracy Format.binary32 .positive (m * 2 ^ (e - 2 * rootExponent m e).toNat).sqrt
        (rootExponent m e)
        (if m * 2 ^ (e - 2 * rootExponent m e).toNat -
            (m * 2 ^ (e - 2 * rootExponent m e).toNat).sqrt *
              (m * 2 ^ (e - 2 * rootExponent m e).toNat).sqrt = 0 then .exact
          else .inexact (if m * 2 ^ (e - 2 * rootExponent m e).toNat -
            (m * 2 ^ (e - 2 * rootExponent m e).toNat).sqrt *
              (m * 2 ^ (e - 2 * rootExponent m e).toNat).sqrt ≤
                (m * 2 ^ (e - 2 * rootExponent m e).toNat).sqrt then .lt else .gt)) := by
  rw [← Nat.shiftLeft_eq]
  rfl

theorem rootExponent_le {m : ℕ} (e : ℤ) (hm : 0 < m) : rootExponent m e ≤ -149 ∨
    2 ^ 23 ≤ (m * 2 ^ (e - 2 * rootExponent m e).toNat).sqrt := by
  refine (le_or_gt (rootExponent m e) (-149)).imp id fun hu => ?_
  obtain ⟨k, hk⟩ : ∃ k, (e - 2 * rootExponent m e).toNat = k := ⟨_, rfl⟩
  have hshift : 46 ≤ m.log2 + k := by
    unfold rootExponent at hu hk
    have h1 : ((m.log2 : ℤ) + 1 + e + 1).ediv 2 = ((m.log2 : ℤ) + 1 + e + 1) / 2 := rfl
    have h2 : e.ediv 2 = e / 2 := rfl
    rw [h1, h2] at hu hk
    omega
  rw [hk, Nat.le_sqrt']
  calc (2 ^ 23) ^ 2 = 2 ^ 46 := by norm_num
    _ ≤ 2 ^ (m.log2 + k) := Nat.pow_le_pow_right two_pos hshift
    _ = 2 ^ m.log2 * 2 ^ k := pow_add 2 _ _
    _ ≤ m * 2 ^ k := Nat.mul_le_mul_right _ (Nat.log2_self_le hm.ne')

theorem rounds_sqrt {x : Float32} (hx : x.isFinite) (h0 : 0 ≤ value x) :
    Rounds √(value x) x.sqrt := by
  obtain ⟨s, m, e, -, -, hux⟩ := finite_cases hx
  have hz : Written x.sqrt (UnpackedFloat.sqrt Format.binary32 x.toModel.unpack) := rfl
  rw [hux] at hz
  rw [value_eq hux] at h0 ⊢
  rcases Nat.eq_zero_or_pos m with rfl | hm
  · rw [Nat.cast_zero, zero_mul, mul_zero, Real.sqrt_zero]
    exact rounds_zero hz
  have hpos : (0 : ℝ) < m * 2 ^ e := mul_pos (by exact_mod_cast hm) (zpow_pos two_pos e)
  cases s with
  | negative =>
    have : signed .negative * ((m : ℝ) * 2 ^ e) = -(m * 2 ^ e) := neg_one_mul _
    linarith
  | positive =>
    rw [number_of_pos hm, sqrt_finite] at hz
    have hq := rootExponent_le e hm
    have hlow : 2 * rootExponent m e ≤ e := by
      have h1 : rootExponent m e ≤ e / 2 := min_le_left _ _
      omega
    generalize rootExponent m e = u at hz hq hlow
    obtain ⟨k, hk⟩ : ∃ k, (e - 2 * u).toNat = k := ⟨_, rfl⟩
    rw [hk] at hz hq
    have h := rounds_of_roundWithAccuracy (holds_sqrt (m * 2 ^ k)) (le_lastBit hq)
      (fun h0 => hq.resolve_right (by rw [h0]; norm_num)) hz
    have hv : √(signed .positive * ((m : ℝ) * 2 ^ e)) =
        signed .positive * (√((m * 2 ^ k : ℕ) : ℝ) * 2 ^ u) := by
      have hke : (2 : ℝ) ^ e = 2 ^ k * (2 ^ u * 2 ^ u) := by
        rw [← zpow_natCast, ← zpow_add₀ two_ne_zero, ← zpow_add₀ two_ne_zero]
        congr 1
        omega
      have hu : (0 : ℝ) ≤ 2 ^ u := (zpow_pos two_pos u).le
      change √(1 * ((m : ℝ) * 2 ^ e)) = 1 * (√((m * 2 ^ k : ℕ) : ℝ) * 2 ^ u)
      rw [one_mul, one_mul, hke, ← mul_assoc, Real.sqrt_mul (by positivity),
        Real.sqrt_mul_self hu]
      push_cast
      rfl
    rwa [hv]

end Fieldwatch.Single
