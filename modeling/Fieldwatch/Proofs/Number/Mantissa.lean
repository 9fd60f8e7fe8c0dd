import Mathlib.Algebra.Order.Field.Power
import Mathlib.Analysis.Real.Sqrt
import Mathlib.Tactic.FieldSimp
import Mathlib.Tactic.Linarith
import Mathlib.Tactic.NormNum
import Mathlib.Tactic.Ring

/-! How single precision rounds. An operation keeps a whole number of units, the mantissa, and of
what is left of its exact result two bits: whether it makes up half a unit, and whether there is
more. The two bits are enough to round as if the result itself were at hand. -/

namespace Fieldwatch.Single

open Float.Model Float.Model.UnpackedFloat

/-- `x` is the mantissa of `a` plus a part of a unit that the two bits tell from zero, from one half
and from what lies between. -/
def Holds (a : ExtendedMantissa) (x : ℝ) : Prop :=
  if a.roundBit then
    if a.stickyBit then a.mantissa + 1 / 2 < x ∧ x < a.mantissa + 1 else x = a.mantissa + 1 / 2
  else
    if a.stickyBit then a.mantissa < x ∧ x < a.mantissa + 1 / 2 else x = a.mantissa

variable {a : ExtendedMantissa} {x : ℝ} {m : ℕ}

@[simp] theorem holds_whole : Holds ⟨m, false, false⟩ x ↔ x = m := Iff.rfl

@[simp] theorem holds_below : Holds ⟨m, false, true⟩ x ↔ m < x ∧ x < m + 1 / 2 := Iff.rfl

@[simp] theorem holds_half : Holds ⟨m, true, false⟩ x ↔ x = m + 1 / 2 := Iff.rfl

@[simp] theorem holds_above : Holds ⟨m, true, true⟩ x ↔ m + 1 / 2 < x ∧ x < m + 1 := Iff.rfl

theorem holds_exact (m : ℕ) : Holds (.ofMantissaAndAccuracy m .exact) m := rfl

theorem Holds.bounds (h : Holds a x) : a.mantissa ≤ x ∧ x < a.mantissa + 1 := by
  obtain ⟨m, r, s⟩ := a
  cases r <;> cases s <;> simp only [holds_whole, holds_below, holds_half, holds_above] at h <;>
    constructor <;> linarith

theorem shiftRightOne_even (k : ℕ) (r s : Bool) :
    (ExtendedMantissa.mk (2 * k) r s).shiftRightOne = ⟨k, false, r || s⟩ := by
  have hhalf : 2 * k / 2 = k := by omega
  have hbit : 2 * k % 2 = 0 := by omega
  change (⟨2 * k / 2, 2 * k % 2 != 0, r || s⟩ : ExtendedMantissa) = _
  rw [hhalf, hbit]
  rfl

theorem shiftRightOne_odd (k : ℕ) (r s : Bool) :
    (ExtendedMantissa.mk (2 * k + 1) r s).shiftRightOne = ⟨k, true, r || s⟩ := by
  have hhalf : (2 * k + 1) / 2 = k := by omega
  have hbit : (2 * k + 1) % 2 = 1 := by omega
  change (⟨(2 * k + 1) / 2, (2 * k + 1) % 2 != 0, r || s⟩ : ExtendedMantissa) = _
  rw [hhalf, hbit]
  rfl

theorem Holds.halve (h : Holds a x) : Holds a.shiftRightOne (x / 2) := by
  obtain ⟨m, r, s⟩ := a
  obtain ⟨k, rfl | rfl⟩ : ∃ k, m = 2 * k ∨ m = 2 * k + 1 := ⟨m / 2, by omega⟩
  · rw [shiftRightOne_even]
    cases r <;> cases s <;> simp [-one_div] at h ⊢ <;> (try constructor) <;> linarith
  · rw [shiftRightOne_odd]
    cases r <;> cases s <;> simp [-one_div] at h ⊢ <;> (try constructor) <;> linarith

theorem Holds.shift (h : Holds a x) (n : ℕ) : Holds (a >>> n) (x / 2 ^ n) := by
  change Holds (n.repeat ExtendedMantissa.shiftRightOne a) _
  induction n with
  | zero =>
    have hx : x / 2 ^ 0 = x := by rw [pow_zero, div_one]
    rw [hx]
    exact h
  | succ n ih =>
    have hx : x / 2 ^ (n + 1) = x / 2 ^ n / 2 := by rw [pow_succ, div_div]
    rw [hx]
    exact ih.halve

theorem Holds.rounded (h : Holds a x) : |(a.roundedMantissa : ℝ) - x| ≤ 1 / 2 := by
  obtain ⟨m, r, s⟩ := a
  cases r <;> cases s <;> simp only [holds_whole, holds_below, holds_half, holds_above] at h
  · change |((m : ℕ) : ℝ) - x| ≤ 1 / 2
    rw [h, sub_self, abs_zero]
    norm_num
  · change |((m : ℕ) : ℝ) - x| ≤ 1 / 2
    rw [abs_le]
    constructor <;> linarith
  · -- a tie goes to the even one of the two
    change |((m + m % 2 : ℕ) : ℝ) - x| ≤ 1 / 2
    have hm : m % 2 = 0 ∨ m % 2 = 1 := by omega
    rcases hm with hm | hm <;> rw [hm, abs_le] <;> push_cast <;> constructor <;> linarith
  · change |((m + 1 : ℕ) : ℝ) - x| ≤ 1 / 2
    rw [abs_le]
    push_cast
    constructor <;> linarith

theorem Holds.le_roundedMantissa (h : Holds a x) : a.mantissa ≤ a.roundedMantissa := by
  have hround := abs_le.1 h.rounded
  by_contra hc
  have hless : (a.roundedMantissa : ℝ) + 1 ≤ a.mantissa := by exact_mod_cast not_le.1 hc
  linarith [hround.1, h.bounds.1]

theorem Holds.roundedMantissa_le (h : Holds a x) : a.roundedMantissa ≤ a.mantissa + 1 := by
  have hround := abs_le.1 h.rounded
  by_contra hc
  have hmore : (a.mantissa : ℝ) + 1 + 1 ≤ a.roundedMantissa := by exact_mod_cast not_le.1 hc
  linarith [hround.2, h.bounds.2]

theorem holds_fraction (m : ℕ) {n : ℕ} (hn : 0 < n) :
    Holds (ExtendedMantissa.ofMantissaAndAccuracy (m / n) (accuracyOfFraction (m % n) n))
      ((m : ℝ) / n) := by
  have hn' : (0 : ℝ) < n := by exact_mod_cast hn
  have hsplit : (m : ℝ) / n = (m / n : ℕ) + ((m % n : ℕ) : ℝ) / n := by
    rw [div_eq_iff hn'.ne', add_mul, div_mul_cancel₀ _ hn'.ne']
    exact_mod_cast (Nat.div_add_mod' m n).symm
  have hlt : ((m % n : ℕ) : ℝ) / n < 1 := by
    rw [div_lt_one hn']
    exact_mod_cast Nat.mod_lt m hn
  rw [hsplit]
  rcases Nat.eq_zero_or_pos (m % n) with h0 | hpos
  · have hacc : accuracyOfFraction (m % n) n = .exact := if_pos h0
    rw [hacc, h0, Nat.cast_zero, zero_div, add_zero]
    exact holds_exact _
  · have hacc : accuracyOfFraction (m % n) n = .inexact (compare (2 * (m % n)) n) :=
      if_neg hpos.ne'
    have hpart : 0 < ((m % n : ℕ) : ℝ) / n := div_pos (by exact_mod_cast hpos) hn'
    have hdouble : ((m % n : ℕ) : ℝ) / n = 1 / 2 * (((2 * (m % n) : ℕ) : ℝ) / n) := by
      push_cast
      ring
    rw [hacc]
    rcases Nat.lt_trichotomy (2 * (m % n)) n with hc | hc | hc
    · have hless : ((2 * (m % n) : ℕ) : ℝ) / n < 1 := by
        rw [div_lt_one hn']
        exact_mod_cast hc
      rw [Nat.compare_eq_lt.2 hc]
      exact holds_below.2 ⟨by linarith, by linarith⟩
    · have hone : ((2 * (m % n) : ℕ) : ℝ) / n = 1 := by rw [hc, div_self hn'.ne']
      rw [Nat.compare_eq_eq.2 hc]
      exact holds_half.2 (by linarith)
    · have hmore : 1 < ((2 * (m % n) : ℕ) : ℝ) / n := by
        rw [one_lt_div hn']
        exact_mod_cast hc
      rw [Nat.compare_eq_gt.2 hc]
      exact holds_above.2 ⟨by linarith, by linarith⟩

theorem holds_sqrt (m : ℕ) : Holds (ExtendedMantissa.ofMantissaAndAccuracy m.sqrt
    (if m - m.sqrt * m.sqrt = 0 then .exact
      else .inexact (if m - m.sqrt * m.sqrt ≤ m.sqrt then .lt else .gt))) (√(m : ℝ)) := by
  have hle : m.sqrt * m.sqrt ≤ m := Nat.sqrt_le m
  have hroot : (m.sqrt : ℝ) ≤ √(m : ℝ) := Real.nat_sqrt_le_real_sqrt
  have hnext : √(m : ℝ) < m.sqrt + 1 := Real.real_sqrt_lt_nat_sqrt_succ
  have hr0 : (0 : ℝ) ≤ m.sqrt := Nat.cast_nonneg _
  have hsq : √(m : ℝ) * √(m : ℝ) = m := Real.mul_self_sqrt (Nat.cast_nonneg m)
  split
  · next h0 =>
    have hm : m.sqrt * m.sqrt = m := Nat.le_antisymm hle (Nat.sub_eq_zero_iff_le.1 h0)
    have heq : √(m : ℝ) = m.sqrt := by
      conv_lhs => rw [← hm, Nat.cast_mul]
      exact Real.sqrt_mul_self hr0
    rw [heq]
    exact holds_exact _
  · next h0 =>
    have hne : (m.sqrt : ℝ) < √(m : ℝ) := by
      refine lt_of_le_of_ne hroot fun he => h0 ?_
      have hexact : m.sqrt * m.sqrt = m := by
        rw [← he] at hsq
        exact_mod_cast hsq
      omega
    split
    · next hlow =>
      have hmle : (m : ℝ) ≤ m.sqrt * m.sqrt + m.sqrt := by
        have : m ≤ m.sqrt * m.sqrt + m.sqrt := by omega
        exact_mod_cast this
      exact holds_below.2 ⟨hne, by nlinarith⟩
    · next hhigh =>
      have hmge : (m.sqrt * m.sqrt + m.sqrt + 1 : ℝ) ≤ m := by
        have : m.sqrt * m.sqrt + m.sqrt + 1 ≤ m := by omega
        exact_mod_cast this
      exact holds_above.2 ⟨by nlinarith, hnext⟩

/-- The exponent of the last bit that is kept of `m * 2 ^ e`. -/
def lastBit (m : ℕ) (e : ℤ) : ℤ := max (m.log2 + e - 23) (-149)

theorem targetExponent_eq (m : ℕ) (e : ℤ) :
    Format.binary32.targetExponent (totalExponent m e) = lastBit m e := by
  change max ((m.log2 : ℤ) + 1 + e - 24) (-149) = max ((m.log2 : ℤ) + e - 23) (-149)
  omega

theorem mantissa_shift (a : ExtendedMantissa) (n : ℕ) :
    (a >>> n).mantissa = a.mantissa / 2 ^ n := by
  change (n.repeat ExtendedMantissa.shiftRightOne a).mantissa = _
  induction n with
  | zero =>
    rw [pow_zero, Nat.div_one]
    rfl
  | succ n ih =>
    change (n.repeat ExtendedMantissa.shiftRightOne a).mantissa / 2 = _
    rw [ih, Nat.div_div_eq_div_mul, pow_succ]

theorem shiftToTargetExponent_eq (m : ℕ) (e : ℤ) (acc : Accuracy) :
    shiftToTargetExponent Format.binary32 m e acc =
      (ExtendedMantissa.ofMantissaAndAccuracy m acc >>> (lastBit m e - e).toNat,
        e + ((lastBit m e - e).toNat : ℤ)) := by
  rw [← targetExponent_eq]
  rfl

theorem log2_le_of_lt {m : ℕ} (h : m < 2 ^ 24) : m.log2 ≤ 23 := by
  rcases Nat.eq_zero_or_pos m with rfl | hm
  · decide
  · have := (Nat.log2_lt hm.ne').2 h
    omega

theorem shiftToTargetExponent_of_lt {m : ℕ} {e : ℤ} (hm : m < 2 ^ 24) (he : -149 ≤ e) :
    shiftToTargetExponent Format.binary32 m e .exact = (⟨m, false, false⟩, e) := by
  have hl := log2_le_of_lt hm
  have hk : (lastBit m e - e).toNat = 0 := by
    unfold lastBit
    omega
  rw [shiftToTargetExponent_eq, hk]
  exact Prod.ext rfl (add_zero e)

theorem shiftToTargetExponent_carry {e : ℤ} (he : -149 ≤ e) :
    shiftToTargetExponent Format.binary32 (2 ^ 24) e .exact = (⟨2 ^ 23, false, false⟩, e + 1) := by
  have hl : (2 ^ 24 : ℕ).log2 = 24 := Nat.log2_two_pow
  have hk : (lastBit (2 ^ 24) e - e).toNat = 1 := by
    unfold lastBit
    rw [hl]
    omega
  rw [shiftToTargetExponent_eq, hk]
  rfl

theorem mantissa_of (m : ℕ) (acc : Accuracy) :
    (ExtendedMantissa.ofMantissaAndAccuracy m acc).mantissa = m := by
  cases acc with
  | exact => rfl
  | inexact o => cases o <;> rfl

def number (s : Sign) (m : ℕ) (e : ℤ) : UnpackedFloat :=
  if h : m = 0 then .zero s else .finite s m e (Nat.pos_of_ne_zero h)

theorem number_of_pos {s : Sign} {m : ℕ} {e : ℤ} (h : 0 < m) : number s m e = .finite s m e h :=
  dif_neg h.ne'

noncomputable def units (m : ℕ) (e : ℤ) : ℝ := m * 2 ^ e

noncomputable def limit : ℝ := 2 ^ 128

/-- How far off a number may come out when it is rounded once. -/
noncomputable def slack (v : ℝ) : ℝ := max (|v| / 2 ^ 24) (1 / 2 ^ 150)

/-- A mantissa that has all its bits, or as many as the least exponent leaves it. -/
def IsFull (m : ℕ) (e : ℤ) : Prop := m < 2 ^ 24 ∧ -149 ≤ e ∧ (2 ^ 23 ≤ m ∨ e = -149)

theorem shiftToTargetExponent_round {r : ℕ} {t : ℤ} (hr : r ≤ 2 ^ 24) (ht : -149 ≤ t)
    (hfull : 2 ^ 23 ≤ r ∨ t = -149) : ∃ n u, IsFull n u ∧ t ≤ u ∧ (n : ℝ) * 2 ^ u = r * 2 ^ t ∧
      shiftToTargetExponent Format.binary32 r t .exact = (⟨n, false, false⟩, u) := by
  rcases Nat.lt_or_ge r (2 ^ 24) with hlt | hge
  · exact ⟨r, t, ⟨hlt, ht, hfull⟩, le_rfl, rfl, shiftToTargetExponent_of_lt hlt ht⟩
  · obtain rfl : r = 2 ^ 24 := Nat.le_antisymm hr hge
    have hp : (2 : ℝ) ^ (t + 1) = 2 ^ t * 2 := by rw [zpow_add₀ two_ne_zero, zpow_one]
    refine ⟨2 ^ 23, t + 1, ⟨by norm_num, by omega, .inl le_rfl⟩, by omega, ?_,
      shiftToTargetExponent_carry ht⟩
    rw [hp]
    push_cast
    ring

theorem div_lt_of_lastBit {m k : ℕ} {e : ℤ} (h : lastBit m e = e + k) : m / 2 ^ k < 2 ^ 24 := by
  have hlog : m.log2 ≤ 23 + k := by
    unfold lastBit at h
    omega
  rw [Nat.div_lt_iff_lt_mul (Nat.two_pow_pos k), ← pow_add]
  exact lt_of_lt_of_le Nat.lt_log2_self (Nat.pow_le_pow_right two_pos (by omega))

theorem full_of_lastBit {m k : ℕ} {e : ℤ} (h : lastBit m e = e + k) (h0 : m = 0 → e ≤ -149) :
    2 ^ 23 ≤ m / 2 ^ k ∨ e + (k : ℤ) = -149 := by
  unfold lastBit at h
  rcases Nat.eq_zero_or_pos m with rfl | hm
  · have hz : (0 : ℕ).log2 = 0 := rfl
    have := h0 rfl
    omega
  · refine or_iff_not_imp_right.2 fun ht => ?_
    have hlog : m.log2 = 23 + k := by omega
    rw [Nat.le_div_iff_mul_le (Nat.two_pow_pos k), ← pow_add, ← hlog]
    exact Nat.log2_self_le hm.ne'

theorem half_unit_le_slack {m : ℕ} {e : ℤ} {x : ℝ} (hx : (m : ℝ) ≤ x) (hm : m = 0 → e ≤ -149) :
    (2 : ℝ) ^ lastBit m e / 2 ≤ slack (x * 2 ^ e) := by
  have he : (0 : ℝ) < 2 ^ e := zpow_pos two_pos e
  rcases max_choice ((m.log2 : ℤ) + e - 23) (-149) with h | h
  · rcases Nat.eq_zero_or_pos m with rfl | hm0
    · have := hm rfl
      have hl : lastBit 0 e = -149 := by
        unfold lastBit
        change max (((0 : ℕ) : ℤ) + e - 23) (-149) = -149
        omega
      rw [hl]
      refine le_trans ?_ (le_max_right _ _)
      norm_num
    · have hl : (2 : ℝ) ^ m.log2 ≤ m := by exact_mod_cast Nat.log2_self_le hm0.ne'
      have hp : (2 : ℝ) ^ lastBit m e / 2 = 2 ^ m.log2 * 2 ^ e / 2 ^ 24 := by
        have hs : lastBit m e = (m.log2 : ℤ) + e - 23 := h
        rw [hs, zpow_sub₀ two_ne_zero, zpow_add₀ two_ne_zero, zpow_natCast]
        norm_num
        ring
      refine le_trans ?_ (le_max_left _ _)
      rw [hp, abs_of_nonneg (mul_nonneg ((Nat.cast_nonneg m).trans hx) he.le)]
      gcongr
      exact hl.trans hx
  · have hl : lastBit m e = -149 := h
    rw [hl]
    refine le_trans ?_ (le_max_right _ _)
    norm_num

/-- The one rounding of every operation: what comes out has as many bits as there is room for, and
is off by half a unit of its last bit at most, which is within the slack of the exact number. -/
theorem roundWithAccuracy_spec (s : Sign) {m : ℕ} {e : ℤ} {acc : Accuracy} {x : ℝ}
    (hx : Holds (ExtendedMantissa.ofMantissaAndAccuracy m acc) x) (he : e ≤ lastBit m e)
    (hm : m = 0 → e ≤ -149) : ∃ n u, IsFull n u ∧ |(n : ℝ) * 2 ^ u - x * 2 ^ e| ≤ 2 ^ u / 2 ∧
      |(n : ℝ) * 2 ^ u - x * 2 ^ e| ≤ slack (x * 2 ^ e) ∧
      roundWithAccuracy Format.binary32 s m e acc = number s n u := by
  obtain ⟨k, hk⟩ : ∃ k : ℕ, lastBit m e = e + k := ⟨(lastBit m e - e).toNat, by omega⟩
  have hkn : (lastBit m e - e).toNat = k := by omega
  set a := ExtendedMantissa.ofMantissaAndAccuracy m acc >>> k with ha
  have hshift := hx.shift k
  have hmant : a.mantissa = m / 2 ^ k := by rw [ha, mantissa_shift, mantissa_of]
  rw [← ha] at hshift
  have hlow : m / 2 ^ k ≤ a.roundedMantissa := hmant ▸ hshift.le_roundedMantissa
  have hhigh : a.roundedMantissa ≤ m / 2 ^ k + 1 := hmant ▸ hshift.roundedMantissa_le
  have hlt : m / 2 ^ k < 2 ^ 24 := div_lt_of_lastBit hk
  have hfull : 2 ^ 23 ≤ a.roundedMantissa ∨ e + (k : ℤ) = -149 :=
    (full_of_lastBit hk hm).imp_left fun h => h.trans hlow
  have ht : -149 ≤ e + (k : ℤ) := hk ▸ le_max_right _ _
  obtain ⟨n, u, hnu, hup, hval, heq⟩ := shiftToTargetExponent_round (by omega) ht hfull
  have hclose : |(n : ℝ) * 2 ^ u - x * 2 ^ e| ≤ 2 ^ (e + (k : ℤ)) / 2 := by
    have hex : x * 2 ^ e = x / 2 ^ k * 2 ^ (e + (k : ℤ)) := by
      rw [zpow_add₀ two_ne_zero, zpow_natCast]
      field_simp
    have hpos : (0 : ℝ) < 2 ^ (e + (k : ℤ)) := zpow_pos two_pos _
    calc |(n : ℝ) * 2 ^ u - x * 2 ^ e|
        = |(a.roundedMantissa - x / 2 ^ k) * 2 ^ (e + (k : ℤ))| := by rw [hval, hex, sub_mul]
      _ = |(a.roundedMantissa : ℝ) - x / 2 ^ k| * 2 ^ (e + (k : ℤ)) := by
          rw [abs_mul, abs_of_pos hpos]
      _ ≤ 1 / 2 * 2 ^ (e + (k : ℤ)) := by
          gcongr
          exact hshift.rounded
      _ = 2 ^ (e + (k : ℤ)) / 2 := one_div_mul_eq_div _ _
  refine ⟨n, u, hnu, hclose.trans ?_, hclose.trans ?_, ?_⟩
  · gcongr
    exact one_le_two
  · have hhalf := half_unit_le_slack (e := e) (mantissa_of m acc ▸ hx.bounds.1) hm
    rwa [hk] at hhalf
  · have hfirst := shiftToTargetExponent_eq m e acc
    rw [hkn] at hfirst
    have hunfold : roundWithAccuracy Format.binary32 s m e acc =
        number s (shiftToTargetExponent Format.binary32
          (shiftToTargetExponent Format.binary32 m e acc).1.roundedMantissa
          (shiftToTargetExponent Format.binary32 m e acc).2 .exact).1.mantissa
        (shiftToTargetExponent Format.binary32
          (shiftToTargetExponent Format.binary32 m e acc).1.roundedMantissa
          (shiftToTargetExponent Format.binary32 m e acc).2 .exact).2 := rfl
    rw [hunfold, hfirst, heq]

end Fieldwatch.Single
