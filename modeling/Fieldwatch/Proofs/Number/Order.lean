import Fieldwatch.Proofs.Number.Rounding

/-! Single precision beyond the finite results of operations: how numbers compare, what becomes of
values that are infinite or no number, and sums that do not get past a bound. -/

namespace Fieldwatch.Single

open Float.Model Float.Model.UnpackedFloat

section Comparison

theorem mul_two_zpow_lt {m n : ℕ} {e f : ℤ} (hm : IsFull m e) (hn : IsFull n f) (h : e < f) :
    (m : ℝ) * 2 ^ e < n * 2 ^ f := by
  have hn' : 2 ^ 23 ≤ n := hn.2.2.resolve_right (by have := hm.2.1; omega)
  have h1 : (m : ℝ) < 2 ^ 24 := by exact_mod_cast hm.1
  have h2 : (2 : ℝ) ^ 23 ≤ n := by exact_mod_cast hn'
  calc (m : ℝ) * 2 ^ e < 2 ^ 24 * 2 ^ e := by gcongr
    _ = 2 ^ 23 * 2 ^ (e + 1) := by
        rw [zpow_add₀ two_ne_zero, zpow_one]
        ring
    _ ≤ 2 ^ 23 * 2 ^ f := by
        gcongr
        · exact one_le_two
        · omega
    _ ≤ n * 2 ^ f := by gcongr

theorem compare_mantissas {m n : ℕ} {e f : ℤ} (hm : IsFull m e) (hn : IsFull n f) :
    (compare e f).then (compare m n) = cmp ((m : ℝ) * 2 ^ e) (n * 2 ^ f) := by
  rcases lt_trichotomy e f with h | rfl | h
  · rw [Int.compare_eq_lt.2 h, (cmp_eq_lt_iff _ _).2 (mul_two_zpow_lt hm hn h)]
    rfl
  · have hp : (0 : ℝ) < 2 ^ e := zpow_pos two_pos e
    rw [Int.compare_eq_eq.2 rfl]
    change compare m n = _
    rcases Nat.lt_trichotomy m n with h | rfl | h
    · rw [Nat.compare_eq_lt.2 h, eq_comm, cmp_eq_lt_iff]
      gcongr
    · rw [Nat.compare_eq_eq.2 rfl, cmp_self_eq_eq]
    · rw [Nat.compare_eq_gt.2 h, eq_comm, cmp_eq_gt_iff]
      gcongr
  · rw [Int.compare_eq_gt.2 h, (cmp_eq_gt_iff _ _).2 (mul_two_zpow_lt hn hm h)]
    rfl

theorem some_cmp_of_lt {v w : ℝ} (h : v < w) : some Ordering.lt = some (cmp v w) :=
  congrArg some ((cmp_eq_lt_iff v w).2 h).symm

theorem some_cmp_of_gt {v w : ℝ} (h : w < v) : some Ordering.gt = some (cmp v w) :=
  congrArg some ((cmp_eq_gt_iff v w).2 h).symm

theorem cmp_neg_neg (v w : ℝ) : cmp (-v) (-w) = cmp w v := by
  rcases lt_trichotomy v w with h | rfl | h
  · rw [(cmp_eq_gt_iff _ _).2 h, (cmp_eq_gt_iff _ _).2 (neg_lt_neg h)]
  · rw [cmp_self_eq_eq, cmp_self_eq_eq]
  · rw [(cmp_eq_lt_iff _ _).2 h, (cmp_eq_lt_iff _ _).2 (neg_lt_neg h)]

theorem compare_number {s t : Sign} {m n : ℕ} {e f : ℤ} (hm : IsFull m e) (hn : IsFull n f) :
    UnpackedFloat.compare (number s m e) (number t n f) =
      some (cmp (signed s * ((m : ℝ) * 2 ^ e)) (signed t * (n * 2 ^ f))) := by
  rcases Nat.eq_zero_or_pos m with rfl | hmp <;> rcases Nat.eq_zero_or_pos n with rfl | hnp
  · rw [Nat.cast_zero, zero_mul, mul_zero, zero_mul, mul_zero, cmp_self_eq_eq]
    rfl
  · have hpos : (0 : ℝ) < n * 2 ^ f := by positivity
    rw [Nat.cast_zero, zero_mul, mul_zero, number_of_pos hnp]
    cases t with
    | positive => exact some_cmp_of_lt (by rwa [signed_positive])
    | negative => exact some_cmp_of_gt (by rwa [signed_negative, neg_lt_zero])
  · have hpos : (0 : ℝ) < m * 2 ^ e := by positivity
    rw [Nat.cast_zero, zero_mul, mul_zero, number_of_pos hmp]
    cases s with
    | positive => exact some_cmp_of_gt (by rwa [signed_positive])
    | negative => exact some_cmp_of_lt (by rwa [signed_negative, neg_lt_zero])
  · have hm0 : (0 : ℝ) < m * 2 ^ e := by positivity
    have hn0 : (0 : ℝ) < n * 2 ^ f := by positivity
    rw [number_of_pos hmp, number_of_pos hnp]
    cases s <;> cases t
    · change some ((compare e f).then (compare m n)).swap = _
      rw [compare_mantissas hm hn, cmp_swap, signed_negative, signed_negative, cmp_neg_neg]
    · exact some_cmp_of_lt (by rw [signed_negative, signed_positive]; linarith)
    · exact some_cmp_of_gt (by rw [signed_negative, signed_positive]; linarith)
    · change some ((compare e f).then (compare m n)) = _
      rw [compare_mantissas hm hn, signed_positive, signed_positive]

variable {x y : Float32}

theorem compare_eq (hx : x.isFinite) (hy : y.isFinite) :
    UnpackedFloat.compare x.toModel.unpack y.toModel.unpack = some (cmp (value x) (value y)) := by
  obtain ⟨s, m, e, hm, -, hux⟩ := finite_cases hx
  obtain ⟨t, n, f, hn, -, huy⟩ := finite_cases hy
  rw [hux, huy, value_eq hux, value_eq huy, compare_number hm hn]

theorem lt_iff (hx : x.isFinite) (hy : y.isFinite) : x < y ↔ value x < value y := by
  have h : x < y ↔ (UnpackedFloat.compare x.toModel.unpack y.toModel.unpack == some .lt) = true :=
    decide_eq_true_iff
  rw [h, compare_eq hx hy, ← cmp_eq_lt_iff, beq_iff_eq, Option.some_inj]

theorem le_iff (hx : x.isFinite) (hy : y.isFinite) : x ≤ y ↔ value x ≤ value y := by
  have h : x ≤ y ↔
      ((UnpackedFloat.compare x.toModel.unpack y.toModel.unpack).any (·.isLE)) = true :=
    decide_eq_true_iff
  rw [h, compare_eq hx hy]
  rcases lt_trichotomy (value x) (value y) with hc | hc | hc
  · rw [(cmp_eq_lt_iff _ _).2 hc]
    exact iff_of_true rfl hc.le
  · rw [hc, cmp_self_eq_eq]
    exact iff_of_true rfl le_rfl
  · rw [(cmp_eq_gt_iff _ _).2 hc]
    exact iff_of_false Bool.noConfusion hc.not_ge

theorem beq_iff (hx : x.isFinite) (hy : y.isFinite) : (x == y) = true ↔ value x = value y := by
  have h : (x == y) =
      (UnpackedFloat.compare x.toModel.unpack y.toModel.unpack == some .eq) := rfl
  rw [h, compare_eq hx hy, beq_iff_eq, Option.some_inj, cmp_eq_eq_iff]

end Comparison

def Special (u : UnpackedFloat) : Prop := u = .notANumber ∨ ∃ s, u = .infinity s

theorem special_or_finite (x : Float32) : Special x.toModel.unpack ∨ x.isFinite := by
  rcases unpack_cases x.toModel.toBits.toBitVec with hn | hi | ⟨s, m, e, -, -, hf⟩
  · exact .inl (.inl hn)
  · exact .inl (.inr hi)
  · have hx : x.toModel.unpack = number s m e := hf
    have hfin : x.toModel.unpack.isFinite = true := by rw [hx, isFinite_number]
    exact .inr hfin

theorem Special.not_finite {x : Float32} (h : Special x.toModel.unpack) : ¬ x.isFinite := by
  intro hf
  have hx : x.toModel.unpack.isFinite = true := hf
  rcases h with h | ⟨s, h⟩ <;> rw [h] at hx <;> cases hx

theorem IsInfinite.not_finite {s : Sign} {x : Float32} (h : IsInfinite s x) : ¬ x.isFinite :=
  Special.not_finite (.inr ⟨s, h⟩)

theorem Written.special {z : Float32} {u : UnpackedFloat} (hz : Written z u) (hu : Special u) :
    ¬ z.isFinite := by
  refine Special.not_finite ?_
  rw [hz]
  rcases hu with rfl | ⟨s, rfl⟩
  · exact .inl (unpack_packComponents .positive (-1#8) (1#23 <<< 22))
  · exact .inr ⟨s, unpack_pack_infinity s⟩

theorem Written.infinite {z : Float32} {s : Sign} (hz : Written z (.infinity s)) :
    IsInfinite s z := hz.trans (unpack_pack_infinity s)

theorem special_add_left {u : UnpackedFloat} (hu : Special u) (v : UnpackedFloat) :
    Special (UnpackedFloat.add Format.binary32 u v) := by
  rcases hu with rfl | ⟨s, rfl⟩
  · exact .inl rfl
  · cases v with
    | notANumber => exact .inl rfl
    | infinity t =>
      cases s <;> cases t
      · exact .inr ⟨_, rfl⟩
      · exact .inl rfl
      · exact .inl rfl
      · exact .inr ⟨_, rfl⟩
    | zero t => exact .inr ⟨s, rfl⟩
    | finite t n f hn => exact .inr ⟨s, rfl⟩

theorem special_add_right (u : UnpackedFloat) {v : UnpackedFloat} (hv : Special v) :
    Special (UnpackedFloat.add Format.binary32 u v) := by
  rcases hv with rfl | ⟨t, rfl⟩
  · cases u <;> exact .inl rfl
  · cases u with
    | notANumber => exact .inl rfl
    | infinity s => exact special_add_left (.inr ⟨s, rfl⟩) _
    | zero s => exact .inr ⟨t, rfl⟩
    | finite s m e hm => exact .inr ⟨t, rfl⟩

theorem special_mul_right (u : UnpackedFloat) {v : UnpackedFloat} (hv : Special v) :
    Special (UnpackedFloat.mul Format.binary32 u v) := by
  rcases hv with rfl | ⟨t, rfl⟩
  · cases u <;> exact .inl rfl
  · cases u with
    | notANumber => exact .inl rfl
    | infinity s => exact .inr ⟨s * t, rfl⟩
    | zero s => exact .inl rfl
    | finite s m e hm => exact .inr ⟨s * t, rfl⟩

variable {x y : Float32}

theorem finite_of_add (h : (x + y).isFinite) : x.isFinite ∧ y.isFinite := by
  have hz : Written (x + y) (UnpackedFloat.add Format.binary32 x.toModel.unpack y.toModel.unpack) :=
    rfl
  constructor
  · exact (special_or_finite x).resolve_left fun hx => hz.special (special_add_left hx _) h
  · exact (special_or_finite y).resolve_left fun hy => hz.special (special_add_right _ hy) h

theorem finite_of_mul (h : (x * y).isFinite) : y.isFinite := by
  have hz : Written (x * y) (UnpackedFloat.mul Format.binary32 x.toModel.unpack y.toModel.unpack) :=
    rfl
  exact (special_or_finite y).resolve_left fun hy => hz.special (special_mul_right _ hy) h

theorem written_neg (x : Float32) : Written (-x) (UnpackedFloat.neg x.toModel.unpack) := rfl

theorem finite_of_neg (h : (-x).isFinite) : x.isFinite := by
  refine (special_or_finite x).resolve_left fun hx => (written_neg x).special ?_ h
  rcases hx with hx | ⟨s, hx⟩
  · exact .inl (by rw [hx]; rfl)
  · exact .inr ⟨-s, by rw [hx]; rfl⟩

theorem value_neg (hx : x.isFinite) : value (-x) = -value x := by
  obtain ⟨s, m, e, hf, he, hux⟩ := finite_cases hx
  have hneg : UnpackedFloat.neg (number s m e) = number (-s) m e := by
    rcases Nat.eq_zero_or_pos m with rfl | hm
    · rfl
    · rw [number_of_pos hm, number_of_pos hm]
      rfl
  have hz := written_neg x
  rw [hux, hneg, Written, pack_number hf he] at hz
  rw [value_eq hz, value_eq hux, signed_neg, neg_mul]
theorem unpack_of_toBits {b : UInt32} (h : x.toBits = b) :
    x.toModel.unpack = unpack Format.binary32 b.toBitVec := by
  rw [← h]
  rfl

theorem value_of_toBits {b : UInt32} {s : Sign} {m : ℕ} {e : ℤ} (h : x.toBits = b)
    (hb : unpack Format.binary32 b.toBitVec = number s m e) :
    x.isFinite ∧ value x = signed s * (m * 2 ^ e) := by
  have hu : x.toModel.unpack = number s m e := (unpack_of_toBits h).trans hb
  have hfin : x.toModel.unpack.isFinite = true := by rw [hu, isFinite_number]
  exact ⟨hfin, value_eq hu⟩

section Infinite

variable {s : Sign}

theorem IsInfinite.add_finite (hx : IsInfinite s x) (hy : y.isFinite) : IsInfinite s (x + y) := by
  obtain ⟨t, n, f, -, -, huy⟩ := finite_cases hy
  have hz : Written (x + y) (UnpackedFloat.add Format.binary32 x.toModel.unpack y.toModel.unpack) :=
    rfl
  have hsum : UnpackedFloat.add Format.binary32 (.infinity s) (number t n f) = .infinity s := by
    rcases Nat.eq_zero_or_pos n with rfl | hn
    · rfl
    · rw [number_of_pos hn]
      rfl
  rw [hx, huy, hsum] at hz
  exact hz.infinite

theorem IsInfinite.finite_add (hx : x.isFinite) (hy : IsInfinite s y) : IsInfinite s (x + y) := by
  obtain ⟨t, n, f, -, -, hux⟩ := finite_cases hx
  have hz : Written (x + y) (UnpackedFloat.add Format.binary32 x.toModel.unpack y.toModel.unpack) :=
    rfl
  have hsum : UnpackedFloat.add Format.binary32 (number t n f) (.infinity s) = .infinity s := by
    rcases Nat.eq_zero_or_pos n with rfl | hn
    · rfl
    · rw [number_of_pos hn]
      rfl
  rw [hy, hux, hsum] at hz
  exact hz.infinite

theorem IsInfinite.add (hx : IsInfinite s x) (hy : IsInfinite s y) : IsInfinite s (x + y) := by
  have hz : Written (x + y) (UnpackedFloat.add Format.binary32 x.toModel.unpack y.toModel.unpack) :=
    rfl
  have hsum : UnpackedFloat.add Format.binary32 (.infinity s) (.infinity s) = .infinity s := by
    cases s <;> rfl
  rw [hx, hy, hsum] at hz
  exact hz.infinite

theorem IsInfinite.sqrt (hx : IsInfinite .positive x) : IsInfinite .positive x.sqrt := by
  have hz : Written x.sqrt (UnpackedFloat.sqrt Format.binary32 x.toModel.unpack) := rfl
  rw [hx] at hz
  exact hz.infinite

theorem isFinite_zero : (0 : Float32).isFinite := by decide +kernel

theorem value_zero : value 0 = 0 := by
  have hbits : (0 : Float32).toBits = 0 := by decide +kernel
  obtain ⟨-, hv⟩ := value_of_toBits (s := .positive) (m := 0) (e := 0) hbits rfl
  rw [hv, Nat.cast_zero, zero_mul, mul_zero]

theorem IsInfinite.zero_lt (hx : IsInfinite .positive x) : 0 < x := by
  obtain ⟨t, n, f, -, -, hu⟩ := finite_cases isFinite_zero
  have h : 0 < x ↔ (UnpackedFloat.compare (0 : Float32).toModel.unpack x.toModel.unpack ==
      some .lt) = true := decide_eq_true_iff
  rw [h, hx, hu]
  rcases Nat.eq_zero_or_pos n with rfl | hn
  · rfl
  · rw [number_of_pos hn]
    rfl

theorem finite_or_infinite_of_pos (h : 0 < x) : x.isFinite ∨ IsInfinite .positive x := by
  refine (special_or_finite x).symm.imp_right fun hx => ?_
  have hzero : (0 : Float32).toModel.unpack = .zero .positive := rfl
  have hiff : 0 < x ↔ (UnpackedFloat.compare (0 : Float32).toModel.unpack x.toModel.unpack ==
      some .lt) = true := decide_eq_true_iff
  have hlt := hiff.1 h
  rw [hzero] at hlt
  rcases hx with hx | ⟨s, hx⟩
  · rw [hx] at hlt
    cases hlt
  · cases s with
    | positive => exact hx
    | negative =>
      rw [hx] at hlt
      cases hlt

theorem IsInfinite.not_le (hx : IsInfinite .positive x) (hy : y.isFinite) : ¬ x ≤ y := by
  obtain ⟨t, n, f, -, -, hu⟩ := finite_cases hy
  have h : x ≤ y ↔
      ((UnpackedFloat.compare x.toModel.unpack y.toModel.unpack).any (·.isLE)) = true :=
    decide_eq_true_iff
  rw [h, hx, hu]
  rcases Nat.eq_zero_or_pos n with rfl | hn
  · exact Bool.noConfusion
  · rw [number_of_pos hn]
    exact Bool.noConfusion

theorem Nears.value_eq_zero (h : Nears 0 x) : value x = 0 :=
  le_antisymm (h.nonpos le_rfl) (h.nonneg le_rfl)

theorem Rounds.nears_of_lt {v : ℝ} (h : Rounds v x) (hv : |v| + slack v < 2 ^ 128) :
    Nears v x := by
  refine h.resolve_right ?_
  rintro ⟨s, -, hbig⟩
  unfold limit at hbig
  have hside : signed s * v ≤ |v| := by
    refine (le_abs_self _).trans_eq ?_
    rw [abs_mul, abs_signed, one_mul]
  linarith

theorem slack_le (v : ℝ) : slack v ≤ |v| / 2 ^ 24 + 1 / 2 ^ 150 := by
  have hv : 0 ≤ |v| / 2 ^ 24 := by positivity
  have htiny : (0 : ℝ) ≤ 1 / 2 ^ 150 := by positivity
  exact max_le (by linarith) (by linarith)

theorem Rounds.nears {v : ℝ} (h : Rounds v x) (hv : |v| ≤ 2 ^ 127) : Nears v x := by
  refine h.nears_of_lt ?_
  have hslack := slack_le v
  norm_num at hv hslack ⊢
  linarith

theorem Rounds.nears_or_infinite {v : ℝ} (h : Rounds v x) (hv : 0 ≤ v) :
    Nears v x ∨ IsInfinite .positive x ∧ 2 ^ 127 ≤ v := by
  refine h.imp_right ?_
  rintro ⟨s, hs, hbig⟩
  have hslack := slack_le v
  unfold limit at hbig
  rw [abs_of_nonneg hv] at hslack
  cases s with
  | positive =>
    rw [signed_positive] at hbig
    refine ⟨hs, ?_⟩
    norm_num at hbig hslack ⊢
    linarith
  | negative =>
    rw [signed_negative] at hbig
    norm_num at hbig hslack
    linarith

theorem IsInfinite.div_eq_zero (hx : x.isFinite) (hy : IsInfinite s y) :
    (x / y).isFinite ∧ value (x / y) = 0 := by
  obtain ⟨t, n, f, -, -, hux⟩ := finite_cases hx
  have hz : Written (x / y) (UnpackedFloat.div Format.binary32 x.toModel.unpack y.toModel.unpack) :=
    rfl
  have hquot : UnpackedFloat.div Format.binary32 (number t n f) (.infinity s) = .zero (t / s) := by
    rcases Nat.eq_zero_or_pos n with rfl | hn
    · rfl
    · rw [number_of_pos hn]
      rfl
  rw [hy, hux, hquot] at hz
  have hnear := (rounds_zero hz).nears (by rw [abs_zero]; positivity)
  exact ⟨hnear.finite, hnear.value_eq_zero⟩

end Infinite

section Bounds

theorem value_add_zero (hx : x.isFinite) (hy : y.isFinite) (h0 : value y = 0) :
    (x + y).isFinite ∧ value (x + y) = value x := by
  obtain ⟨s, m, e, hfull, he, hux⟩ := finite_cases hx
  obtain ⟨t, n, f, -, -, huy⟩ := finite_cases hy
  obtain rfl : n = 0 := by
    rw [value_eq huy, ← abs_eq_zero, abs_mul, abs_signed, one_mul, abs_eq_zero] at h0
    rcases mul_eq_zero.1 h0 with h | h
    · exact_mod_cast h
    · exact absurd h (zpow_pos two_pos f).ne'
  have hz : Written (x + y) (UnpackedFloat.add Format.binary32 x.toModel.unpack y.toModel.unpack) :=
    rfl
  obtain ⟨u, hu, hval⟩ := add_number_zero s t m e f
  rw [hux, huy, hu, Written, pack_number hfull he] at hz
  have hfin : (x + y).toModel.unpack.isFinite = true := by rw [hz, isFinite_number]
  exact ⟨hfin, by rw [value_eq hz, value_eq hux, hval]⟩

theorem abs_signed_mul (s : Sign) (m : ℕ) (e : ℤ) :
    |signed s * ((m : ℝ) * 2 ^ e)| = m * 2 ^ e := by
  rw [abs_mul, abs_signed, one_mul, abs_of_nonneg (by positivity)]

theorem abs_le_iff {c : Float32} (hc : c.isFinite) :
    x.abs ≤ c ↔ x.isFinite ∧ |value x| ≤ value c := by
  have hz : Written x.abs x.toModel.unpack.abs := rfl
  rcases special_or_finite x with hx | hx
  · refine iff_of_false (fun hle => ?_) fun h => hx.not_finite h.1
    obtain ⟨t, n, f, -, -, huc⟩ := finite_cases hc
    have h : x.abs ≤ c ↔ ((UnpackedFloat.compare x.abs.toModel.unpack c.toModel.unpack).any
        (·.isLE)) = true := decide_eq_true_iff
    rw [h, huc] at hle
    rcases hx with hx | ⟨s, hx⟩
    · have habs : x.abs.toModel.unpack = .notANumber := by
        rw [hz, hx]
        exact unpack_packComponents .positive (-1#8) (1#23 <<< 22)
      rw [habs] at hle
      cases hle
    · have habs : x.abs.toModel.unpack = .infinity .positive := by
        rw [hz, hx]
        exact unpack_pack_infinity .positive
      rw [habs] at hle
      rcases Nat.eq_zero_or_pos n with rfl | hn
      · cases hle
      · rw [number_of_pos hn] at hle
        cases hle
  · obtain ⟨s, m, e, hfull, he, hux⟩ := finite_cases hx
    have habs : (number s m e).abs = number .positive m e := by
      rcases Nat.eq_zero_or_pos m with rfl | hm
      · rfl
      · rw [number_of_pos hm]
        exact (number_of_pos hm).symm
    rw [hux, habs, Written, pack_number hfull he] at hz
    have hfin : x.abs.toModel.unpack.isFinite = true := by rw [hz, isFinite_number]
    rw [le_iff hfin hc, value_eq hz, value_eq hux, abs_signed_mul, signed_positive]
    exact (and_iff_right hx).symm

theorem abs_value_lt (hx : x.isFinite) : |value x| < 2 ^ 128 := by
  obtain ⟨s, m, e, hfull, he, hux⟩ := finite_cases hx
  have hm : (m : ℝ) < 2 ^ 24 := by exact_mod_cast hfull.1
  have hpow : (2 : ℝ) ^ e ≤ 2 ^ (104 : ℤ) := zpow_le_zpow_right₀ one_le_two he
  rw [value_eq hux, abs_signed_mul]
  calc (m : ℝ) * 2 ^ e ≤ m * 2 ^ (104 : ℤ) := by gcongr
    _ < 2 ^ 24 * 2 ^ (104 : ℤ) := by gcongr
    _ = 2 ^ 128 := by norm_cast

theorem next_le {m n : ℕ} {e f : ℤ} (hm : IsFull m e) (hn : IsFull n f)
    (h : (m : ℝ) * 2 ^ e < n * 2 ^ f) : ((m : ℝ) + 1) * 2 ^ e ≤ n * 2 ^ f := by
  have hef : e ≤ f := by
    by_contra hc
    exact lt_asymm h (mul_two_zpow_lt hn hm (not_le.1 hc))
  obtain ⟨k, rfl⟩ : ∃ k : ℕ, f = e + k := ⟨(f - e).toNat, by omega⟩
  have hp : (0 : ℝ) < 2 ^ e := zpow_pos two_pos e
  have hshift : (n : ℝ) * 2 ^ (e + (k : ℤ)) = ((n * 2 ^ k : ℕ) : ℝ) * 2 ^ e := by
    rw [zpow_add₀ two_ne_zero, zpow_natCast]
    push_cast
    ring
  rw [hshift] at h ⊢
  have hlt : m < n * 2 ^ k := by exact_mod_cast lt_of_mul_lt_mul_right h hp.le
  gcongr
  exact_mod_cast hlt

/-- What is rounded stays within a bound that it is over by less than it is off. -/
theorem Nears.abs_le {v : ℝ} {m : ℕ} {e : ℤ} (h : Nears v x) (hm : IsFull m e)
    (hv : |v| + slack v < ((m : ℝ) + 1) * 2 ^ e) : |value x| ≤ m * 2 ^ e := by
  obtain ⟨s, n, f, hn, -, hux⟩ := finite_cases h.finite
  have hclose : |value x| ≤ |v| + slack v := by
    have htri := abs_sub_abs_le_abs_sub (value x) v
    linarith [h.close]
  by_contra hc
  rw [value_eq hux, abs_signed_mul] at hc hclose
  linarith [next_le hm hn (not_le.1 hc)]

end Bounds

end Fieldwatch.Single
