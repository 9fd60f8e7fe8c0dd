import Fieldwatch.Proofs.Number.Directions

/-! How far points get by short steps. A step adds to a coordinate, and the sum is rounded; near the
bound of single precision a short step is less than half the way to the next number, so that it
takes no point out of reach, however often it is taken. -/

namespace Fieldwatch

open Single Float.Model.UnpackedFloat

namespace Vec2

def reach : Float32 := 1e38

def stride : Float32 := 1e30

structure InReach (p : Vec2) : Prop where
  x : p.x.abs ≤ reach
  y : p.y.abs ≤ reach

theorem value_reach : reach.isFinite ∧ value reach = 9860761 * 2 ^ (103 : ℤ) := by
  have hbits : reach.toBits = 0x7e967699 := by decide +kernel
  obtain ⟨hf, hv⟩ := value_of_toBits (s := .positive) (m := 9860761) (e := 103) hbits rfl
  refine ⟨hf, ?_⟩
  rw [hv, signed_positive]
  norm_num

theorem value_stride : stride.isFinite ∧ value stride = 13234890 * 2 ^ (76 : ℤ) := by
  have hbits : stride.toBits = 0x7149f2ca := by decide +kernel
  obtain ⟨hf, hv⟩ := value_of_toBits (s := .positive) (m := 13234890) (e := 76) hbits rfl
  refine ⟨hf, ?_⟩
  rw [hv, signed_positive]
  norm_num

variable {p q n d : Vec2}

theorem InReach.isFinite (h : p.InReach) : p.isFinite :=
  isFinite_iff.2 ⟨((abs_le_iff value_reach.1).1 h.x).1, ((abs_le_iff value_reach.1).1 h.y).1⟩

structure IsModest (n : Vec2) : Prop where
  finite : n.isFinite
  x : |value n.x| ≤ 2
  y : |value n.y| ≤ 2

theorem IsUnit.isModest (h : n.IsUnit) : n.IsModest := by
  have hsq := (abs_le.1 h.near).2
  have hx := mul_self_nonneg (value n.x)
  have hy := mul_self_nonneg (value n.y)
  unfold square at hsq
  norm_num at hsq
  refine ⟨h.finite, abs_le_of_sq_le_sq ?_ (by norm_num), abs_le_of_sq_le_sq ?_ (by norm_num)⟩ <;>
    nlinarith

theorem IsNull.isModest (h : n.IsNull) : n.IsModest :=
  ⟨h.finite, by rw [h.x, abs_zero]; norm_num, by rw [h.y, abs_zero]; norm_num⟩

theorem isModest_normalize (hd : d.isFinite) {c : Float32} (hc : c.isFinite ∧ threshold ≤ value c)
    (hq : ¬ d.lengthSq < c) : d.normalize.IsModest := by
  by_cases hfin : d.lengthSq.isFinite
  · exact (isUnit_normalize hd hfin (threshold_le hc hq hfin)).1.isModest
  · exact (isNull_normalize hd hfin).isModest

/-- A short step from a coordinate in reach does not get past the bound: it is lost in rounding. -/
theorem abs_add_le_reach {a c k : Float32} (ha : a.abs ≤ reach) (hc : c.isFinite)
    (hc2 : |value c| ≤ 2) (hk : k.abs ≤ stride) : (a + c * k).abs ≤ reach := by
  obtain ⟨hr, hrv⟩ := value_reach
  obtain ⟨hs, hsv⟩ := value_stride
  obtain ⟨haf, hav⟩ := (abs_le_iff hr).1 ha
  obtain ⟨hkf, hkv⟩ := (abs_le_iff hs).1 hk
  rw [hsv] at hkv
  have hprod : |value c * value k| ≤ 2 * (13234890 * 2 ^ (76 : ℤ)) := by
    rw [abs_mul]
    exact mul_le_mul hc2 hkv (abs_nonneg _) (by norm_num)
  have hnear : Nears (value c * value k) (c * k) :=
    (rounds_mul hc hkf).nears (hprod.trans (by norm_num))
  have hstep : |value (c * k)| ≤ 2 ^ 101 := by
    have htri := abs_sub_abs_le_abs_sub (value (c * k)) (value c * value k)
    have hclose := hnear.close_le
    generalize value c * value k = v at hprod htri hclose
    norm_num at hprod hclose ⊢
    linarith
  rw [hrv] at hav
  have hsum : |value a + value (c * k)| ≤ 9860761 * 2 ^ (103 : ℤ) + 2 ^ 101 :=
    (abs_add_le _ _).trans (add_le_add hav hstep)
  have hslack := slack_le (value a + value (c * k))
  have hover : |value a + value (c * k)| + slack (value a + value (c * k)) <
      (9860761 + 1) * 2 ^ (103 : ℤ) := by
    norm_num at hsum hslack ⊢
    linarith
  have hround : Nears (value a + value (c * k)) (a + c * k) :=
    (rounds_add haf hnear.finite).nears_of_lt (hover.trans (by norm_num))
  have hfull : IsFull 9860761 103 := ⟨by norm_num, by norm_num, .inl (by norm_num)⟩
  have hle := hround.abs_le hfull (by exact_mod_cast hover)
  rw [abs_le_iff hr, hrv]
  exact ⟨hround.finite, by exact_mod_cast hle⟩

theorem InReach.step (hp : p.InReach) (hd : d.IsModest) {k : Float32} (hk : k.abs ≤ stride) :
    (p + d.scale k).InReach := by
  obtain ⟨hdx, hdy⟩ := isFinite_iff.1 hd.finite
  exact ⟨abs_add_le_reach hp.x hdx hd.x hk, abs_add_le_reach hp.y hdy hd.y hk⟩

theorem isFinite_sub_of_reach {a b : Float32} (ha : a.abs ≤ reach) (hb : b.abs ≤ reach) :
    (a - b).isFinite := by
  obtain ⟨hr, hrv⟩ := value_reach
  obtain ⟨haf, hav⟩ := (abs_le_iff hr).1 ha
  obtain ⟨hbf, hbv⟩ := (abs_le_iff hr).1 hb
  rw [hrv] at hav hbv
  have hdiff : |value a - value b| ≤ 2 * (9860761 * 2 ^ (103 : ℤ)) := by
    refine (abs_sub _ _).trans ?_
    linarith
  have hslack := slack_le (value a - value b)
  refine ((rounds_sub haf hbf).nears_of_lt ?_).finite
  norm_num at hdiff hslack ⊢
  linarith

theorem InReach.isFinite_sub (hp : p.InReach) (hq : q.InReach) : (p - q).isFinite :=
  isFinite_iff.2 ⟨isFinite_sub_of_reach hp.x hq.x, isFinite_sub_of_reach hp.y hq.y⟩

end Vec2
end Fieldwatch
