import Fieldwatch.Proofs.Number.Order
import Fieldwatch.Player

/-! The direction that is made of a vector. Where the square length is a number that is not too
small, it has length one up to rounding and points the same way; where the square length is too
large for single precision, it is zero. -/

namespace Fieldwatch

open Single Float.Model.UnpackedFloat

namespace Single

variable {v : ℝ} {z : Float32}

theorem Nears.close_le (h : Nears v z) : |value z - v| ≤ |v| / 2 ^ 24 + 1 / 2 ^ 150 :=
  h.close.trans (slack_le v)

theorem Nears.relative (h : Nears v z) (hv : 1 / 2 ^ 100 ≤ v) : |value z - v| ≤ v / 2 ^ 23 := by
  have hclose := h.close_le
  rw [abs_of_nonneg (le_trans (by positivity) hv)] at hclose
  norm_num at hclose hv ⊢
  linarith

end Single

namespace Vec2

variable {d : Vec2}

noncomputable def square (d : Vec2) : ℝ := value d.x * value d.x + value d.y * value d.y

theorem square_nonneg (d : Vec2) : 0 ≤ d.square :=
  add_nonneg (mul_self_nonneg _) (mul_self_nonneg _)

theorem isFinite_iff : d.isFinite ↔ d.x.isFinite ∧ d.y.isFinite := Bool.and_eq_true_iff

theorem lengthSq_cases (hd : d.isFinite) :
    (d.lengthSq.isFinite ∧ 0 ≤ value d.lengthSq ∧
      |value d.lengthSq - d.square| ≤ d.square / 2 ^ 22 + 1 / 2 ^ 147) ∨
    IsInfinite .positive d.lengthSq ∧ 2 ^ 126 ≤ d.square := by
  obtain ⟨hx, hy⟩ := isFinite_iff.1 hd
  have ha : 0 ≤ value d.x * value d.x := mul_self_nonneg _
  have hb : 0 ≤ value d.y * value d.y := mul_self_nonneg _
  rcases (rounds_mul hx hx).nears_or_infinite ha with hA | ⟨hA, hbig⟩
  · rcases (rounds_mul hy hy).nears_or_infinite hb with hB | ⟨hB, hbig⟩
    · have hA0 := hA.nonneg ha
      have hB0 := hB.nonneg hb
      have hA' := abs_le.1 hA.close_le
      have hB' := abs_le.1 hB.close_le
      rw [abs_of_nonneg ha] at hA'
      rw [abs_of_nonneg hb] at hB'
      rcases (rounds_add hA.finite hB.finite).nears_or_infinite (add_nonneg hA0 hB0) with
        hQ | ⟨hQ, hbig⟩
      · have hQ' := abs_le.1 hQ.close_le
        rw [abs_of_nonneg (add_nonneg hA0 hB0)] at hQ'
        refine .inl ⟨hQ.finite, hQ.nonneg (add_nonneg hA0 hB0), abs_le.2 ?_⟩
        unfold square lengthSq
        norm_num at hA' hB' hQ' ⊢
        constructor <;> linarith
      · refine .inr ⟨hQ, ?_⟩
        unfold square
        norm_num at hA' hB' hbig ⊢
        linarith
    · refine .inr ⟨hB.finite_add hA.finite, ?_⟩
      unfold square
      norm_num at hbig ⊢
      linarith
  · refine .inr ⟨?_, ?_⟩
    · rcases (rounds_mul hy hy).nears_or_infinite hb with hB | ⟨hB, -⟩
      · exact hA.add_finite hB.finite
      · exact hA.add hB
    · unfold square
      norm_num at hbig ⊢
      linarith

noncomputable def threshold : ℝ := (1 / 2 ^ 20 : ℚ)

theorem threshold_le {c : Float32} (hc : c.isFinite ∧ threshold ≤ value c)
    (hq : ¬ d.lengthSq < c) (hfin : d.lengthSq.isFinite) : threshold ≤ value d.lengthSq := by
  rw [lt_iff hfin hc.1, not_lt] at hq
  exact hc.2.trans hq

theorem lengthSq_near (hd : d.isFinite) (hq : d.lengthSq.isFinite)
    (hlow : threshold ≤ value d.lengthSq) : |value d.lengthSq - d.square| ≤ d.square / 2 ^ 21 := by
  rcases lengthSq_cases hd with ⟨-, -, hnear⟩ | ⟨hinf, -⟩
  · rw [abs_le] at hnear ⊢
    unfold threshold at hlow
    norm_num at hnear hlow ⊢
    constructor <;> linarith
  · exact absurd hq hinf.not_finite

theorem length_near (hd : d.isFinite) (hq : d.lengthSq.isFinite)
    (hlow : threshold ≤ value d.lengthSq) : d.length.isFinite ∧ 0 < value d.length ∧
      |value d.length * value d.length - d.square| ≤ d.square / 2 ^ 19 := by
  have hsq := lengthSq_near hd hq hlow
  have hsize := (abs_lt.1 (abs_value_lt hq)).2
  unfold threshold at hlow
  have h0 : 0 ≤ value d.lengthSq := le_trans (by positivity) hlow
  have hmul := Real.mul_self_sqrt h0
  have hroot : 1 / 2 ^ 10 ≤ √(value d.lengthSq) := by
    refine Real.le_sqrt_of_sq_le ?_
    norm_num at hlow ⊢
    exact hlow
  have hbig : √(value d.lengthSq) ≤ 2 ^ 64 := by
    refine Real.sqrt_le_iff.2 ⟨by positivity, ?_⟩
    norm_num at hsize ⊢
    exact hsize.le
  have hround : Rounds √(value d.lengthSq) d.length := rounds_sqrt hq h0
  set r := √(value d.lengthSq)
  have hr0 : 0 ≤ r := le_trans (by positivity) hroot
  have hnear : Nears r d.length := hround.nears (by
    rw [abs_of_nonneg hr0]
    exact hbig.trans (by norm_num))
  have hrel : |value d.length - r| ≤ r / 2 ^ 23 :=
    hnear.relative (le_trans (by norm_num) hroot)
  have hlow' : r / 2 ≤ value d.length := by linarith [(abs_le.1 hrel).1]
  have hhigh : value d.length ≤ 2 * r := by linarith [(abs_le.1 hrel).2]
  have hdiff : |value d.length * value d.length - r * r| ≤ 3 * (r * r) / 2 ^ 23 := by
    calc |value d.length * value d.length - r * r|
        = |value d.length - r| * |value d.length + r| := by rw [← abs_mul]; ring_nf
      _ ≤ r / 2 ^ 23 * (3 * r) := by
          gcongr
          rw [abs_of_nonneg (by linarith)]
          linarith
      _ = 3 * (r * r) / 2 ^ 23 := by ring
  refine ⟨hnear.finite, by linarith [show (0 : ℝ) < 1 / 2 ^ 10 by positivity], ?_⟩
  rw [hmul] at hdiff
  rw [abs_le] at hdiff hsq ⊢
  constructor <;> linarith

theorem quotient_near {c l : Float32} (hc : c.isFinite) (hl : l.isFinite) (hpos : 0 < value l)
    (hle : value c * value c ≤ 2 * (value l * value l)) :
    Nears (value c / value l) (c / l) ∧
      |value (c / l) * value (c / l) - value c / value l * (value c / value l)| ≤ 1 / 2 ^ 20 := by
  have hround := rounds_div hc hl hpos.ne'
  set u := value c / value l with hu
  have hsq : u * u ≤ 2 := by
    rw [hu, div_mul_div_comm, div_le_iff₀ (mul_pos hpos hpos)]
    exact hle
  have habs : |u| ≤ 3 / 2 := abs_le_of_sq_le_sq (by nlinarith) (by norm_num)
  have hnear : Nears u (c / l) := hround.nears (habs.trans (by norm_num))
  have hclose : |value (c / l) - u| ≤ 1 / 2 ^ 23 := by
    have := hnear.close_le
    norm_num at this ⊢
    linarith
  have hsum : |value (c / l) + u| ≤ 4 := by
    rw [abs_le] at hclose habs ⊢
    norm_num at hclose
    constructor <;> linarith
  refine ⟨hnear, ?_⟩
  calc |value (c / l) * value (c / l) - u * u|
      = |value (c / l) - u| * |value (c / l) + u| := by rw [← abs_mul]; ring_nf
    _ ≤ 1 / 2 ^ 23 * 4 := by gcongr
    _ ≤ 1 / 2 ^ 20 := by norm_num

theorem normalize_eq (hl : d.length.isFinite) (hpos : 0 < value d.length) :
    d.normalize = ⟨d.x / d.length, d.y / d.length⟩ := by
  have h : 0 < d.length := (lt_iff isFinite_zero hl).2 (by rwa [value_zero])
  exact if_pos h

structure IsUnit (n : Vec2) : Prop where
  finite : n.isFinite
  near : |n.square - 1| ≤ 1 / 2 ^ 17

/-- `n` points the way of `d`: no coordinate has the other sign. -/
structure Follows (d n : Vec2) : Prop where
  right : 0 ≤ d.x → 0 ≤ n.x
  left : d.x ≤ 0 → n.x ≤ 0
  down : 0 ≤ d.y → 0 ≤ n.y
  up : d.y ≤ 0 → n.y ≤ 0

theorem isUnit_normalize (hd : d.isFinite) (hq : d.lengthSq.isFinite)
    (hlow : threshold ≤ value d.lengthSq) : d.normalize.IsUnit ∧ d.Follows d.normalize := by
  obtain ⟨hx, hy⟩ := isFinite_iff.1 hd
  obtain ⟨hl, hpos, hlen⟩ := length_near hd hq hlow
  have hll : 0 < value d.length * value d.length := mul_pos hpos hpos
  have hsq : d.square ≤ 2 * (value d.length * value d.length) := by
    have := (abs_le.1 hlen).1
    linarith [d.square_nonneg]
  have hx0 := mul_self_nonneg (value d.x)
  have hy0 := mul_self_nonneg (value d.y)
  obtain ⟨hnx, hxx⟩ := quotient_near hx hl hpos (by unfold square at hsq; linarith)
  obtain ⟨hny, hyy⟩ := quotient_near hy hl hpos (by unfold square at hsq; linarith)
  have hratio : |d.square / (value d.length * value d.length) - 1| ≤ 1 / 2 ^ 18 := by
    rw [div_sub_one hll.ne', abs_div, abs_of_pos hll, div_le_iff₀ hll, abs_sub_comm]
    linarith
  have hsplit : d.square / (value d.length * value d.length) =
      value d.x / value d.length * (value d.x / value d.length) +
        value d.y / value d.length * (value d.y / value d.length) := by
    unfold square
    rw [div_mul_div_comm, div_mul_div_comm, ← add_div]
  rw [normalize_eq hl hpos]
  refine ⟨⟨isFinite_iff.2 ⟨hnx.finite, hny.finite⟩, ?_⟩, ?_⟩
  · rw [hsplit] at hratio
    unfold square
    rw [abs_le] at hxx hyy hratio ⊢
    constructor <;> linarith
  · have hside : ∀ {c : Float32}, c.isFinite → Nears (value c / value d.length) (c / d.length) →
        (0 ≤ c → 0 ≤ c / d.length) ∧ (c ≤ 0 → c / d.length ≤ 0) := by
      intro c hc hn
      rw [le_iff isFinite_zero hc, le_iff isFinite_zero hn.finite, le_iff hc isFinite_zero,
        le_iff hn.finite isFinite_zero, value_zero]
      exact ⟨fun h => hn.nonneg (div_nonneg h hpos.le),
        fun h => hn.nonpos (div_nonpos_of_nonpos_of_nonneg h hpos.le)⟩
    exact ⟨(hside hx hnx).1, (hside hx hnx).2, (hside hy hny).1, (hside hy hny).2⟩

theorem IsUnit.length (h : d.IsUnit) : 0.99 ≤ d.length ∧ d.length ≤ 1.01 := by
  have hsq := abs_le.1 h.near
  have hq : d.lengthSq.isFinite ∧ threshold ≤ value d.lengthSq := by
    unfold threshold
    rcases lengthSq_cases h.finite with ⟨hq, -, hnear⟩ | ⟨-, hbig⟩
    · have hlow := (abs_le.1 hnear).1
      norm_num at hlow hsq ⊢
      exact ⟨hq, by linarith⟩
    · norm_num at hbig hsq
      linarith
  obtain ⟨hl, hpos, hlen⟩ := length_near h.finite hq.1 hq.2
  have hlen' := abs_le.1 hlen
  have hlowBits : (0.99 : Float32).toBits = 0x3f7d70a4 := by decide +kernel
  have hhighBits : (1.01 : Float32).toBits = 0x3f8147ae := by decide +kernel
  obtain ⟨hf, hv⟩ := value_of_toBits (s := .positive) (m := 16609444) (e := -24) hlowBits rfl
  obtain ⟨hf', hv'⟩ := value_of_toBits (s := .positive) (m := 8472494) (e := -23) hhighBits rfl
  rw [le_iff hf hl, le_iff hl hf', hv, hv']
  norm_num at hsq hlen' ⊢
  constructor <;> nlinarith

theorem beq_iff {a b : Vec2} (ha : a.isFinite) (hb : b.isFinite) :
    (a == b) = true ↔ value a.x = value b.x ∧ value a.y = value b.y := by
  obtain ⟨hax, hay⟩ := isFinite_iff.1 ha
  obtain ⟨hbx, hby⟩ := isFinite_iff.1 hb
  rw [← Single.beq_iff hax hbx, ← Single.beq_iff hay hby]
  exact Bool.and_eq_true_iff

structure IsNull (n : Vec2) : Prop where
  finite : n.isFinite
  x : value n.x = 0
  y : value n.y = 0

theorem isNull_zero : IsNull zero :=
  ⟨isFinite_iff.2 ⟨isFinite_zero, isFinite_zero⟩, value_zero, value_zero⟩

theorem beq_zero_iff (hd : d.isFinite) : (d == zero) = true ↔ d.IsNull := by
  rw [beq_iff hd isNull_zero.finite, isNull_zero.x, isNull_zero.y]
  exact ⟨fun h => ⟨hd, h.1, h.2⟩, fun h => ⟨h.x, h.y⟩⟩

theorem IsUnit.ne_zero (h : d.IsUnit) : ¬ (d == zero) = true := by
  rw [beq_zero_iff h.finite]
  intro hz
  have hnear := abs_le.1 h.near
  have hsq : d.square = 0 := by rw [square, hz.x, hz.y, mul_zero, add_zero]
  rw [hsq] at hnear
  norm_num at hnear

theorem isNull_normalize (hd : d.isFinite) (hq : ¬ d.lengthSq.isFinite) : d.normalize.IsNull := by
  obtain ⟨hx, hy⟩ := isFinite_iff.1 hd
  have hinf : IsInfinite .positive d.length := by
    rcases lengthSq_cases hd with ⟨hfin, -⟩ | ⟨hinf, -⟩
    · exact absurd hfin hq
    · exact hinf.sqrt
  have hn : d.normalize = ⟨d.x / d.length, d.y / d.length⟩ := if_pos hinf.zero_lt
  obtain ⟨hnx, hx0⟩ := hinf.div_eq_zero hx
  obtain ⟨hny, hy0⟩ := hinf.div_eq_zero hy
  rw [hn]
  exact ⟨isFinite_iff.2 ⟨hnx, hny⟩, hx0, hy0⟩

end Vec2
end Fieldwatch
