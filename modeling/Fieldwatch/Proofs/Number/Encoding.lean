import Fieldwatch.Proofs.Number.Mantissa

/-! The bits of single precision, and the numbers that they stand for. What an operation has rounded
is written down and read back as it is, unless it is too large and becomes infinite. -/

namespace Fieldwatch.Single

open Float.Model Float.Model.UnpackedFloat

def ofFields (s : Sign) (exponent : BitVec 8) (mantissa : BitVec 23) : UnpackedFloat :=
  if exponent = -1#8 then if mantissa = 0#23 then .infinity s else .notANumber
  else if exponent = 0#8 then number s mantissa.toNat (-149)
  else number s (2 ^ 23 + mantissa.toNat) (exponent.toNat - 150)

theorem toNat_append_one (m : BitVec 23) : (1#1 ++ m).toNat = 2 ^ 23 + m.toNat := by
  rw [BitVec.toNat_append, ← Nat.shiftLeft_add_eq_or_of_lt m.isLt]
  rfl

theorem unpack_eq_ofFields (b : BitVec 32) : unpack Format.binary32 b =
    ofFields (Sign.ofBitVec (@unpackSign Format.binary32 b)) (@unpackExponent Format.binary32 b)
      (@unpackMantissa Format.binary32 b) := by
  set exponent : BitVec 8 := @unpackExponent Format.binary32 b
  set mantissa : BitVec 23 := @unpackMantissa Format.binary32 b
  set s := Sign.ofBitVec (@unpackSign Format.binary32 b)
  have hunfold : unpack Format.binary32 b =
      if exponent = -1#8 then if mantissa = 0#23 then .infinity s else .notANumber
      else if exponent = 0#8 then
        if h : mantissa = 0#23 then .zero s
        else .finite s mantissa.toNat (((exponent.toNat : ℤ) - 150) + 1)
          (Nat.pos_of_ne_zero fun hz => h (BitVec.eq_of_toNat_eq hz))
      else .finite s (1#1 ++ mantissa).toNat ((exponent.toNat : ℤ) - 150)
        (by rw [toNat_append_one]; positivity) := rfl
  rw [hunfold, ofFields]
  by_cases h1 : exponent = -1#8
  · rw [if_pos h1, if_pos h1]
  by_cases h0 : exponent = 0#8
  · rw [if_neg h1, if_neg h1, if_pos h0, if_pos h0]
    by_cases hm : mantissa = 0#23
    · rw [dif_pos hm, hm]
      rfl
    · have hpos : 0 < mantissa.toNat := Nat.pos_of_ne_zero fun hz => hm (BitVec.eq_of_toNat_eq hz)
      rw [dif_neg hm, number_of_pos hpos, h0]
      rfl
  · rw [if_neg h1, if_neg h1, if_neg h0, if_neg h0, number_of_pos (by positivity)]
    congr 1
    exact toNat_append_one mantissa

theorem unpackSign_packComponents (s : Sign) (exponent : BitVec 8) (mantissa : BitVec 23) :
    unpackSign (packComponents Format.binary32 s exponent mantissa) = s.toBitVec := by
  change (s.toBitVec ++ exponent ++ mantissa).extractLsb' 31 1 = s.toBitVec
  rw [BitVec.extractLsb'_append_eq_of_le (by decide),
    BitVec.extractLsb'_append_eq_of_le (by decide)]
  cases s <;> rfl

theorem unpack_packComponents (s : Sign) (exponent : BitVec 8) (mantissa : BitVec 23) :
    unpack Format.binary32 (packComponents Format.binary32 s exponent mantissa) =
      ofFields s exponent mantissa := by
  have hs : Sign.ofBitVec s.toBitVec = s := by cases s <;> rfl
  rw [unpack_eq_ofFields, unpackSign_packComponents, hs]
  congr 1
  · exact unpackExponent_packComponents
  · exact unpackMantissa_packComponents

theorem pack_number {s : Sign} {m : ℕ} {e : ℤ} (h : IsFull m e) (he : e ≤ 104) :
    unpack Format.binary32 (pack Format.binary32 (number s m e)) = number s m e := by
  obtain ⟨hlt, hlow, hfull⟩ := h
  rcases Nat.eq_zero_or_pos m with rfl | hm
  · exact unpack_packComponents s 0#8 0#23
  have hbias : ¬ 2 ^ 8 ≤ (e + 127 + 23).toNat + 1 := by omega
  have hpack : pack Format.binary32 (.finite s m e hm) =
      if 2 ^ 8 ≤ (e + 127 + 23).toNat + 1 then packedInfinity Format.binary32 s
      else if m.log2 + 1 = 24 then
        packComponents Format.binary32 s (BitVec.ofNat 8 (e + 127 + 23).toNat) (BitVec.ofNat 23 m)
      else packComponents Format.binary32 s 0#8 (BitVec.ofNat 23 m) := rfl
  rw [number_of_pos hm, hpack, if_neg hbias]
  by_cases hbig : 2 ^ 23 ≤ m
  · have hlog : m.log2 = 23 := (Nat.log2_eq_iff hm.ne').2 ⟨hbig, hlt⟩
    have hexp : (BitVec.ofNat 8 (e + 127 + 23).toNat).toNat = (e + 127 + 23).toNat :=
      Nat.mod_eq_of_lt (by omega)
    have hman : (BitVec.ofNat 23 m).toNat = m - 2 ^ 23 := by
      change m % 2 ^ 23 = m - 2 ^ 23
      omega
    have hne1 : BitVec.ofNat 8 (e + 127 + 23).toNat ≠ -1#8 := by
      intro hc
      have h255 := congrArg BitVec.toNat hc
      rw [hexp] at h255
      change (e + 127 + 23).toNat = 255 at h255
      omega
    have hne0 : BitVec.ofNat 8 (e + 127 + 23).toNat ≠ 0#8 := by
      intro hc
      have h0 := congrArg BitVec.toNat hc
      rw [hexp] at h0
      change (e + 127 + 23).toNat = 0 at h0
      omega
    have hsum : 2 ^ 23 + (m - 2 ^ 23) = m := by omega
    have hcast : ((e + 127 + 23).toNat : ℤ) - 150 = e := by omega
    rw [if_pos (by rw [hlog]), unpack_packComponents, ofFields, if_neg hne1, if_neg hne0, hman,
      hexp, hsum, hcast, number_of_pos hm]
  · have hlog : m.log2 + 1 ≠ 24 := by
      have := (Nat.log2_lt hm.ne').2 (not_le.1 hbig)
      omega
    have hman : (BitVec.ofNat 23 m).toNat = m := Nat.mod_eq_of_lt (not_le.1 hbig)
    have hneq : (0#8 : BitVec 8) ≠ -1#8 := by decide
    rw [if_neg hlog, unpack_packComponents, ofFields, if_neg hneq, if_pos rfl, hman,
      hfull.resolve_left hbig, number_of_pos hm]

theorem pack_overflow {s : Sign} {m : ℕ} {e : ℤ} (hm : 0 < m) (he : 104 < e) :
    unpack Format.binary32 (pack Format.binary32 (number s m e)) = .infinity s := by
  have hbias : 2 ^ 8 ≤ (e + 127 + 23).toNat + 1 := by omega
  have hpack : pack Format.binary32 (.finite s m e hm) =
      if 2 ^ 8 ≤ (e + 127 + 23).toNat + 1 then packedInfinity Format.binary32 s
      else if m.log2 + 1 = 24 then
        packComponents Format.binary32 s (BitVec.ofNat 8 (e + 127 + 23).toNat) (BitVec.ofNat 23 m)
      else packComponents Format.binary32 s 0#8 (BitVec.ofNat 23 m) := rfl
  rw [number_of_pos hm, hpack, if_pos hbias]
  exact unpack_packComponents s (-1#8) 0#23

theorem unpack_pack_infinity (s : Sign) :
    unpack Format.binary32 (pack Format.binary32 (.infinity s)) = .infinity s :=
  unpack_packComponents s (-1#8) 0#23

theorem unpack_cases (b : BitVec 32) : unpack Format.binary32 b = .notANumber ∨
    (∃ s, unpack Format.binary32 b = .infinity s) ∨
    ∃ s m e, IsFull m e ∧ e ≤ 104 ∧ unpack Format.binary32 b = number s m e := by
  rw [unpack_eq_ofFields]
  generalize Sign.ofBitVec _ = s
  generalize unpackExponent _ = exponent
  generalize unpackMantissa _ = mantissa
  unfold ofFields
  have hman : mantissa.toNat < 2 ^ 23 := mantissa.isLt
  have hexp : exponent.toNat < 2 ^ 8 := exponent.isLt
  by_cases h1 : exponent = -1#8
  · rw [if_pos h1]
    by_cases h0 : mantissa = 0#23
    · rw [if_pos h0]
      exact .inr (.inl ⟨s, rfl⟩)
    · rw [if_neg h0]
      exact .inl rfl
  · rw [if_neg h1]
    have hne : exponent.toNat ≠ 255 := fun hc => h1 (BitVec.eq_of_toNat_eq hc)
    by_cases h0 : exponent = 0#8
    · rw [if_pos h0]
      exact .inr (.inr ⟨s, _, _, ⟨by omega, le_rfl, .inr rfl⟩, by norm_num, rfl⟩)
    · have hne0 : exponent.toNat ≠ 0 := fun hc => h0 (BitVec.eq_of_toNat_eq hc)
      rw [if_neg h0]
      exact .inr (.inr ⟨s, _, _, ⟨by omega, by omega, .inl (by omega)⟩, by omega, rfl⟩)

noncomputable def signed (s : Sign) : ℝ :=
  match s with
  | .negative => -1
  | .positive => 1

@[simp] theorem signed_positive (v : ℝ) : signed .positive * v = v := one_mul v

@[simp] theorem signed_negative (v : ℝ) : signed .negative * v = -v := neg_one_mul v

noncomputable def worth (u : UnpackedFloat) : ℝ :=
  match u with
  | .finite s m e _ => signed s * units m e
  | .infinity _ | .notANumber | .zero _ => 0

/-- The number that a float stands for; zero for those that stand for none. -/
noncomputable def value (x : Float32) : ℝ := worth x.toModel.unpack

theorem worth_number (s : Sign) (m : ℕ) (e : ℤ) :
    worth (number s m e) = signed s * (m * 2 ^ e) := by
  rcases Nat.eq_zero_or_pos m with rfl | hm
  · rw [Nat.cast_zero, zero_mul, mul_zero]
    rfl
  · rw [number_of_pos hm]
    rfl

theorem isFinite_number (s : Sign) (m : ℕ) (e : ℤ) : (number s m e).isFinite = true := by
  rcases Nat.eq_zero_or_pos m with rfl | hm
  · rfl
  · rw [number_of_pos hm]
    rfl

theorem abs_signed (s : Sign) : |signed s| = 1 := by
  cases s
  · exact (abs_neg 1).trans abs_one
  · exact abs_one

theorem signed_mul_self (s : Sign) : signed s * signed s = 1 := by
  cases s
  · exact (neg_mul_neg 1 1).trans (one_mul 1)
  · exact one_mul 1

theorem signed_mul (s t : Sign) : signed (s * t) = signed s * signed t := by
  cases s <;> cases t
  · exact ((neg_mul_neg 1 1).trans (one_mul 1)).symm
  · exact (mul_one _).symm
  · exact (one_mul _).symm
  · exact (one_mul _).symm

theorem signed_div (s t : Sign) : signed (s / t) = signed s * signed t := by
  rw [← signed_mul]
  cases s <;> cases t <;> rfl

theorem apply_eq (s : Sign) (n : ℤ) : ((s.apply n : ℤ) : ℝ) = signed s * n := by
  cases s
  · change ((-n : ℤ) : ℝ) = -1 * n
    rw [Int.cast_neg, neg_one_mul]
  · change (n : ℝ) = 1 * n
    rw [one_mul]

theorem finite_cases {x : Float32} (h : x.isFinite) :
    ∃ s m e, IsFull m e ∧ e ≤ 104 ∧ x.toModel.unpack = number s m e := by
  have hx : x.toModel.unpack.isFinite = true := h
  rcases unpack_cases x.toModel.toBits.toBitVec with hn | ⟨s, hi⟩ | hf
  · have hn' : x.toModel.unpack = .notANumber := hn
    rw [hn'] at hx
    cases hx
  · have hi' : x.toModel.unpack = .infinity s := hi
    rw [hi'] at hx
    cases hx
  · exact hf

theorem value_eq {x : Float32} {s : Sign} {m : ℕ} {e : ℤ} (h : x.toModel.unpack = number s m e) :
    value x = signed s * (m * 2 ^ e) := by rw [value, h, worth_number]

theorem signed_neg (t : Sign) : signed (-t) = -signed t := by
  cases t
  · exact (neg_neg (1 : ℝ)).symm
  · rfl

end Fieldwatch.Single
