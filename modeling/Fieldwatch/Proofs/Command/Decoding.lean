import Fieldwatch.Command
import Mathlib.Algebra.BigOperators.Group.List.Basic
import Mathlib.Algebra.Ring.Nat

/-! What bytes mean. A command is laid out as numbers of fixed sizes, one after another, and bytes
mean it exactly if they begin with what is written for it, whatever follows. Bytes that mean nothing
break off within a number, and the error says how much of it is missing; or they begin with a kind
that there is not. -/

namespace Fieldwatch

namespace Bytes

@[simp] theorem length_ofNat (n v : Nat) : (ofNat n v).length = n := by
  induction n generalizing v with
  | zero => rfl
  | succ n ih => rw [ofNat, List.length_cons, ih]

theorem toNat_ofNat (n v : Nat) : toNat (ofNat n v) = v % 256 ^ n := by
  induction n generalizing v with
  | zero => rw [Nat.pow_zero, Nat.mod_one]; rfl
  | succ n ih =>
    have hlow : (UInt8.ofNat v).toNat = v % 256 := UInt8.toNat_ofNat'
    rw [ofNat, toNat, ih, hlow, Nat.pow_succ', Nat.mod_mul]

theorem ofNat_toNat (bs : Bytes) : ofNat bs.length (toNat bs) = bs := by
  induction bs with
  | nil => rfl
  | cons b bs ih =>
    have hb : b.toNat < 256 := b.toNat_lt
    have hlow : UInt8.ofNat (toNat (b :: bs)) = b := by
      rw [← UInt8.toNat_inj, UInt8.toNat_ofNat', toNat]
      omega
    have hhigh : toNat (b :: bs) / 256 = toNat bs := by
      rw [toNat]
      omega
    rw [List.length_cons, ofNat, hlow, hhigh, ih]

theorem toNat_lt (bs : Bytes) : toNat bs < 256 ^ bs.length := by
  induction bs with
  | nil => exact Nat.one_pos
  | cons b bs ih =>
    have hb : b.toNat < 256 := b.toNat_lt
    rw [toNat, List.length_cons, Nat.pow_succ]
    omega

variable {n : Nat} {bs : Bytes}

theorem read_bind_of_lt {α : Type} (f : Nat × Bytes → Except DecodeError α) (h : bs.length < n) :
    (bs.read n >>= f) = .error (.unexpectedEnd (n - bs.length)) := by
  rw [read, if_pos h]
  rfl

theorem read_bind_of_le {α : Type} (f : Nat × Bytes → Except DecodeError α) (h : n ≤ bs.length) :
    (bs.read n >>= f) = f (toNat (bs.take n), bs.drop n) := by
  rw [read, if_neg (Nat.not_lt.2 h)]
  rfl

theorem read_bind_append {α : Type} (f : Nat × Bytes → Except DecodeError α) (n v : Nat) (r : Bytes) :
    (read n (ofNat n v ++ r) >>= f) = f (v % 256 ^ n, r) := by
  have hl := length_ofNat n v
  have hle : n ≤ (ofNat n v ++ r).length := by
    rw [List.length_append, hl]
    exact Nat.le_add_right _ _
  rw [read_bind_of_le f hle, List.take_left' hl, List.drop_left' hl, toNat_ofNat]

/-- Bytes of this length end within a number, when numbers of these sizes are read from them one
after another, and that many are missing from it. -/
def BreaksOff (sizes : List Nat) (length missing : Nat) : Prop :=
  ∃ before n after, sizes = before ++ n :: after ∧ before.sum ≤ length ∧
    length + missing = before.sum + n ∧ 0 < missing

theorem breaksOff_cons {n : Nat} {sizes : List Nat} {length missing : Nat} :
    BreaksOff (n :: sizes) length missing ↔
      (length < n ∧ missing = n - length) ∨
        n ≤ length ∧ BreaksOff sizes (length - n) missing := by
  constructor
  · rintro ⟨_ | ⟨m, before⟩, k, after, hs, hle, hsum, hpos⟩
    · obtain ⟨rfl, -⟩ := List.cons.inj hs
      rw [List.sum_nil] at hsum
      exact .inl ⟨by omega, by omega⟩
    · obtain ⟨rfl, rfl⟩ := List.cons.inj hs
      rw [List.sum_cons] at hle hsum
      exact .inr ⟨by omega, before, k, after, rfl, by omega, by omega, hpos⟩
  · rintro (⟨hlt, rfl⟩ | ⟨hle, before, k, after, rfl, hb, hsum, hpos⟩)
    · exact ⟨[], n, sizes, rfl, Nat.zero_le _, by rw [List.sum_nil]; omega, by omega⟩
    · exact ⟨n :: before, k, after, rfl, by rw [List.sum_cons]; omega,
        by rw [List.sum_cons]; omega, hpos⟩

theorem not_breaksOff_nil {length missing : Nat} : ¬ BreaksOff [] length missing := by
  rintro ⟨before, n, after, hs, -⟩
  cases before <;> cases hs

theorem exists_breaksOff_iff {sizes : List Nat} {length : Nat} :
    (∃ missing, BreaksOff sizes length missing) ↔ length < sizes.sum := by
  induction sizes generalizing length with
  | nil => exact ⟨fun ⟨_, h⟩ => (not_breaksOff_nil h).elim, fun h => (Nat.not_lt_zero _ h).elim⟩
  | cons n sizes ih =>
    simp only [breaksOff_cons, exists_or, exists_and_left, exists_eq, and_true, ih, List.sum_cons]
    omega

theorem ofNat_toUInt8 (h : bs.length = 1) : ofNat 1 (toNat bs).toUInt8.toNat = bs := by
  have hlt : toNat bs < 256 ^ 1 := h ▸ toNat_lt bs
  have hv : (toNat bs).toUInt8.toNat = toNat bs := UInt8.toNat_ofNat_of_lt' hlt
  rw [hv, ← h, ofNat_toNat]

theorem ofNat_toUInt32 (h : bs.length = 4) : ofNat 4 (toNat bs).toUInt32.toNat = bs := by
  have hlt : toNat bs < 256 ^ 4 := h ▸ toNat_lt bs
  have hv : (toNat bs).toUInt32.toNat = toNat bs := UInt32.toNat_ofNat_of_lt' hlt
  rw [hv, ← h, ofNat_toNat]

theorem ofNat_toUInt64 (h : bs.length = 8) : ofNat 8 (toNat bs).toUInt64.toNat = bs := by
  have hlt : toNat bs < 256 ^ 8 := h ▸ toNat_lt bs
  have hv : (toNat bs).toUInt64.toNat = toNat bs := UInt64.toNat_ofNat_of_lt' hlt
  rw [hv, ← h, ofNat_toNat]

end Bytes

open Bytes

/-- Bytes mean a command exactly if they begin with what is written for it. -/
structure Faithful {α : Type} (encode : α → Bytes) (decode : Bytes → Except DecodeError α) : Prop where
  decode_append (c : α) (r : Bytes) : decode (encode c ++ r) = .ok c
  isPrefix_of_decode {bs : Bytes} {c : α} (h : decode bs = .ok c) : encode c <+: bs
  decode_short {bs : Bytes} {c : α} (h : bs <+: encode c) (hne : bs ≠ encode c) :
    ∃ e, decode bs = .error e

structure LaidOut {α : Type} (sizes : List Nat) (encode : α → Bytes)
    (decode : Bytes → Except DecodeError α) : Prop where
  length_encode (c : α) : (encode c).length = sizes.sum
  decode_append (c : α) (r : Bytes) : decode (encode c ++ r) = .ok c
  exists_encode {bs : Bytes} (h : bs.length = sizes.sum) : ∃ c, encode c = bs
  decode_of_breaksOff {bs : Bytes} {missing : Nat} (h : BreaksOff sizes bs.length missing) :
    decode bs = .error (.unexpectedEnd missing)

section

variable {α : Type} {sizes : List Nat} {encode : α → Bytes}
  {decode : Bytes → Except DecodeError α} {bs : Bytes}

theorem Faithful.of_append (happend : ∀ c r, decode (encode c ++ r) = .ok c)
    (hbegins : ∀ bs c, decode bs = .ok c → encode c <+: bs) : Faithful encode decode where
  decode_append := happend
  isPrefix_of_decode {bs c} := hbegins bs c
  decode_short {bs c} h hne := by
    rcases hd : decode bs with e | d
    · exact ⟨e, rfl⟩
    · -- what the shorter bytes mean the longer ones mean as well
      obtain ⟨r, hr⟩ := (hbegins bs d hd).trans h
      obtain rfl : d = c := by
        have hc := happend c []
        rw [List.append_nil, ← hr, happend] at hc
        exact Except.ok.inj hc
      exact (hne (h.eq_of_length_le (hbegins bs d hd).length_le)).elim

namespace LaidOut

variable (h : LaidOut sizes encode decode)

include h

theorem exists_decode (hle : sizes.sum ≤ bs.length) : ∃ c r, encode c ++ r = bs ∧ decode bs = .ok c := by
  obtain ⟨c, hc⟩ := h.exists_encode (List.length_take_of_le hle)
  have hbs : encode c ++ bs.drop sizes.sum = bs := by rw [hc, List.take_append_drop]
  exact ⟨c, bs.drop sizes.sum, hbs, hbs ▸ h.decode_append c _⟩

theorem faithful : Faithful encode decode := by
  refine .of_append h.decode_append fun bs c hd => ?_
  rcases Nat.lt_or_ge bs.length sizes.sum with hlt | hle
  · obtain ⟨k, hk⟩ := exists_breaksOff_iff.2 hlt
    rw [h.decode_of_breaksOff hk] at hd
    cases hd
  · obtain ⟨d, r, hr, hd'⟩ := h.exists_decode hle
    obtain rfl : d = c := Except.ok.inj (hd'.symm.trans hd)
    exact ⟨r, hr⟩

theorem decode_eq_ok_iff : (∃ c, decode bs = .ok c) ↔ sizes.sum ≤ bs.length := by
  refine ⟨fun ⟨c, hc⟩ => ?_, fun hle => ?_⟩
  · exact h.length_encode c ▸ (h.faithful.isPrefix_of_decode hc).length_le
  · obtain ⟨c, -, -, hc⟩ := h.exists_decode hle
    exact ⟨c, hc⟩

theorem decode_eq_error_iff {e : DecodeError} :
    decode bs = .error e ↔ ∃ k, BreaksOff sizes bs.length k ∧ e = .unexpectedEnd k := by
  constructor
  · intro he
    have hlt : bs.length < sizes.sum := by
      refine Nat.lt_of_not_le fun hle => ?_
      obtain ⟨c, hc⟩ := h.decode_eq_ok_iff.2 hle
      rw [hc] at he
      cases he
    obtain ⟨k, hk⟩ := exists_breaksOff_iff.2 hlt
    rw [h.decode_of_breaksOff hk] at he
    exact ⟨k, hk, (Except.error.inj he).symm⟩
  · rintro ⟨k, hk, rfl⟩
    exact h.decode_of_breaksOff hk

end LaidOut
end

theorem MoveCommand.laidOut : LaidOut [8, 4, 4] MoveCommand.encode MoveCommand.decode where
  length_encode c := by simp [MoveCommand.encode]
  decode_append c r := by
    have he : c.entity.toNat % 256 ^ 8 = c.entity.toNat := Nat.mod_eq_of_lt c.entity.toNat_lt
    have hx : c.dirX.toNat % 256 ^ 4 = c.dirX.toNat := Nat.mod_eq_of_lt c.dirX.toNat_lt
    have hy : c.dirY.toNat % 256 ^ 4 = c.dirY.toNat := Nat.mod_eq_of_lt c.dirY.toNat_lt
    rw [MoveCommand.encode, List.append_assoc, List.append_assoc, MoveCommand.decode]
    simp only [read_bind_append, he, hx, hy, Nat.toUInt64, Nat.toUInt32, UInt64.ofNat_toNat,
      UInt32.ofNat_toNat]
    rfl
  exists_encode {bs} h := by
    refine ⟨⟨(toNat (bs.take 8)).toUInt64, (toNat ((bs.drop 8).take 4)).toUInt32,
      (toNat ((bs.drop 8).drop 4)).toUInt32⟩, ?_⟩
    have h : bs.length = 16 := h
    rw [MoveCommand.encode, ofNat_toUInt64 (by simp [h]), ofNat_toUInt32 (by simp [h]),
      ofNat_toUInt32 (by simp [h]), List.append_assoc, List.take_append_drop,
      List.take_append_drop]
  decode_of_breaksOff {bs missing} h := by
    simp only [breaksOff_cons, not_breaksOff_nil, and_false, or_false, ← List.length_drop] at h
    rw [MoveCommand.decode]
    rcases h with ⟨h, rfl⟩ | ⟨h₁, ⟨h, rfl⟩ | ⟨h₂, h, rfl⟩⟩
    · exact read_bind_of_lt _ h
    · exact (read_bind_of_le _ h₁).trans (read_bind_of_lt _ h)
    · exact (read_bind_of_le _ h₁).trans ((read_bind_of_le _ h₂).trans (read_bind_of_lt _ h))

theorem SkillCommand.laidOut : LaidOut [1, 8] SkillCommand.encode SkillCommand.decode where
  length_encode c := by simp [SkillCommand.encode]
  decode_append c r := by
    have hs : c.skill.toNat % 256 ^ 1 = c.skill.toNat := Nat.mod_eq_of_lt c.skill.toNat_lt
    have ht : c.target.toNat % 256 ^ 8 = c.target.toNat := Nat.mod_eq_of_lt c.target.toNat_lt
    rw [SkillCommand.encode, List.append_assoc, SkillCommand.decode]
    simp only [read_bind_append, hs, ht, Nat.toUInt64, Nat.toUInt8, UInt64.ofNat_toNat,
      UInt8.ofNat_toNat]
    rfl
  exists_encode {bs} h := by
    have h : bs.length = 9 := h
    refine ⟨⟨(toNat (bs.take 1)).toUInt8, (toNat (bs.drop 1)).toUInt64⟩, ?_⟩
    rw [SkillCommand.encode, ofNat_toUInt8 (by simp [h]), ofNat_toUInt64 (by simp [h]),
      List.take_append_drop]
  decode_of_breaksOff {bs missing} h := by
    simp only [breaksOff_cons, not_breaksOff_nil, and_false, or_false, ← List.length_drop] at h
    rw [SkillCommand.decode]
    rcases h with ⟨h, rfl⟩ | ⟨h₁, h, rfl⟩
    · exact read_bind_of_lt _ h
    · exact (read_bind_of_le _ h₁).trans (read_bind_of_lt _ h)

namespace Envelope

def sizes : Nat → List Nat
  | 0 => [4, 8, 4, 4]
  | 1 => [4, 1, 8]
  | _ => [4]

theorem decode_move (r : Bytes) : decode (ofNat 4 0 ++ r) = move <$> MoveCommand.decode r := by
  rw [decode, read_bind_append]
  rfl

theorem decode_skill (r : Bytes) : decode (ofNat 4 1 ++ r) = skill <$> SkillCommand.decode r := by
  rw [decode, read_bind_append]
  rfl

theorem decode_leave (r : Bytes) : decode (ofNat 4 2 ++ r) = .ok leave := by
  rw [decode, read_bind_append]
  rfl

theorem decode_unknown {kind : Nat} (hk : 2 < kind) (hb : kind < 256 ^ 4) (r : Bytes) :
    decode (ofNat 4 kind ++ r) = .error (.unknownKind kind) := by
  rw [decode, read_bind_append, Nat.mod_eq_of_lt hb]
  obtain ⟨k, rfl⟩ := Nat.exists_eq_add_of_lt hk
  rw [show 2 + k + 1 = k + 3 by omega]
  rfl

theorem decode_short {bs : Bytes} (h : bs.length < 4) :
    decode bs = .error (.unexpectedEnd (4 - bs.length)) := read_bind_of_lt _ h

inductive Form : Bytes → Prop
  | short {bs : Bytes} (h : bs.length < 4) : Form bs
  | move (r : Bytes) : Form (ofNat 4 0 ++ r)
  | skill (r : Bytes) : Form (ofNat 4 1 ++ r)
  | leave (r : Bytes) : Form (ofNat 4 2 ++ r)
  | unknown {kind : Nat} (hk : 2 < kind) (hb : kind < 256 ^ 4) (r : Bytes) : Form (ofNat 4 kind ++ r)

theorem form (bs : Bytes) : Form bs := by
  rcases Nat.lt_or_ge bs.length 4 with h | h
  · exact .short h
  · have hl : (bs.take 4).length = 4 := List.length_take_of_le h
    have hb := toNat_lt (bs.take 4)
    have hbs : ofNat 4 (toNat (bs.take 4)) ++ bs.drop 4 = bs := by
      have htake := ofNat_toNat (bs.take 4)
      rw [hl] at htake
      rw [htake, List.take_append_drop]
    rw [← hbs]
    rw [hl] at hb
    generalize toNat (bs.take 4) = kind at hb
    match kind with
    | 0 => exact .move _
    | 1 => exact .skill _
    | 2 => exact .leave _
    | k + 3 => exact .unknown (by omega) hb _

theorem faithful : Faithful encode decode := by
  refine .of_append (fun c r => ?_) (fun bs e hd => ?_)
  · cases c with
    | move c =>
      rw [encode, List.append_assoc, decode_move, MoveCommand.laidOut.decode_append]
      rfl
    | skill c =>
      rw [encode, List.append_assoc, decode_skill, SkillCommand.laidOut.decode_append]
      rfl
    | leave => exact decode_leave r
  · cases form bs with
    | short h =>
      rw [decode_short h] at hd
      cases hd
    | move r =>
      rw [decode_move] at hd
      rcases hr : MoveCommand.decode r with _ | c <;> rw [hr] at hd <;> cases hd
      exact List.prefix_append_right_inj _ |>.2 (MoveCommand.laidOut.faithful.isPrefix_of_decode hr)
    | skill r =>
      rw [decode_skill] at hd
      rcases hr : SkillCommand.decode r with _ | c <;> rw [hr] at hd <;> cases hd
      exact List.prefix_append_right_inj _ |>.2 (SkillCommand.laidOut.faithful.isPrefix_of_decode hr)
    | leave r =>
      rw [decode_leave] at hd
      cases hd
      exact List.prefix_append _ r
    | unknown hk hb r =>
      rw [decode_unknown hk hb] at hd
      cases hd

def kindOf (bs : Bytes) : Nat := toNat (bs.take 4)

theorem kindOf_append {kind : Nat} (hb : kind < 256 ^ 4) (r : Bytes) :
    kindOf (ofNat 4 kind ++ r) = kind := by
  rw [kindOf, List.take_left' (length_ofNat 4 kind), toNat_ofNat, Nat.mod_eq_of_lt hb]

theorem length_append (kind : Nat) (r : Bytes) : (ofNat 4 kind ++ r).length = 4 + r.length := by
  rw [List.length_append, length_ofNat]

theorem map_eq_error_iff {α β ε : Type} {f : α → β} {x : Except ε α} {e : ε} :
    f <$> x = .error e ↔ x = .error e := by
  cases x <;> simp [Functor.map, Except.map]

theorem breaksOff_after_kind {sizes : List Nat} {length missing : Nat} :
    BreaksOff (4 :: sizes) (4 + length) missing ↔ BreaksOff sizes length missing := by
  rw [breaksOff_cons, Nat.add_sub_cancel_left]
  constructor
  · rintro (⟨h, -⟩ | ⟨-, h⟩)
    · omega
    · exact h
  · exact fun h => .inr ⟨by omega, h⟩

theorem breaksOff_sizes_of_short {kind length missing : Nat} (h : length < 4) :
    BreaksOff (sizes kind) length missing ↔ missing = 4 - length := by
  have hs : ∃ rest, sizes kind = 4 :: rest := by
    match kind with
    | 0 | 1 | _ + 2 => exact ⟨_, rfl⟩
  obtain ⟨rest, hs⟩ := hs
  rw [hs, breaksOff_cons]
  omega

theorem decode_eq_error_iff {bs : Bytes} {e : DecodeError} : decode bs = .error e ↔
    (∃ k, BreaksOff (sizes (kindOf bs)) bs.length k ∧ e = .unexpectedEnd k) ∨
      4 ≤ bs.length ∧ 2 < kindOf bs ∧ e = .unknownKind (kindOf bs) := by
  cases form bs with
  | short h =>
    have h' : ¬ 4 ≤ bs.length := Nat.not_le.2 h
    simp [decode_short h, breaksOff_sizes_of_short h, h', eq_comm]
  | move r =>
    rw [decode_move, map_eq_error_iff, MoveCommand.laidOut.decode_eq_error_iff,
      kindOf_append (by decide), length_append]
    simp [sizes, breaksOff_after_kind]
  | skill r =>
    rw [decode_skill, map_eq_error_iff, SkillCommand.laidOut.decode_eq_error_iff,
      kindOf_append (by decide), length_append]
    simp [sizes, breaksOff_after_kind]
  | leave r =>
    rw [decode_leave, kindOf_append (by decide), length_append]
    simp [sizes, breaksOff_after_kind, not_breaksOff_nil]
  | @unknown kind hk hb r =>
    have hs : sizes kind = [4] := by
      match kind with
      | k + 3 => rfl
    rw [decode_unknown hk hb, kindOf_append hb, length_append, hs]
    simp [breaksOff_after_kind, not_breaksOff_nil, hk, eq_comm]

theorem map_eq_ok_iff {α β ε : Type} {f : α → β} {x : Except ε α} :
    (∃ b, f <$> x = .ok b) ↔ ∃ a, x = .ok a := by
  cases x <;> simp [Functor.map, Except.map]

theorem decode_eq_ok_iff {bs : Bytes} : (∃ c, decode bs = .ok c) ↔
    4 ≤ bs.length ∧ (kindOf bs = 2 ∨ kindOf bs = 0 ∧ 20 ≤ bs.length ∨
      kindOf bs = 1 ∧ 13 ≤ bs.length) := by
  cases form bs with
  | short h => simp [decode_short h, Nat.not_le.2 h]
  | move r =>
    rw [decode_move, map_eq_ok_iff, MoveCommand.laidOut.decode_eq_ok_iff,
      kindOf_append (by decide), length_append]
    change 16 ≤ r.length ↔ _
    omega
  | skill r =>
    rw [decode_skill, map_eq_ok_iff, SkillCommand.laidOut.decode_eq_ok_iff,
      kindOf_append (by decide), length_append]
    change 9 ≤ r.length ↔ _
    omega
  | leave r => simp [decode_leave, kindOf_append]
  | unknown hk hb r =>
    rw [decode_unknown hk hb, kindOf_append hb]
    exact ⟨fun ⟨_, h⟩ => (nomatch h), fun ⟨_, h⟩ => by omega⟩

end Envelope

/-- Bytes that begin with what is written for a command mean that command, and no others do. Whether
bytes mean anything is a matter of their length and, for an envelope, of its kind. Where they do
not, the error tells how many bytes are missing from the number that they break off in, or which
kind there is not. -/
theorem bytes_determine_commands :
    Faithful MoveCommand.encode MoveCommand.decode ∧
    Faithful SkillCommand.encode SkillCommand.decode ∧
    Faithful Envelope.encode Envelope.decode ∧
    ∀ bs : Bytes,
      ((∃ c, MoveCommand.decode bs = .ok c) ↔ 16 ≤ bs.length) ∧
      ((∃ c, SkillCommand.decode bs = .ok c) ↔ 9 ≤ bs.length) ∧
      ((∃ c, Envelope.decode bs = .ok c) ↔ 4 ≤ bs.length ∧
        (Envelope.kindOf bs = 2 ∨ Envelope.kindOf bs = 0 ∧ 20 ≤ bs.length ∨
          Envelope.kindOf bs = 1 ∧ 13 ≤ bs.length)) ∧
      (∀ e, MoveCommand.decode bs = .error e ↔
        ∃ k, BreaksOff [8, 4, 4] bs.length k ∧ e = .unexpectedEnd k) ∧
      (∀ e, SkillCommand.decode bs = .error e ↔
        ∃ k, BreaksOff [1, 8] bs.length k ∧ e = .unexpectedEnd k) ∧
      ∀ e, Envelope.decode bs = .error e ↔
        (∃ k, BreaksOff (Envelope.sizes (Envelope.kindOf bs)) bs.length k ∧ e = .unexpectedEnd k) ∨
          4 ≤ bs.length ∧ 2 < Envelope.kindOf bs ∧ e = .unknownKind (Envelope.kindOf bs) :=
  ⟨MoveCommand.laidOut.faithful, SkillCommand.laidOut.faithful, Envelope.faithful, fun _ =>
    ⟨MoveCommand.laidOut.decode_eq_ok_iff, SkillCommand.laidOut.decode_eq_ok_iff,
      Envelope.decode_eq_ok_iff, fun _ => MoveCommand.laidOut.decode_eq_error_iff,
      fun _ => SkillCommand.laidOut.decode_eq_error_iff, fun _ => Envelope.decode_eq_error_iff⟩⟩

example : Envelope.encode (.move ⟨258, 0x3f800000, 0⟩) =
    [0, 0, 0, 0, 2, 1, 0, 0, 0, 0, 0, 0, 0, 0, 0x80, 0x3f, 0, 0, 0, 0] := by decide

end Fieldwatch
