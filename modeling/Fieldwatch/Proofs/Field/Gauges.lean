import Fieldwatch.Proofs.Field.Sending
import Mathlib.Algebra.Order.BigOperators.Group.List
import Mathlib.Algebra.Ring.Int.Defs

/-! Two counters show how many players and how many live monsters there are. A gauge is one of these
populations; work tracks it when it moves the counter by as much as it changes the population, and
at no point below nothing. What a feed does moves neither. -/

namespace Fieldwatch

open Interest

inductive Gauge where
  | players
  | monsters

namespace Gauge

def counter : Gauge → Counter
  | players => .playersActive
  | monsters => .npcsAlive

def read {β : Type} : Gauge → Field β → Nat
  | players, f => f.players.size
  | monsters, f => f.herd.alive

def shift (g : Gauge) : Effect → Int
  | .raise c n => if c = g.counter then n.toNat else 0
  | .lower c n => if c = g.counter then -n.toNat else 0
  | .notify _ | .stepped => 0

def balance (g : Gauge) (l : List Effect) : Int := (l.map g.shift).sum

variable {g : Gauge} {l m : List Effect} {e : Effect}

@[simp] theorem balance_nil (g : Gauge) : g.balance [] = 0 := rfl

@[simp] theorem balance_cons (g : Gauge) (e : Effect) (l : List Effect) :
    g.balance (e :: l) = g.shift e + g.balance l := rfl

@[simp] theorem balance_append (g : Gauge) (l m : List Effect) :
    g.balance (l ++ m) = g.balance l + g.balance m := by simp [balance]

theorem balance_nonneg (h : ∀ e ∈ l, 0 ≤ g.shift e) : 0 ≤ g.balance l := by
  refine List.sum_nonneg fun x hx => ?_
  obtain ⟨e, he, rfl⟩ := List.mem_map.1 hx
  exact h e he

theorem balance_nonpos (h : ∀ e ∈ l, g.shift e ≤ 0) : g.balance l ≤ 0 := by
  induction l with
  | nil => exact Int.le_refl 0
  | cons e l ih =>
    obtain ⟨he, hl⟩ := List.forall_mem_cons.1 h
    have := ih hl
    rw [balance_cons]
    omega

def Still (l : List Effect) : Prop := ∀ e ∈ l, ∀ g : Gauge, g.shift e = 0

theorem Still.append (hl : Still l) (hm : Still m) : Still (l ++ m) := by
  intro e he
  rcases List.mem_append.1 he with he | he
  · exact hl e he
  · exact hm e he

theorem Still.balance_eq (h : Still l) (g : Gauge) : g.balance l = 0 :=
  Int.le_antisymm (balance_nonpos fun e he => Int.le_of_eq (h e he g))
    (balance_nonneg fun e he => Int.le_of_eq (h e he g).symm)

theorem still_nil : Still [] := fun _ he => by cases he

theorem still_singleton (h : ∀ g : Gauge, g.shift e = 0) : Still [e] := by
  intro d hd
  rw [List.mem_singleton.1 hd]
  exact h

theorem still_ite {c : Prop} [Decidable c] (hl : Still l) (hm : Still m) :
    Still (if c then l else m) := by
  split
  · exact hl
  · exact hm

theorem still_sends {α : Type} (as : List α) (n : α → Notice) :
    Still (as.map fun a => .notify (n a)) := by
  intro e he g
  obtain ⟨a, -, rfl⟩ := List.mem_map.1 he
  rfl

theorem still_of_sights (h : Sights l) : Still l := by
  intro e he g
  have hq := h e he
  cases e with
  | notify n => rfl
  | stepped => rfl
  | raise c n | lower c n =>
    have hc : c = .aoiEvents := Decidable.not_not.1 hq
    subst hc
    cases g <;> rfl

section Counters

theorem get_recordStep (m : Counters) (us : UInt64) (g : Gauge) :
    (m.recordStep us).get g.counter = m.get g.counter := by
  unfold Counters.recordStep
  cases g <;> dsimp only <;> split <;> rfl

/-- The counter of a gauge shows the balance of what was done to it, as far as its 64 bits go. -/
theorem toNat_get_foldl (g : Gauge) (us : UInt64) (l : List Effect) (m : Counters) :
    (((l.foldl (Counters.apply us) m).get g.counter).toNat : Int) =
      ((m.get g.counter).toNat + g.balance l) % 18446744073709551616 := by
  induction l generalizing m with
  | nil =>
    have := (m.get g.counter).toNat_lt
    simp only [List.foldl_nil, balance_nil]
    omega
  | cons e l ih =>
    rw [List.foldl_cons, ih, balance_cons]
    cases e with
    | notify n => simp [Counters.apply, shift]
    | stepped => rw [Counters.apply, get_recordStep, shift, Int.zero_add]
    | raise c n =>
      simp only [Counters.apply, Counters.raise, Counters.get_set, shift]
      split
      · next hc =>
        rw [hc, UInt64.toNat_add]
        omega
      · rw [Int.zero_add]
    | lower c n =>
      simp only [Counters.apply, Counters.lower, Counters.get_set, shift]
      split
      · next hc =>
        have := n.toNat_lt
        rw [hc, UInt64.toNat_sub]
        omega
      · rw [Int.zero_add]

theorem get_foldl_of_still (g : Gauge) (hl : Still l) (us : UInt64) (m : Counters) :
    (l.foldl (Counters.apply us) m).get g.counter = m.get g.counter := by
  have hmoved := toNat_get_foldl g us l m
  have hlt := (m.get g.counter).toNat_lt
  rw [hl.balance_eq] at hmoved
  exact UInt64.toNat_inj.1 (by omega)

end Counters

/-- The work moves the gauge as it changes the population that `size` tells, and at no point below
nothing. -/
structure Tracks {α : Type} (g : Gauge) (size : α → Nat) (a : α) (m : Effects α) : Prop where
  balance_eq : g.balance m.log = size m.value - size a
  nonneg : ∀ l, l <+: m.log → 0 ≤ size a + g.balance l

namespace Tracks

variable {α : Type} {size : α → Nat} {a : α} {w : Effects α}

theorem bind {k : α → Effects α} (hw : g.Tracks size a w)
    (hk : g.Tracks size w.value (k w.value)) : g.Tracks size a (w >>= k) where
  balance_eq := by
    rw [Emit.log_bind, Emit.value_bind, balance_append, hw.balance_eq, hk.balance_eq]
    omega
  nonneg l hl := by
    obtain ⟨t, ht⟩ := hl
    rw [Emit.log_bind] at ht
    -- either the first part is still going on or it is over
    rcases List.append_eq_append_iff.1 ht with ⟨rest, hrest, -⟩ | ⟨done, rfl, hdone⟩
    · exact hw.nonneg l ⟨rest, hrest.symm⟩
    · have h := hk.nonneg done ⟨t, hdone.symm⟩
      rw [balance_append, hw.balance_eq]
      omega

theorem of_rising (hl : ∀ e ∈ w.log, 0 ≤ g.shift e)
    (hb : g.balance w.log = size w.value - size a) : g.Tracks size a w where
  balance_eq := hb
  nonneg l h := by
    have := balance_nonneg fun e he => hl e (h.subset he)
    omega

theorem of_falling (hl : ∀ e ∈ w.log, g.shift e ≤ 0)
    (hb : g.balance w.log = size w.value - size a) : g.Tracks size a w where
  balance_eq := hb
  nonneg l h := by
    obtain ⟨t, ht⟩ := h
    have hrest := balance_nonpos fun e he => hl e (ht ▸ List.mem_append_right l he)
    have hall := congrArg g.balance ht
    rw [balance_append] at hall
    omega

theorem of_lone (before after : List Effect) {e : Effect} (hlog : w.log = before ++ e :: after)
    (hb : Still before) (ha : Still after) (he : g.shift e = size w.value - size a) :
    g.Tracks size a w := by
  have hsum : g.balance w.log = size w.value - size a := by
    rw [hlog, balance_append, balance_cons, hb.balance_eq, ha.balance_eq, he]
    omega
  have hall : ∀ d ∈ w.log, g.shift d = 0 ∨ g.shift d = g.shift e := by
    intro d hd
    rw [hlog, List.mem_append, List.mem_cons] at hd
    rcases hd with hd | rfl | hd
    · exact .inl (hb d hd g)
    · exact .inr rfl
    · exact .inl (ha d hd g)
  rcases Int.le_total 0 (g.shift e) with h | h
  · exact of_rising (fun d hd => by have := hall d hd; omega) hsum
  · exact of_falling (fun d hd => by have := hall d hd; omega) hsum

theorem of_still (hl : Still w.log) (hs : size w.value = size a) : g.Tracks size a w := by
  refine of_rising (fun e he => Int.le_of_eq (hl e he g).symm) ?_
  rw [hl.balance_eq, hs, Int.sub_self]

end Tracks
end Gauge

namespace Interest.Feed

open Gauge

variable (f : Feed)

theorem still_broadcast (subject : EntityId) (event : Event) :
    Still (f.broadcast subject event) :=
  still_ite (still_sends _ fun p => ⟨p, event⟩) still_nil

theorem still_hit (h : Hit) : Still (f.hit h) :=
  still_ite (still_sends [h] fun h => ⟨h.target, .hit h⟩) still_nil

end Interest.Feed
end Fieldwatch
