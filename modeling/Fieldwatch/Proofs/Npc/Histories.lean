import Fieldwatch.Emit
import Fieldwatch.Proofs.Npc.Stepping

/-! Histories of a herd. All that ever happens to one is that monsters are spawned, that one of them
is struck, and that time passes for all of them, under whatever brain and with whatever in view. A
monster passes from life to death and back; these passages are what a history announces. -/

namespace Fieldwatch

inductive Passage where
  | death
  | comeback
deriving DecidableEq

def NpcOutcome.passage? : NpcOutcome → Option (EntityId × Passage)
  | .respawned id _ => some (id, .comeback)
  | .activity .. | .moved .. | .attacked .. => none

/-- One thing that happens to a herd. Brains may change from one step to the next. -/
inductive Turn : Type 1 where
  | spawn (t : NpcTemplate) (pos : Vec2)
  | populate (g : SpawnGrid)
  | damage (id : EntityId) (amount : Int)
  | step {β : Type} (brain : Brain β) (mind : β) (view : PlayerView) (step : Float32)

def Turn.IsFair : Turn → Prop
  | .spawn t _ => 0 < t.maxHp
  | .populate _ | .damage .. | .step .. => True

namespace Herd

variable {h : Herd}

def turn (h : Herd) : Turn → Emit (EntityId × Passage) Herd
  | .spawn t pos => pure (h.spawn t pos)
  | .populate g => pure ((h.populate g).elim h Prod.fst)
  | .damage id amount =>
    match h.damage id amount with
    | none => pure h
    | some (g, n) => ⟨g, if n.hp = 0 then [(id, .death)] else []⟩
  | .step brain mind view step =>
    let r := h.step brain mind view step
    ⟨r.1, r.2.2.filterMap NpcOutcome.passage?⟩

def undergo (h : Herd) (ts : List Turn) : Emit (EntityId × Passage) Herd := ts.foldlM turn h

theorem undergo_cons (h : Herd) (t : Turn) (ts : List Turn) :
    h.undergo (t :: ts) = h.turn t >>= fun g => g.undergo ts := List.foldlM_cons

theorem size_le_turn (h : Herd) (t : Turn) : h.size ≤ (h.turn t).value.size := by
  cases t with
  | spawn t pos =>
    change h.size ≤ (h.spawn t pos).size
    rw [size_spawn]
    exact Nat.le_succ _
  | populate g =>
    rcases hp : h.populate g with _ | ⟨k, sp⟩
    · simp [turn, hp]
    · obtain ⟨rfl, -⟩ := populate_eq_some hp
      simp [turn, hp, size_spawnEach]
  | damage id amount =>
    rcases hd : h.damage id amount with _ | ⟨g, n⟩
    · simp [turn, hd]
    · simp [turn, hd, (same_damage hd).size_eq]
  | step brain mind view step => exact Nat.le_of_eq (same_step brain view step h mind).size_eq.symm

theorem size_le_undergo (h : Herd) (ts : List Turn) : h.size ≤ (h.undergo ts).value.size := by
  induction ts generalizing h with
  | nil => exact Nat.le_refl _
  | cons t ts ih => exact Nat.le_trans (size_le_turn h t) (ih _)

theorem undergo_of {P : Herd → Prop}
    (hturn : ∀ (h : Herd) (t : Turn), t.IsFair → (h.turn t).value.size ≤ room → P h →
      P (h.turn t).value)
    {ts : List Turn} (ht : ∀ t ∈ ts, t.IsFair) (hr : (h.undergo ts).value.size ≤ room) (hP : P h) :
    P (h.undergo ts).value := by
  induction ts generalizing h with
  | nil => exact hP
  | cons t ts ih =>
    obtain ⟨ht, hts⟩ := List.forall_mem_cons.1 ht
    exact ih hts hr (hturn h t ht (Nat.le_trans (size_le_undergo _ ts) hr) hP)

theorem Numbered.turn (hh : h.Numbered) (t : Turn) : (h.turn t).value.Numbered := by
  cases t with
  | spawn t pos => exact hh.spawn t pos
  | populate g =>
    rcases hp : h.populate g with _ | ⟨k, sp⟩
    · simpa [Herd.turn, hp] using hh
    · obtain ⟨rfl, -⟩ := populate_eq_some hp
      simpa [Herd.turn, hp] using hh.spawnEach _
  | damage id amount =>
    rcases hd : h.damage id amount with _ | ⟨g, n⟩
    · simpa [Herd.turn, hd] using hh
    · simpa [Herd.turn, hd] using hh.of_same (same_damage hd)
  | step brain mind view step => exact hh.of_same (same_step brain view step h mind)

theorem Numbered.undergo (hh : h.Numbered) (ts : List Turn) : (h.undergo ts).value.Numbered := by
  induction ts generalizing h with
  | nil => exact hh
  | cons t ts ih => exact ih (hh.turn t)

theorem Sound.spawnEach (hs : h.Sound) {l : List (Vec2 × Nat)}
    (hr : h.size + l.length ≤ Herd.room) :
    (h.spawnEach l).Sound := by
  induction l generalizing h with
  | nil => exact hs
  | cons x l ih =>
    rw [List.length_cons] at hr
    have ht : 0 < (NpcTemplate.nth x.2).maxHp := by rw [maxHp_nth]; decide
    refine ih (hs.spawn ht x.1 (by omega)) ?_
    rw [size_spawn]
    omega

theorem Sound.turn (hs : h.Sound) {t : Turn} (ht : t.IsFair)
    (hr : (h.turn t).value.size ≤ Herd.room) :
    (h.turn t).value.Sound := by
  cases t with
  | spawn t pos =>
    change (h.spawn t pos).size ≤ Herd.room at hr
    rw [size_spawn] at hr
    exact hs.spawn ht pos hr
  | populate g =>
    rcases hp : h.populate g with _ | ⟨k, sp⟩
    · simpa [Herd.turn, hp] using hs
    · obtain ⟨rfl, -⟩ := populate_eq_some hp
      simp only [Herd.turn, hp, Emit.value_pure, Option.elim_some, size_spawnEach] at hr ⊢
      exact hs.spawnEach hr
  | damage id amount =>
    rcases hd : h.damage id amount with _ | ⟨g, n⟩
    · simpa [Herd.turn, hd] using hs
    · simpa [Herd.turn, hd] using hs.of_same (same_damage hd)
  | step brain mind view step => exact hs.of_same (same_step brain view step h mind)

theorem sound_empty (delay : Float32) : Sound { respawnDelay := delay } where
  ids := rfl
  room := Nat.zero_le _
  maxHp_pos _ hn := by cases hn

end Herd
end Fieldwatch
