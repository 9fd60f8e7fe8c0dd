import Fieldwatch.Npc.Herd
import Mathlib.Algebra.Ring.Nat
import Mathlib.Data.List.Nodup

/-! The ids of monsters. They are given out in order from above `Npc.idBase`, so that as long as
there are ids left no two monsters share one and none is a player's. Nothing that happens to a
monster changes its id or what it is made of. -/

namespace Fieldwatch

namespace Npc

variable (n : Npc) (view : PlayerView) (step : Float32)

@[simp] theorem id_takeDamage (damage : Int) : (n.takeDamage damage).id = n.id := by
  simp only [takeDamage]; split <;> rfl

@[simp] theorem template_takeDamage (damage : Int) :
    (n.takeDamage damage).template = n.template := by
  simp only [takeDamage]; split <;> rfl

@[simp] theorem pos_takeDamage (damage : Int) : (n.takeDamage damage).pos = n.pos := by
  simp only [takeDamage]; split <;> rfl

theorem hp_takeDamage (damage : Int) :
    (n.takeDamage damage).hp = max (n.hp - max damage 0) 0 := by
  simp only [takeDamage]; split <;> rfl

theorem activity_takeDamage (damage : Int) : (n.takeDamage damage).activity =
    if (n.takeDamage damage).hp = 0 then .dead else n.activity := by
  simp only [takeDamage]; split <;> simp_all

theorem attackTimer_takeDamage (damage : Int) : (n.takeDamage damage).attackTimer =
    if (n.takeDamage damage).hp = 0 then 0 else n.attackTimer := by
  simp only [takeDamage]; split <;> simp_all

theorem isAlive_takeDamage (damage : Int) :
    (n.takeDamage damage).isAlive = !decide ((n.takeDamage damage).hp = 0) := by
  rw [Bool.eq_iff_iff, isAlive, hp_takeDamage]
  simp only [decide_eq_true_eq, Bool.not_eq_true', decide_eq_false_iff_not]
  omega

@[simp] theorem id_liveStep (a : Action) : (n.liveStep view step a).1.id = n.id := by
  simp only [liveStep, windUp]; split <;> rfl

@[simp] theorem template_liveStep (a : Action) :
    (n.liveStep view step a).1.template = n.template := by
  simp only [liveStep, windUp]; split <;> rfl

@[simp] theorem hp_liveStep (a : Action) : (n.liveStep view step a).1.hp = n.hp := by
  simp only [liveStep, windUp]; split <;> rfl

theorem pos_liveStep (a : Action) : (n.liveStep view step a).1.pos = (n.perform step a).pos := by
  simp only [liveStep, windUp]; split <;> rfl

@[simp] theorem id_deadStep : (n.deadStep step).1.id = n.id := by
  unfold deadStep
  split
  · dsimp only
    split <;> rfl
  · rfl

@[simp] theorem template_deadStep : (n.deadStep step).1.template = n.template := by
  unfold deadStep
  split
  · dsimp only
    split <;> rfl
  · rfl

end Npc

namespace Herd

def idOf (i : Nat) : EntityId := Npc.idBase + (i + 1).toUInt64

/-- How many monsters there are ids for. -/
def room : Nat := 2 ^ 64 - 2 ^ 48 - 1

theorem toNat_idOf {i : Nat} (h : i < room) : (idOf i).toNat = 2 ^ 48 + i + 1 := by
  have hi : i + 1 + 2 ^ 48 < 2 ^ 64 := by unfold room at h; omega
  simp only [idOf, Npc.idBase, UInt64.toNat_add, Nat.toUInt64, UInt64.toNat_ofNat',
    UInt64.reduceToNat]
  omega

theorem idBase_lt_idOf {i : Nat} (h : i < room) : Npc.idBase < idOf i := by
  rw [UInt64.lt_iff_toNat_lt, toNat_idOf h]
  simp only [Npc.idBase, UInt64.reduceToNat]
  omega

theorem idOf_injective {i j : Nat} (hi : i < room) (hj : j < room) (h : idOf i = idOf j) :
    i = j := by
  have := congrArg UInt64.toNat h
  rw [toNat_idOf hi, toNat_idOf hj] at this
  omega

structure Sound (h : Herd) : Prop where
  ids : h.members.map Npc.id = (List.range h.size).map idOf
  room : h.size ≤ room
  maxHp_pos : ∀ n ∈ h.members, 0 < n.template.maxHp

def Numbered (h : Herd) : Prop := h.members.map Npc.id = (List.range h.size).map idOf

variable {h : Herd} {β : Type}

theorem numbered_empty (delay : Float32) : Numbered { respawnDelay := delay } := rfl

theorem Sound.numbered (hs : h.Sound) : h.Numbered := hs.ids

theorem Numbered.exists_idOf (hh : h.Numbered) {n : Npc} (hn : n ∈ h.members) :
    ∃ i < h.size, idOf i = n.id := by
  have hm : n.id ∈ (List.range h.size).map idOf := hh ▸ List.mem_map_of_mem hn
  obtain ⟨i, hi, he⟩ := List.mem_map.1 hm
  exact ⟨i, List.mem_range.1 hi, he⟩

theorem Numbered.idBase_lt (hh : h.Numbered) (hr : h.size ≤ Herd.room) {n : Npc}
    (hn : n ∈ h.members) : Npc.idBase < n.id := by
  obtain ⟨i, hi, he⟩ := hh.exists_idOf hn
  rw [← he]
  exact idBase_lt_idOf (Nat.lt_of_lt_of_le hi hr)

theorem Numbered.nodup (hh : h.Numbered) (hr : h.size ≤ Herd.room) :
    (h.members.map Npc.id).Nodup := by
  rw [hh, List.Nodup, List.pairwise_map]
  refine List.nodup_range.imp_of_mem ?_
  intro i j hi hj hne he
  exact hne (idOf_injective (Nat.lt_of_lt_of_le (List.mem_range.1 hi) hr)
    (Nat.lt_of_lt_of_le (List.mem_range.1 hj) hr) he)

theorem Numbered.eq_of_id_eq (hh : h.Numbered) (hr : h.size ≤ Herd.room) {m n : Npc}
    (hm : m ∈ h.members) (hn : n ∈ h.members) (he : m.id = n.id) : m = n :=
  List.inj_on_of_nodup_map (hh.nodup hr) hm hn he

theorem Sound.idBase_lt (hs : h.Sound) {n : Npc} (hn : n ∈ h.members) : Npc.idBase < n.id :=
  hs.numbered.idBase_lt hs.room hn

theorem Sound.nodup (hs : h.Sound) : (h.members.map Npc.id).Nodup := hs.numbered.nodup hs.room

theorem Sound.eq_of_id_eq (hs : h.Sound) {m n : Npc} (hm : m ∈ h.members) (hn : n ∈ h.members)
    (he : m.id = n.id) : m = n := hs.numbered.eq_of_id_eq hs.room hm hn he

structure Same (h g : Herd) : Prop where
  ids : g.members.map Npc.id = h.members.map Npc.id
  templates : ∀ n ∈ g.members, ∃ m ∈ h.members, n.template = m.template

theorem Same.refl (h : Herd) : h.Same h := ⟨rfl, fun n hn => ⟨n, hn, rfl⟩⟩

theorem Same.trans {g k : Herd} (hg : h.Same g) (hk : g.Same k) : h.Same k where
  ids := hk.ids.trans hg.ids
  templates n hn := by
    obtain ⟨m, hm, he⟩ := hk.templates n hn
    obtain ⟨l, hl, hml⟩ := hg.templates m hm
    exact ⟨l, hl, he.trans hml⟩

theorem Same.size_eq {g : Herd} (hg : h.Same g) : g.size = h.size := by
  simpa [size] using congrArg List.length hg.ids

theorem Numbered.of_same (hh : h.Numbered) {g : Herd} (hg : h.Same g) : g.Numbered := by
  rw [Numbered, hg.ids, hg.size_eq, hh]

theorem Sound.of_same (hs : h.Sound) {g : Herd} (hg : h.Same g) : g.Sound where
  ids := hs.numbered.of_same hg
  room := by rw [hg.size_eq]; exact hs.room
  maxHp_pos n hn := by
    obtain ⟨m, hm, he⟩ := hg.templates n hn
    rw [he]
    exact hs.maxHp_pos m hm

theorem size_spawn (t : NpcTemplate) (pos : Vec2) : (h.spawn t pos).size = h.size + 1 := by
  simp [spawn, size]

theorem Numbered.spawn (hh : h.Numbered) (t : NpcTemplate) (pos : Vec2) :
    (h.spawn t pos).Numbered := by
  rw [Numbered, size_spawn, List.range_succ, List.map_append, ← hh]
  simp [Herd.spawn, Npc.spawn, nextId, idOf]

theorem Sound.spawn (hs : h.Sound) {t : NpcTemplate} (ht : 0 < t.maxHp) (pos : Vec2)
    (hr : h.size < Herd.room) : (h.spawn t pos).Sound where
  ids := hs.numbered.spawn t pos
  room := by
    rw [size_spawn]
    omega
  maxHp_pos n hn := by
    rcases List.mem_append.1 hn with hn | hn
    · exact hs.maxHp_pos n hn
    · obtain rfl := List.mem_singleton.1 hn
      exact ht

theorem mem_of_get? {id : EntityId} {n : Npc} (hn : h.get? id = some n) : n ∈ h.members :=
  List.mem_of_find?_eq_some hn

theorem id_of_get? {id : EntityId} {n : Npc} (hn : h.get? id = some n) : n.id = id := by
  simpa using List.find?_some hn

theorem get?_eq_none {id : EntityId} (hn : id ∉ h.members.map Npc.id) : h.get? id = none := by
  refine List.find?_eq_none.2 fun n hm he => hn ?_
  exact List.mem_map.2 ⟨n, hm, by simpa using he⟩

theorem Numbered.get?_of_mem (hh : h.Numbered) (hr : h.size ≤ Herd.room) {n : Npc}
    (hn : n ∈ h.members) : h.get? n.id = some n := by
  obtain ⟨m, hm⟩ : ∃ m, h.get? n.id = some m :=
    Option.isSome_iff_exists.1 (List.find?_isSome.2 ⟨n, hn, by simp⟩)
  rw [hm, hh.eq_of_id_eq hr (mem_of_get? hm) hn (id_of_get? hm)]

theorem Sound.get?_of_mem (hs : h.Sound) {n : Npc} (hn : n ∈ h.members) : h.get? n.id = some n :=
  hs.numbered.get?_of_mem hs.room hn

theorem damage_eq_some {id : EntityId} {amount : Int} {g : Herd} {m : Npc}
    (hd : h.damage id amount = some (g, m)) :
    ∃ n, h.get? id = some n ∧ n.isAlive ∧ m = n.takeDamage amount ∧
      g.members = h.members.map fun k => if k.id = id then m else k := by
  unfold damage at hd
  cases hn : h.get? id with
  | none => simp [hn] at hd
  | some n =>
    rw [hn] at hd
    dsimp only at hd
    split at hd
    · next ha =>
      cases hd
      exact ⟨n, rfl, ha, rfl, rfl⟩
    · cases hd

theorem get?_damage {id : EntityId} {amount : Int} {g : Herd} {m : Npc}
    (hd : h.damage id amount = some (g, m)) (j : EntityId) :
    g.get? j = if j = id then some m else h.get? j := by
  obtain ⟨n, hn, -, rfl, hg⟩ := damage_eq_some hd
  have hid := id_of_get? hn
  -- the blow leaves every id where it is, so the search stops at the same monster
  have hp : (fun k : Npc => decide (k.id = j)) ∘
      (fun k => if k.id = id then n.takeDamage amount else k) = fun k => decide (k.id = j) := by
    funext k
    by_cases hk : k.id = id <;> simp [hk, hid]
  rw [get?, hg, List.find?_map, hp]
  change (h.get? j).map _ = _
  by_cases hj : j = id
  · rw [hj, hn, if_pos rfl, Option.map_some, if_pos hid]
  · rw [if_neg hj]
    cases hk : h.get? j with
    | none => rfl
    | some k => simp [id_of_get? hk, hj]

theorem same_damage {id : EntityId} {amount : Int} {g : Herd} {m : Npc}
    (hd : h.damage id amount = some (g, m)) : h.Same g := by
  obtain ⟨n, hn, -, rfl, hg⟩ := damage_eq_some hd
  constructor
  · rw [hg, List.map_map]
    refine List.map_congr_left fun k _ => ?_
    by_cases he : k.id = id <;> simp [he, id_of_get? hn]
  · intro k hk
    rw [hg] at hk
    obtain ⟨k', hk', rfl⟩ := List.mem_map.1 hk
    by_cases he : k'.id = id
    · exact ⟨n, mem_of_get? hn, by simp [he]⟩
    · exact ⟨k', hk', by simp [he]⟩

theorem Numbered.nextId_not_mem (hh : h.Numbered) (hr : h.size < Herd.room) :
    h.nextId ∉ h.members.map Npc.id := by
  rw [hh]
  intro hm
  obtain ⟨i, hi, he⟩ := List.mem_map.1 hm
  have hi := List.mem_range.1 hi
  have := idOf_injective (Nat.lt_trans hi hr) hr he
  omega

theorem Numbered.get?_spawn (hh : h.Numbered) (hr : h.size < Herd.room) (t : NpcTemplate)
    (pos : Vec2) (j : EntityId) : (h.spawn t pos).get? j =
      if j = h.nextId then some (Npc.spawn h.nextId t pos h.respawnDelay) else h.get? j := by
  have hk : (h.spawn t pos).get? j = (h.get? j).or
      ([Npc.spawn h.nextId t pos h.respawnDelay].find? (·.id = j)) := List.find?_append
  rw [hk]
  by_cases hj : j = h.nextId
  · rw [hj, get?_eq_none (hh.nextId_not_mem hr), if_pos rfl]
    simp [Npc.spawn]
  · have hn : h.nextId ≠ j := fun he => hj he.symm
    simp [Npc.spawn, hj, hn]

theorem maxHp_nth (i : Nat) : (NpcTemplate.nth i).maxHp = 200 := by
  have hl : i % NpcTemplate.all.length < NpcTemplate.all.length := Nat.mod_lt _ (by decide)
  have hall : ∀ t ∈ NpcTemplate.all, t.maxHp = 200 := by decide
  refine hall _ ?_
  unfold NpcTemplate.nth
  rw [List.getD_eq_getElem?_getD, List.getElem?_eq_getElem hl, Option.getD_some]
  exact List.getElem_mem hl

def spawnEach (h : Herd) (l : List (Vec2 × Nat)) : Herd :=
  l.foldl (fun h (pos, i) => h.spawn (NpcTemplate.nth i) pos) h

def spawned (h : Herd) (l : List (Vec2 × Nat)) : List Npc :=
  (l.zipIdx h.size).map fun x =>
    Npc.spawn (idOf x.2) (NpcTemplate.nth x.1.2) x.1.1 h.respawnDelay

theorem spawned_cons (x : Vec2 × Nat) (l : List (Vec2 × Nat)) : h.spawned (x :: l) =
    Npc.spawn h.nextId (NpcTemplate.nth x.2) x.1 h.respawnDelay ::
      (h.spawn (NpcTemplate.nth x.2) x.1).spawned l := by
  rw [spawned, spawned, size_spawn]
  rfl

theorem members_spawnEach (l : List (Vec2 × Nat)) :
    (h.spawnEach l).members = h.members ++ h.spawned l := by
  induction l generalizing h with
  | nil => simp [spawnEach, spawned]
  | cons x l ih =>
    have hx : h.spawnEach (x :: l) = (h.spawn (NpcTemplate.nth x.2) x.1).spawnEach l := rfl
    rw [hx, ih, spawned_cons, Herd.spawn, List.append_assoc]
    rfl

theorem size_spawnEach (l : List (Vec2 × Nat)) : (h.spawnEach l).size = h.size + l.length := by
  simp [size, members_spawnEach, spawned]

theorem Numbered.spawnEach (hh : h.Numbered) (l : List (Vec2 × Nat)) :
    (h.spawnEach l).Numbered := by
  induction l generalizing h with
  | nil => exact hh
  | cons x l ih => exact ih (hh.spawn _ _)

theorem populate_eq_some {g : SpawnGrid} {k : Herd} {sp : List (EntityId × Vec2)}
    (hp : h.populate g = some (k, sp)) : k = h.spawnEach g.cells.zipIdx ∧
      sp = (h.spawned g.cells.zipIdx).map fun n => (n.id, n.pos) := by
  unfold populate at hp
  split at hp
  · cases hp
    have hm := members_spawnEach (h := h) g.cells.zipIdx
    refine ⟨rfl, ?_⟩
    have hd : (h.spawnAll g.cells).members.drop h.size = h.spawned g.cells.zipIdx := by
      change ((h.spawnEach g.cells.zipIdx).members).drop h.members.length = _
      rw [hm, List.drop_left]
    rw [hd]
  · cases hp

end Herd
end Fieldwatch
