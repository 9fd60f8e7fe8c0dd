import Fieldwatch.Proofs.Field.Places
import Fieldwatch.Proofs.Field.Runs

/-! When the tables of a field and its feed say the same of where everything is. Whatever a player
or an operator does to a table is forwarded to the feed at once. -/

namespace Fieldwatch

open Interest

namespace Field

variable {β : Type} {f : Field β}

def record (f : Field β) (j : EntityId) : Option Entry :=
  (f.players[j]?.map fun p => (p.pos, some f.feed.world.radius)).or (f.herd.record j)

structure Agrees (f : Field β) : Prop where
  record : ∀ j, f.feed.world.record j = f.record j
  players_le : ∀ j ∈ f.players, j ≤ Npc.idBase
  herd : f.herd.Sound

/-- Nothing but the vitals, the wishes and the clocks may differ. -/
structure Moveless (f g : Field β) : Prop where
  world : g.feed.world = f.feed.world
  herd : g.herd = f.herd
  places : ∀ j : EntityId, g.players[j]?.map Player.pos = f.players[j]?.map Player.pos

theorem Moveless.refl (f : Field β) : f.Moveless f := ⟨rfl, rfl, fun _ => rfl⟩

theorem record_eq_places (f : Field β) (j : EntityId) : f.record j =
    ((f.players[j]?.map Player.pos).map fun pos => (pos, some f.feed.world.radius)).or
      (f.herd.record j) := by
  rw [record, Option.map_map]
  rfl

theorem Moveless.record_eq {g : Field β} (h : f.Moveless g) (j : EntityId) :
    g.record j = f.record j := by
  rw [record_eq_places, record_eq_places, h.places, h.herd, h.world]

theorem mem_players_of_places {g : Field β}
    (h : ∀ j : EntityId, g.players[j]?.map Player.pos = f.players[j]?.map Player.pos)
    {j : EntityId} : j ∈ g.players ↔ j ∈ f.players := by
  have hj := congrArg Option.isSome (h j)
  rw [Option.isSome_map, Option.isSome_map] at hj
  rw [Std.ExtTreeMap.mem_iff_isSome_getElem?, Std.ExtTreeMap.mem_iff_isSome_getElem?, hj]

theorem Agrees.moveless {g : Field β} (hf : f.Agrees) (h : f.Moveless g) : g.Agrees where
  record j := by rw [h.record_eq, h.world, hf.record]
  players_le j hj := hf.players_le j ((mem_players_of_places h.places).1 hj)
  herd := h.herd ▸ hf.herd

theorem Agrees.players_eq_none (hf : f.Agrees) {j : EntityId} (hj : Npc.idBase < j) :
    f.players[j]? = none :=
  Std.ExtTreeMap.getElem?_eq_none fun hp => UInt64.not_lt.2 (hf.players_le j hp) hj

theorem Agrees.record_monster (hf : f.Agrees) {n : Npc} (hn : n ∈ f.herd.members) :
    f.feed.world.record n.id = n.record := by
  rw [hf.record, Field.record, hf.players_eq_none (hf.herd.idBase_lt hn), Option.map_none,
    Option.none_or, Herd.record_of_mem hf.herd hn]

theorem agrees_fresh (id : FieldId) (config : FieldConfig) (brain : Brain β)
    (mind : β) (enum : Enumeration) :
    (fresh id config brain mind enum).Agrees where
  record j := by
    simp [fresh, Field.record, World.record, Feed.empty, World.empty, Herd.record, Herd.get?]
  players_le j hj := by simp [fresh] at hj
  herd := ⟨rfl, Nat.zero_le _, fun n hn => by simp [fresh] at hn⟩

theorem Agrees.addPlayer (hf : f.Agrees) {n : Newcomer} (hn : n.id ≤ Npc.idBase) :
    (f.addPlayer n).value.Agrees where
  record j := by
    have hw : (f.addPlayer n).value.feed.world = (f.feed.world.add n.id true n.pos).value :=
      Feed.world_add _ _ _ _
    have hp : (f.addPlayer n).value.players[j]? = _ := IdMap.getElem?_insert f.players n.id j _
    rw [Field.record, hp, hw, World.record_add, World.radius_add]
    split
    · rfl
    · exact hf.record j
  players_le j hj := by
    have hj : n.id = j ∨ j ∈ f.players := by
      simpa using (Std.ExtTreeMap.mem_insert (t := f.players)).1 hj
    rcases hj with rfl | hj
    · exact hn
    · exact hf.players_le j hj
  herd := hf.herd

theorem Agrees.removePlayer (hf : f.Agrees) {id : EntityId} (hid : id ≤ Npc.idBase) :
    (f.removePlayer id).value.Agrees where
  record j := by
    have hp : (f.removePlayer id).value.players[j]? = _ := IdMap.getElem?_erase f.players id j
    have hw : (f.removePlayer id).value.feed.world = (f.feed.world.remove id).value := rfl
    rw [Field.record, hp, hw, World.record_remove, World.radius_remove]
    split
    · next hj =>
      rw [Option.map_none, Option.none_or, hj]
      exact (Herd.record_of_le hf.herd hid).symm
    · exact hf.record j
  players_le j hj := hf.players_le j (Std.ExtTreeMap.mem_of_mem_erase hj)
  herd := hf.herd

theorem moveless_insert {id : EntityId} {p q : Player} (hp : f.players[id]? = some p)
    (hq : q.pos = p.pos) : f.Moveless { f with players := f.players.insert id q } where
  world := rfl
  herd := rfl
  places j := by
    change (f.players.insert id q)[j]?.map Player.pos = _
    rw [IdMap.getElem?_insert]
    split
    · next hj => rw [hj, hp, Option.map_some, Option.map_some, hq]
    · rfl

theorem pos_steer (p : Player) (dir : Vec2) (speed : Float32) (now : Float) :
    (p.steer dir speed now).pos = p.pos := by
  simp only [Player.steer]
  split <;> rfl

theorem moveless_onMove (f : Field β) (session : EntityId) (c : MoveCommand) :
    f.Moveless (f.onMove session c) := by
  unfold onMove
  split
  · exact .refl f
  · split
    · exact .refl f
    · next p hp => exact moveless_insert hp (pos_steer _ _ _ _)

theorem Agrees.wounded (hf : f.Agrees) {target : EntityId} {amount : Int} {g : Herd} {n : Npc}
    (hd : f.herd.damage target amount = some (g, n)) (h0 : n.hp ≠ 0) :
    Agrees { f with herd := g } where
  record j := by
    change f.feed.world.record j = (f.players[j]?.map fun p =>
      (p.pos, some f.feed.world.radius)).or (g.record j)
    rw [Herd.record_damage hd, if_neg fun h => h0 h.2]
    exact hf.record j
  players_le := hf.players_le
  herd := hf.herd.of_same (Herd.same_damage hd)

theorem Agrees.killed (hf : f.Agrees) {target : EntityId} {amount : Int} {g : Herd} {n : Npc}
    (hd : f.herd.damage target amount = some (g, n)) (h0 : n.hp = 0) :
    Agrees { f with herd := g, feed := (f.feed.remove target).value } where
  record j := by
    change (f.feed.world.remove target).value.record j = (f.players[j]?.map fun p =>
      (p.pos, some (f.feed.world.remove target).value.radius)).or (g.record j)
    rw [World.record_remove, World.radius_remove, Herd.record_damage hd]
    -- whoever was struck is a monster, so the table of players does not know the id
    by_cases hj : j = target
    · obtain ⟨m, hm, -, -, -⟩ := Herd.damage_eq_some hd
      have hm' := hf.herd.idBase_lt (Herd.mem_of_get? hm)
      rw [if_pos hj, if_pos ⟨hj, h0⟩, hj, ← Herd.id_of_get? hm, hf.players_eq_none hm']
      rfl
    · rw [if_neg hj, if_neg fun h => hj h.1]
      exact hf.record j
  players_le := hf.players_le
  herd := hf.herd.of_same (Herd.same_damage hd)

theorem Agrees.onSkill (hf : f.Agrees) (attacker target : EntityId) :
    (f.onSkill attacker target).value.Agrees := by
  unfold Field.onSkill
  split
  · cases hd : f.herd.damage target f.config.skillDamage with
    | none => exact hf
    | some r =>
      dsimp only
      split
      · next h0 => exact hf.killed hd h0
      · next h0 => exact hf.wounded hd h0
  · exact hf

theorem Agrees.setViewRadius (hf : f.Agrees) (radius : Int) :
    (f.setViewRadius radius).value.Agrees where
  record j := by
    have hw : (f.setViewRadius radius).value.feed.world = (f.feed.world.setRadius radius).value := rfl
    rw [Field.record, hw, World.record_setRadius, World.radius_setRadius, hf.record, Field.record]
    change _ = (f.players[j]?.map fun p => (p.pos, some (max radius 1))).or (f.herd.record j)
    cases hp : f.players[j]? with
    | some p => rfl
    | none =>
      -- a monster has no radius to set
      rw [Option.map_none, Option.map_none, Option.none_or]
      cases hr : f.herd.record j with
      | none => rfl
      | some r =>
        obtain ⟨pos, radius'⟩ := r
        obtain rfl : radius' = none := Herd.snd_of_record hr
        rfl
  players_le := hf.players_le
  herd := hf.herd

theorem Agrees.spawn (hf : f.Agrees) {t : NpcTemplate} (ht : 0 < t.maxHp) (pos : Vec2)
    (hr : f.herd.size < Herd.room) : (f.spawn t pos).value.2.Agrees where
  record j := by
    have hw : (f.spawn t pos).value.2.feed.world = (f.feed.world.add f.herd.nextId false pos).value :=
      Feed.world_add _ _ _ _
    have hh : (f.spawn t pos).value.2.herd.record j = _ := Herd.record_spawn hf.herd ht pos hr j
    have hp : (f.spawn t pos).value.2.players = f.players := rfl
    rw [Field.record, hw, hh, hp, World.record_add, World.radius_add]
    split
    · next hj =>
      have hid : Npc.idBase < f.herd.nextId := Herd.idBase_lt_idOf hr
      rw [hj, hf.players_eq_none hid]
      rfl
    · exact hf.record j
  players_le := hf.players_le
  herd := hf.herd.spawn ht pos hr

theorem value_populate {g : SpawnGrid} {r : Effects (Nat × Field β)}
    (hr : f.populate g = some r) : r.value.2 =
      g.cells.zipIdx.foldl (fun f x => (f.spawn (NpcTemplate.nth x.2) x.1).value.2) f := by
  obtain ⟨⟨k, sp⟩, hk, rfl⟩ := Option.map_eq_some_iff.1 hr
  obtain ⟨rfl, rfl⟩ := Herd.populate_eq_some hk
  clear hk hr
  simp only [Emit.value_bind, value_feeding, Emit.value_foldlM]
  generalize g.cells.zipIdx = l
  induction l generalizing f with
  | nil => rfl
  | cons x l ih =>
    rw [List.foldl_cons, ← ih, Herd.spawned_cons]
    rfl

theorem Agrees.populate (hf : f.Agrees) {g : SpawnGrid} {r : Effects (Nat × Field β)}
    (hr : f.populate g = some r) (hs : r.value.2.herd.size ≤ Herd.room) : r.value.2.Agrees := by
  rw [herd_populate f hr, Herd.size_spawnEach] at hs
  rw [value_populate hr]
  generalize g.cells.zipIdx = l at hs
  clear hr
  induction l generalizing f with
  | nil => exact hf
  | cons x l ih =>
    rw [List.length_cons] at hs
    have ht : 0 < (NpcTemplate.nth x.2).maxHp := by rw [Herd.maxHp_nth]; decide
    refine ih (hf.spawn ht x.1 (by omega)) ?_
    change (f.herd.spawn _ _).size + l.length ≤ Herd.room
    rw [Herd.size_spawn]
    omega

end Field
end Fieldwatch
