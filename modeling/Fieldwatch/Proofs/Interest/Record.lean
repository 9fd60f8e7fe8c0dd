import Fieldwatch.Proofs.Interest.Index

/-! What a field has to know of its feed: where everything stands, and how far each player sees.
Every change of a feed is an equation about these records. -/

namespace Fieldwatch.Interest

abbrev Entry := Vec2 × Option Int

def Entity.record (e : Entity) : Entry :=
  (e.pos, if e.isPlayer then some e.radius else none)

theorem Entity.of_record {e : Entity} {pos : Vec2} {r : Int} (h : e.record = (pos, some r)) :
    e.isPlayer ∧ e.pos = pos := by
  obtain ⟨hpos, hr⟩ := Prod.mk.inj h
  refine ⟨Decidable.not_not.1 fun hp => ?_, hpos⟩
  rw [if_neg hp] at hr
  cases hr

namespace World

variable (w : World) (id j : EntityId)

def record : Option Entry := w.entities[j]?.map Entity.record

theorem mem_entities_iff_record : j ∈ w.entities ↔ (w.record j).isSome := by
  rw [record, Option.isSome_map, Std.ExtTreeMap.mem_iff_isSome_getElem?]

variable {w j} in
theorem mem_entities_of_player (h : j ∈ w.players) : j ∈ w.entities := by
  obtain ⟨e, he, -⟩ := (mem_players w j).1 h
  exact IdMap.mem_iff_exists.2 ⟨e, he⟩

theorem mem_players_iff_record : j ∈ w.players ↔ ∃ pos r, w.record j = some (pos, some r) := by
  rw [mem_players]
  constructor
  · rintro ⟨e, he, hp⟩
    exact ⟨e.pos, e.radius, by rw [record, he, Option.map_some, Entity.record, if_pos hp]⟩
  · rintro ⟨pos, r, hr⟩
    obtain ⟨e, he, hrec⟩ := Option.map_eq_some_iff.1 hr
    exact ⟨e, he, (Entity.of_record hrec).1⟩

theorem record_remove : (w.remove id).value.record j = if j = id then none else w.record j := by
  unfold record
  rw [entities_remove]
  split <;> rfl

theorem record_add (isPlayer : Bool) (pos : Vec2) : (w.add id isPlayer pos).value.record j =
    if j = id then some (pos, if isPlayer then some w.radius else none) else w.record j := by
  unfold record
  rw [entities_add]
  split
  · simp [Entity.record, Entity.newcomer]
  · rfl

theorem record_move (pos : Vec2) : (w.move id pos).value.record j =
    if j = id then (w.record j).map fun r => (pos, r.2) else w.record j := by
  unfold record
  rw [entities_move]
  split
  · simp [Function.comp_def, Entity.record]
  · rfl

theorem record_setRadius (radius : Int) : (w.setRadius radius).value.record j =
    (w.record j).map fun r => (r.1, r.2.map fun _ => max radius 1) := by
  unfold record
  rw [entities_setRadius, Option.map_map, Option.map_map]
  congr 1
  funext e
  cases he : e.isPlayer <;> simp [Entity.record, Entity.reaching, Entity.tuned, he]

@[simp] theorem radius_add (isPlayer : Bool) (pos : Vec2) :
    (w.add id isPlayer pos).value.radius = w.radius := by simp [value_add, placed]

@[simp] theorem radius_setRadius (radius : Int) :
    (w.setRadius radius).value.radius = max radius 1 := by simp [value_setRadius]

theorem remove_of_none (h : w.entities[id]? = none) : w.remove id = pure w := by simp [remove, h]

end World

namespace Feed

variable (f : Feed) (id : EntityId)

theorem world_add (isPlayer : Bool) (pos : Vec2) :
    (f.add id isPlayer pos).value.world = (f.world.add id isPlayer pos).value := by
  rw [value_add, world_change, World.value_add, World.value_add]
  -- the feed takes `id` out before the world does so again
  have h : ((f.world.remove id).value.remove id).value = (f.world.remove id).value := by
    rw [World.remove_of_none _ _ (by simp [World.entities_remove])]
    rfl
  unfold cleared
  split
  · rw [world_remove, h]
  · rfl

@[simp] theorem world_move (pos : Vec2) :
    (f.move id pos).value.world = (f.world.move id pos).value := rfl

@[simp] theorem world_setRadius (radius : Int) :
    (f.setRadius radius).value.world = (f.world.setRadius radius).value := rfl

@[simp] theorem world_tellSelf (s : Sighting) : (f.tellSelf id s).value.world = f.world := rfl

end Feed
end Fieldwatch.Interest
