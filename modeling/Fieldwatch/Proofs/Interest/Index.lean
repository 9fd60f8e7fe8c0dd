import Fieldwatch.Interest.Feed
import Fieldwatch.Proofs.Interest.Hearing
import Fieldwatch.Proofs.Interest.Sufficiency

/-! The index of a feed never looks at the world. It hears what players are told, and forgets whom
the feed takes out; that is enough for it to know exactly who sees whom. -/

namespace Fieldwatch.Interest.Feed

def apply (f : Feed) : Change → Effects Feed
  | .add id isPlayer pos => f.add id isPlayer pos
  | .remove id => f.remove id
  | .move id pos => f.move id pos
  | .refresh id => f.refresh id
  | .setRadiusOf id radius => f.setRadiusOf id radius
  | .setRadius radius => f.setRadius radius

def after (f : Feed) (cs : List (Bool × Change)) : Feed :=
  cs.foldl (fun f (live, c) => (apply { f with live := live } c).value) f

variable {f : Feed} {id p s : EntityId}

@[simp] theorem world_change (op : World → Emit Delivery World) :
    (f.change op).value.world = (op f.world).value := rfl

@[simp] theorem index_change (op : World → Emit Delivery World) :
    (f.change op).value.index = f.index.hear (op f.world).log := rfl

@[simp] theorem live_change (op : World → Emit Delivery World) :
    (f.change op).value.live = f.live := rfl

@[simp] theorem world_remove : (f.remove id).value.world = (f.world.remove id).value := rfl

@[simp] theorem index_remove :
    (f.remove id).value.index = (f.index.hear (f.world.remove id).log).forget id := rfl

@[simp] theorem live_remove : (f.remove id).value.live = f.live := rfl

def cleared (f : Feed) (id : EntityId) : Feed :=
  if id ∈ f.world.entities then (f.remove id).value else f

theorem value_add (isPlayer : Bool) (pos : Vec2) : (f.add id isPlayer pos).value =
    ((f.cleared id).change (·.add id isPlayer pos)).value := by
  unfold add cleared
  split <;> rfl

theorem world_cleared : (f.cleared id).world.entities[id]? = none := by
  unfold cleared
  split
  · simp [World.entities_remove]
  · next h => simpa using h

structure Consistent (f : Feed) : Prop where
  world : f.world.Consistent
  mem_of : ∀ p s, p ≠ s → (p ∈ f.index.of s ↔ f.world.sees p s)
  self_mem : ∀ p, p ∈ f.index.of p → p ∈ f.world.players
  nodup : ∀ s, (f.index.of s).Nodup
  noEmpty : f.index.NoEmpty

/-- A change that conveys the changes of sight keeps the index right, as long as nobody stops being
a player, and nobody that is none hears of itself. -/
theorem Consistent.change (h : f.Consistent) {op : World → Emit Delivery World}
    (hw : (op f.world).value.Consistent)
    (hc : ∀ {p s}, p ≠ s → World.Conveys f.world (op f.world).value p s (told (op f.world).log p s))
    (hp : ∀ {p}, p ∈ f.world.players → p ∈ (op f.world).value.players)
    (hs : ∀ {p}, p ∉ f.world.players → told (op f.world).log p p = []) :
    (f.change op).value.Consistent where
  world := hw
  mem_of p s hps := by
    rw [index_change, Audience.mem_of_hear, world_change]
    have hc := hc hps
    unfold World.Conveys at hc
    split <;> simp_all [h.mem_of p s hps]
  self_mem p hm := by
    rw [index_change, Audience.mem_of_hear] at hm
    by_cases hpl : p ∈ f.world.players
    · exact hp hpl
    · rw [hs hpl] at hm
      exact hp (h.self_mem p hm)
  nodup s := Audience.nodup_of_hear s _ (h.nodup s)
  noEmpty := h.noEmpty.hear _

theorem Consistent.remove (h : f.Consistent) (id : EntityId) : (f.remove id).value.Consistent where
  world := h.world.apply (.remove id)
  mem_of p s hps := by
    rw [index_remove, Audience.of_forget, world_remove]
    by_cases hs : s = id
    · simp [hs, World.sees_remove_self]
    · by_cases hp : p = id
      · simp [hs, hp, World.sees_remove_self]
      · -- nobody is told anything but of the one that goes
        have ht : told (f.world.remove id).log p s = _ := World.told_remove h.world hps
        simp only [hs, false_and, if_false] at ht
        simp [hs, hp, Audience.mem_of_hear, ht, h.mem_of p s hps, ← World.sees_remove_of_ne hp hs]
  self_mem p hm := by
    rw [index_remove, Audience.of_forget] at hm
    rw [world_remove, World.mem_players_remove]
    by_cases hp : p = id
    · simp [hp] at hm
    · simp only [hp, if_false, List.mem_filter, Audience.mem_of_hear, World.told_remove_same] at hm
      exact ⟨hp, h.self_mem p hm.1⟩
  nodup s := by
    rw [index_remove, Audience.of_forget]
    split
    · exact List.nodup_nil
    · exact (Audience.nodup_of_hear s _ (h.nodup s)).filter _
  noEmpty := Audience.noEmpty_forget id

theorem Consistent.cleared (h : f.Consistent) (id : EntityId) : (f.cleared id).Consistent := by
  unfold Feed.cleared
  split
  · exact h.remove id
  · exact h

theorem Consistent.add (h : f.Consistent) (id : EntityId) (isPlayer : Bool) (pos : Vec2) :
    (f.add id isPlayer pos).value.Consistent := by
  rw [value_add]
  have h := h.cleared id
  have hid : (f.cleared id).world.entities[id]? = none := world_cleared
  refine h.change (h.world.apply (.add id isPlayer pos))
    (fun hps => World.conveys_add h.world hps hid isPlayer pos) (fun hp => ?_)
    (fun _ => World.told_add_same h.world.linked isPlayer pos)
  rw [World.mem_players_add, if_neg]
  · exact hp
  · rintro rfl
    simp [World.mem_players, hid] at hp

theorem Consistent.move (h : f.Consistent) (id : EntityId) (pos : Vec2) :
    (f.move id pos).value.Consistent := by
  refine h.change (h.world.apply (.move id pos)) (fun hps => World.conveys_move h.world hps pos)
    (World.mem_players_move pos).2 (fun hp => ?_)
  simp [World.told_move_same h.world.linked, hp]

theorem Consistent.refresh (h : f.Consistent) (id : EntityId) : (f.refresh id).value.Consistent :=
  h.change (h.world.apply (.refresh id)) (World.conveys_refresh h.world)
    World.mem_players_refresh.2 (fun _ => World.told_refresh_same h.world.linked)

theorem Consistent.setRadiusOf (h : f.Consistent) (id : EntityId) (radius : Int) :
    (f.setRadiusOf id radius).value.Consistent :=
  h.change (h.world.apply (.setRadiusOf id radius))
    (fun hps => World.conveys_setRadiusOf h.world hps radius)
    (World.mem_players_setRadiusOf radius).2
    (fun _ => World.told_setRadiusOf_same h.world.linked radius)

theorem Consistent.setRadius (h : f.Consistent) (radius : Int) :
    (f.setRadius radius).value.Consistent :=
  h.change (h.world.apply (.setRadius radius))
    (fun hps => World.conveys_setRadius h.world hps radius)
    (World.mem_players_setRadius radius).2
    (fun _ => World.told_setRadius_same h.world.linked radius)

theorem Consistent.apply (h : f.Consistent) : ∀ c : Change, (f.apply c).value.Consistent
  | .add id isPlayer pos => h.add id isPlayer pos
  | .remove id => h.remove id
  | .move id pos => h.move id pos
  | .refresh id => h.refresh id
  | .setRadiusOf id radius => h.setRadiusOf id radius
  | .setRadius radius => h.setRadius radius

theorem Consistent.withLive (h : f.Consistent) (live : Bool) :
    Consistent { f with live := live } := ⟨h.world, h.mem_of, h.self_mem, h.nodup, h.noEmpty⟩

theorem consistent_empty (size : Float32) (radius : Int) : (empty size radius).Consistent where
  world := World.consistent_empty size radius
  mem_of p s _ := by simp [empty, World.empty, Audience.of, World.sees]
  self_mem p h := by simp [empty, Audience.of] at h
  nodup s := by simp [empty, Audience.of]
  noEmpty s h := by simp [empty] at h

theorem Consistent.after (h : f.Consistent) (cs : List (Bool × Change)) :
    (f.after cs).Consistent := by
  induction cs generalizing f with
  | nil => exact h
  | cons c cs ih => exact ih ((h.withLive c.1).apply c.2)

theorem Consistent.mem_entities (h : f.Consistent) (hs : s ∈ f.index.table) :
    s ∈ f.world.entities := by
  obtain ⟨p, hp⟩ := List.exists_mem_of_ne_nil _ (h.noEmpty s hs)
  have hsome : ∃ d, f.world.entities[s]? = some d := by
    by_cases hps : p = s
    · subst hps
      obtain ⟨d, hd, -⟩ := (World.mem_players ..).1 (h.self_mem p hp)
      exact ⟨d, hd⟩
    · obtain ⟨-, d, -, hd, -⟩ := (World.sees_eq_true_iff ..).1 ((h.mem_of p s hps).1 hp)
      exact ⟨d, hd⟩
  exact Std.ExtTreeMap.mem_iff_isSome_getElem?.2 (Option.isSome_iff_exists.2 hsome)

end Fieldwatch.Interest.Feed

namespace Fieldwatch

theorem Grid.coordinate_nonneg (g : Grid) (t : Float32) : 0 ≤ g.coordinate t := by
  unfold coordinate Sector.maxCoord
  omega

theorem Grid.coordinate_le (g : Grid) (t : Float32) : g.coordinate t ≤ Sector.maxCoord :=
  Int.min_le_right ..

theorem Grid.mem_neighbourhood_locate (g : Grid) (p q : Vec2) (radius : Int) :
    g.locate q ∈ (g.locate p).neighbourhood radius ↔
      ((g.locate p).x - (g.locate q).x).natAbs ≤ radius ∧
        ((g.locate p).y - (g.locate q).y).natAbs ≤ radius := by
  have hx := g.coordinate_nonneg q.x
  have hy := g.coordinate_nonneg q.y
  have hx' := g.coordinate_le q.x
  have hy' := g.coordinate_le q.y
  simp only [Sector.mem_neighbourhood, locate, Sector.mem_span (g.coordinate_le _)]
  omega

end Fieldwatch

namespace Fieldwatch.Interest.Feed

variable {f : Feed} {p s : EntityId}

theorem Consistent.mem_of_iff_of_some {e d : Entity} (h : f.Consistent) (hps : p ≠ s)
    (hp : f.world.entities[p]? = some e) (hs : f.world.entities[s]? = some d) :
    p ∈ f.index.of s ↔ e.isPlayer ∧ (e.sector.x - d.sector.x).natAbs ≤ e.radius ∧
      (e.sector.y - d.sector.y).natAbs ≤ e.radius := by
  have he := h.world.sound p e hp
  have hd := h.world.sound s d hs
  rw [h.mem_of p s hps, World.sees_of_some hp hs, Bool.and_eq_true, Std.ExtTreeSet.contains_iff_mem,
    he.mem_view, he.sector_eq, hd.sector_eq, Grid.mem_neighbourhood_locate, and_self_left]

theorem Consistent.mem_of_iff_within (h : f.Consistent) (hps : p ≠ s) :
    p ∈ f.index.of s ↔ ∃ e d, f.world.entities[p]? = some e ∧ f.world.entities[s]? = some d ∧
      e.isPlayer ∧ (e.sector.x - d.sector.x).natAbs ≤ e.radius ∧
        (e.sector.y - d.sector.y).natAbs ≤ e.radius := by
  constructor
  · intro hm
    obtain ⟨e, d, hp, hs, -⟩ := (World.sees_eq_true_iff ..).1 ((h.mem_of p s hps).1 hm)
    exact ⟨e, d, hp, hs, (h.mem_of_iff_of_some hps hp hs).1 hm⟩
  · rintro ⟨e, d, hp, hs, hm⟩
    exact (h.mem_of_iff_of_some hps hp hs).2 hm

/-- After any history of a feed, live or not, the index lists under a subject the players within
whose radius it stands, each once; a player may be listed under itself, and nothing is kept of those
who are gone. Players that see equally far see each other or do not. -/
theorem index_after_iff_within (size : Float32) (radius : Int) (cs : List (Bool × Change)) :
    let f := (empty size radius).after cs
    (∀ p s, p ≠ s → (p ∈ f.index.of s ↔
      ∃ e d, f.world.entities[p]? = some e ∧ f.world.entities[s]? = some d ∧ e.isPlayer ∧
        (e.sector.x - d.sector.x).natAbs ≤ e.radius ∧
          (e.sector.y - d.sector.y).natAbs ≤ e.radius)) ∧
    (∀ s, s ∈ f.index.of s → ∃ e, f.world.entities[s]? = some e ∧ e.isPlayer) ∧
    (∀ s, (f.index.of s).Nodup) ∧
    (∀ s ∈ f.index.table, s ∈ f.world.entities) ∧
    ∀ p s e d, p ≠ s → f.world.entities[p]? = some e → f.world.entities[s]? = some d →
      e.isPlayer → d.isPlayer → e.radius = d.radius → (p ∈ f.index.of s ↔ s ∈ f.index.of p) := by
  intro f
  have h : f.Consistent := (consistent_empty size radius).after cs
  refine ⟨fun p s => h.mem_of_iff_within, fun s hs => (World.mem_players ..).1 (h.self_mem s hs),
    h.nodup, fun s => h.mem_entities, ?_⟩
  intro p s e d hps hp hs he hd hr
  rw [h.mem_of_iff_of_some hps hp hs, h.mem_of_iff_of_some (Ne.symm hps) hs hp, hr]
  simp only [he, hd, true_and]
  omega

end Fieldwatch.Interest.Feed
