import Fieldwatch.Proofs.Field.Replay

/-! What each piece of work of a field sends. Changes of the feed send sightings and count them;
besides these a piece of work has few effects of its own, and they come in a fixed order. -/

namespace Fieldwatch

open Interest

def Sights (l : List Effect) : Prop := ∀ e ∈ l, ¬ e.IsQuiet

theorem sights_nil : Sights [] := fun _ he => by cases he

theorem Sights.append {l m : List Effect} (hl : Sights l) (hm : Sights m) : Sights (l ++ m) := by
  intro e he
  rcases List.mem_append.1 he with he | he
  · exact hl e he
  · exact hm e he

namespace Interest.Feed

variable (f : Feed)

theorem sights_deliver (ds : List Delivery) : Sights (f.deliver ds).log := by
  intro e he
  rw [log_deliver, List.mem_append] at he
  rcases he with he | he
  · split at he
    · cases he
    · rw [List.mem_singleton.1 he]
      exact fun h => h rfl
  · split at he
    · obtain ⟨d, -, rfl⟩ := List.mem_map.1 he
      exact Option.some_ne_none _
    · cases he

theorem sights_change (op : World → Emit Delivery World) : Sights (f.change op).log :=
  sights_deliver _ _

theorem sights_remove (id : EntityId) : Sights (f.remove id).log := by
  rw [log_remove]
  exact sights_change _ _

theorem sights_add (id : EntityId) (isPlayer : Bool) (pos : Vec2) :
    Sights (f.add id isPlayer pos).log := by
  rw [log_add]
  refine Sights.append ?_ (sights_change _ _)
  split
  · exact sights_remove f id
  · exact sights_nil

theorem sights_foldlM {α : Type} {op : Feed → α → Effects Feed}
    (h : ∀ f a, Sights (op f a).log) (as : List α) : Sights (as.foldlM op f).log := by
  induction as generalizing f with
  | nil => exact sights_nil
  | cons a as ih => exact (h f a).append (ih _)

end Interest.Feed

namespace Field

variable {β : Type} (f : Field β)

variable {f} in
theorem sights_feeding (op : Feed → Effects Feed) (h : Sights (op f.feed).log) :
    Sights (f.feeding op).log := h.append sights_nil

theorem log_addPlayer (n : Newcomer) : ∃ l, Sights l ∧ (f.addPlayer n).log =
    (if n.id ∈ f.players then [] else [.raise .playersActive 1]) ++ l :=
  ⟨_, sights_feeding _ ((Feed.sights_add _ _ _ _).append (Feed.sights_deliver _ _)), rfl⟩

theorem log_removePlayer (id : EntityId) : ∃ l, Sights l ∧ (f.removePlayer id).log =
    l ++ if id ∈ f.players then [.lower .playersActive 1] else [] :=
  ⟨(f.feeding (·.remove id)).log, sights_feeding _ (Feed.sights_remove _ _),
    congrArg ((f.feeding (·.remove id)).log ++ ·) (List.append_nil _)⟩

theorem sights_setViewRadius (radius : Int) : Sights (f.setViewRadius radius).log :=
  sights_feeding _ (Feed.sights_change _ _)

theorem log_spawn (t : NpcTemplate) (pos : Vec2) : ∃ l, Sights l ∧
    (Prod.snd <$> f.spawn t pos).log = l ++ [.raise .npcsAlive 1] := by
  have hadd : Sights (Field.feeding { f with herd := f.herd.spawn t pos }
      (·.add f.herd.nextId false pos)).log := sights_feeding _ (Feed.sights_add _ _ _ _)
  exact ⟨_, hadd, Emit.log_map _ _⟩

variable {f} in
theorem log_populate {g : SpawnGrid} {r : Effects (Nat × Field β)} (hr : f.populate g = some r) :
    ∃ l, Sights l ∧
      (Prod.snd <$> r).log = l ++ [.raise .npcsAlive g.cells.zipIdx.length.toUInt64] := by
  obtain ⟨⟨herd, spawned⟩, hp, rfl⟩ := Option.map_eq_some_iff.1 hr
  have hlen : spawned.length = g.cells.zipIdx.length := by
    rw [(Herd.populate_eq_some hp).2, List.length_map, Herd.spawned, List.length_map,
      List.length_zipIdx]
  have hadd : Sights (Field.feeding { f with herd := herd } fun feed =>
      spawned.foldlM (fun feed x => feed.add x.1 false x.2) feed).log :=
    sights_feeding _ (Feed.sights_foldlM _ (fun _ _ => Feed.sights_add _ _ _ _) _)
  rw [← hlen]
  exact ⟨_, hadd, Emit.log_map _ _⟩

theorem sights_playersStep (step : Float32) : Sights (f.playersStep step).log :=
  sights_feeding _ (Feed.sights_foldlM _ (fun _ _ => Feed.sights_change _ _) _)

theorem onSkill_of_none {attacker target : EntityId}
    (h : attacker ∈ f.players → f.herd.damage target f.config.skillDamage = none) :
    f.onSkill attacker target = pure f := by
  unfold onSkill
  split
  · next ha => rw [h ha]
  · rfl

section Struck

variable {f} {attacker target : EntityId} {herd : Herd} {n : Npc} (ha : attacker ∈ f.players)
  (hd : f.herd.damage target f.config.skillDamage = some (herd, n))

include ha hd

theorem onSkill_of_killed (h0 : n.hp = 0) : f.onSkill attacker target =
    (do emit (.lower .npcsAlive 1 :: f.feed.activity target .dead)
        Field.feeding { f with herd := herd } (·.remove target)) := by
  simp [onSkill, ha, hd, h0]

theorem onSkill_of_wounded (h0 : n.hp ≠ 0) : f.onSkill attacker target =
    (do emit (f.feed.vitals target n.vitals)
        pure { f with herd := herd }) := by
  simp [onSkill, ha, hd, h0]

end Struck

variable {f} in
theorem strike_of_some {npc target : EntityId} {damage : Int} {p : Player}
    (hp : f.players[target]? = some p) : f.strike npc target damage =
      (do emit (f.feed.hit ⟨npc, target, damage, (p.takeDamage damage).vitals.hp⟩)
          emit (f.feed.vitals target (p.takeDamage damage).vitals)
          pure { f with players := f.players.insert target (p.takeDamage damage) }) := by
  simp [strike, hp]

end Field
end Fieldwatch
