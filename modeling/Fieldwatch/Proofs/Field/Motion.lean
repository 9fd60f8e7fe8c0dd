import Fieldwatch.Proofs.Field.Agreement

/-! The passing of time leaves tables and feed in agreement. The players' steps are forwarded one
by one; it does not matter in which order. In a step of the monsters the herd is ahead of the feed
until the last outcome has been made known. -/

namespace Fieldwatch

open Interest

/-- Whatever orders the steps may take, some enumeration has them. -/
theorem Enumeration.exists_order_eq (o : Nat → IdMap Player → List EntityId) :
    ∃ enum : Enumeration, ∀ n players, (o n players).Perm players.keys →
      enum.order n players = o n players := by
  classical
  refine ⟨⟨fun n players => if (o n players).Perm players.keys then o n players else players.keys,
    fun n players => ?_⟩, fun n players h => if_pos h⟩
  split
  · next h => exact h
  · exact .refl _

namespace Field

variable {β : Type} {f : Field β}

def strideOf (f : Field β) (step : Float32) (id : EntityId) : Option Vec2 :=
  f.players[id]?.bind fun p => (p.tick f.time (Binary.widen f.config.idleTimeout) step).2

theorem pos_tick (p : Player) (now timeout : Float) (step : Float32) :
    (p.tick now timeout step).1.pos = (p.tick now timeout step).2.getD p.pos := by
  unfold Player.tick
  split
  · rfl
  · split <;> rfl

def displaced (w : World) (moves : List (EntityId × Vec2)) : World :=
  moves.foldl (fun w x => (w.move x.1 x.2).value) w

theorem world_foldlM_move (feed : Feed) (moves : List (EntityId × Vec2)) :
    (moves.foldlM (fun (feed : Feed) (id, pos) => feed.move id pos) feed).value.world =
      displaced feed.world moves := by
  induction moves generalizing feed with
  | nil => rfl
  | cons x moves ih => exact ih _

theorem radius_displaced (w : World) (moves : List (EntityId × Vec2)) :
    (displaced w moves).radius = w.radius := by
  induction moves generalizing w with
  | nil => rfl
  | cons x moves ih => exact (ih _).trans (World.radius_move ..)

theorem record_displaced (goal : EntityId → Option Vec2) (order : List EntityId) (w : World)
    (j : EntityId) :
    (displaced w (order.filterMap fun id => (goal id).map fun pos => (id, pos))).record j =
      (w.record j).map fun r => ((if j ∈ order then goal j else none).getD r.1, r.2) := by
  induction order generalizing w with
  | nil => simp [displaced]
  | cons id order ih =>
    cases hg : goal id with
    | none =>
      rw [List.filterMap_cons_none (by rw [hg]; rfl), ih]
      by_cases hj : j = id
      · simp [hj, hg]
      · simp [hj]
    | some pos =>
      rw [List.filterMap_cons_some (b := (id, pos)) (by rw [hg]; rfl)]
      refine (ih _).trans ?_
      rw [World.record_move]
      -- everyone has one goal, so it does not matter how often they are moved there
      by_cases hj : j = id
      · have hpos : (if id ∈ order then some pos else none).getD pos = pos := by split <;> rfl
        simp [hj, hg, hpos, Function.comp_def]
      · simp [hj]

def movesIn (f : Field β) (order : List EntityId) (step : Float32) : List (EntityId × Vec2) :=
  order.filterMap fun id => (f.strideOf step id).map fun pos => (id, pos)

section Walking

variable (f : Field β) (step : Float32) (walked : IdMap Player × List (EntityId × Vec2))
  (id : EntityId)

theorem getElem?_visit (j : EntityId) :
    (f.visit step walked id).1[j]? = if j = id then walked.1[j]?.map fun p =>
      (p.tick f.time (Binary.widen f.config.idleTimeout) step).1 else walked.1[j]? := by
  unfold visit
  rcases hid : walked.1[id]? with _ | p
  · change walked.1[j]? = _
    by_cases hj : j = id
    · rw [if_pos hj, hj, hid, Option.map_none]
    · rw [if_neg hj]
  · exact World.getElem?_insert_of_some hid
      (fun p : Player => (p.tick f.time (Binary.widen f.config.idleTimeout) step).1) j

theorem moves_visit : (f.visit step walked id).2 = walked.2 ++ (walked.1[id]?.bind fun p =>
    (p.tick f.time (Binary.widen f.config.idleTimeout) step).2.map fun pos => (id, pos)).toList := by
  unfold visit
  rcases walked.1[id]? with _ | p
  · exact (List.append_nil _).symm
  · rfl

/-- A walk that visits nobody twice finds everybody as the table had them at its start. -/
theorem foldl_visit {order : List EntityId} (ho : order.Nodup) :
    (∀ j : EntityId, (order.foldl (f.visit step) walked).1[j]? =
      if j ∈ order then walked.1[j]?.map fun p =>
        (p.tick f.time (Binary.widen f.config.idleTimeout) step).1 else walked.1[j]?) ∧
    (order.foldl (f.visit step) walked).2 = walked.2 ++ order.filterMap fun id =>
      walked.1[id]?.bind fun p =>
        (p.tick f.time (Binary.widen f.config.idleTimeout) step).2.map fun pos => (id, pos) := by
  induction order generalizing walked with
  | nil => exact ⟨fun _ => rfl, (List.append_nil _).symm⟩
  | cons id order ih =>
    obtain ⟨hid, ho⟩ := List.nodup_cons.1 ho
    obtain ⟨hp, hm⟩ := ih (f.visit step walked id) ho
    refine ⟨fun j => ?_, ?_⟩
    · rw [List.foldl_cons, hp, getElem?_visit]
      by_cases hj : j = id
      · subst hj
        simp [hid]
      · simp [hj]
    · have hlater : ∀ j ∈ order, (f.visit step walked id).1[j]? = walked.1[j]? := by
        intro j hj
        have hne : j ≠ id := fun he => hid (he ▸ hj)
        rw [getElem?_visit, if_neg hne]
      rw [List.foldl_cons, hm, moves_visit, List.append_assoc, List.filterMap_cons,
        List.filterMap_congr fun j hj => congrArg (Option.bind · _) (hlater j hj)]
      rcases walked.1[id]? with _ | p
      · rfl
      · rcases hr : (p.tick f.time (Binary.widen f.config.idleTimeout) step).2 with _ | pos <;>
          simp [hr]

/-- A walk over the whole table moves everybody on, each from where it stood. -/
theorem walkPlayers_eq {order : List EntityId} (ho : order.Perm f.players.keys) :
    f.walkPlayers order step = feeding
      { f with
        players := f.players.map fun _ p =>
          (p.tick f.time (Binary.widen f.config.idleTimeout) step).1
        playerSteps := f.playerSteps + 1 }
      fun feed => (f.movesIn order step).foldlM (fun feed (id, pos) => feed.move id pos) feed := by
  obtain ⟨hp, hm⟩ :=
    f.foldl_visit step (f.players, []) (ho.nodup_iff.2 Std.ExtTreeMap.nodup_keys)
  have hplayers : (order.foldl (f.visit step) (f.players, [])).1 = f.players.map fun _ p =>
      (p.tick f.time (Binary.widen f.config.idleTimeout) step).1 := by
    refine Std.ExtTreeMap.ext_getElem? fun j => ?_
    rw [hp, Std.ExtTreeMap.getElem?_map]
    split
    · rfl
    · next hj =>
      have hn : f.players[j]? = none := Std.ExtTreeMap.getElem?_eq_none fun hj' =>
        hj (ho.mem_iff.2 (Std.ExtTreeMap.mem_keys.2 hj'))
      rw [hn, Option.map_none]
  have hmoves : (order.foldl (f.visit step) (f.players, [])).2 = f.movesIn order step := by
    rw [hm, List.nil_append, movesIn]
    refine List.filterMap_congr fun id _ => ?_
    rw [strideOf, Option.map_bind]
    rfl
  unfold walkPlayers
  simp only [hplayers, hmoves]

end Walking

theorem players_walkPlayers (f : Field β) {order : List EntityId} (ho : order.Perm f.players.keys)
    (step : Float32) : (f.walkPlayers order step).value.players = f.players.map fun _ p =>
      (p.tick f.time (Binary.widen f.config.idleTimeout) step).1 := by
  rw [walkPlayers_eq f step ho]
  rfl

theorem perm_order (f : Field β) : f.order.Perm f.players.keys := f.enumeration.perm _ _

theorem mem_order {id : EntityId} : id ∈ f.order ↔ id ∈ f.players :=
  f.perm_order.mem_iff.trans Std.ExtTreeMap.mem_keys

theorem world_playersStep (f : Field β) (step : Float32) :
    (f.playersStep step).value.feed.world = displaced f.feed.world (f.movesIn f.order step) := by
  rw [playersStep, walkPlayers_eq f step f.perm_order]
  exact world_foldlM_move f.feed _

theorem players_playersStep (f : Field β) (step : Float32) (j : EntityId) :
    (f.playersStep step).value.players[j]? =
      f.players[j]?.map fun p => (p.tick f.time (Binary.widen f.config.idleTimeout) step).1 := by
  rw [playersStep, f.players_walkPlayers f.perm_order]
  exact Std.ExtTreeMap.getElem?_map

theorem record_playersStep (f : Field β) (step : Float32) (j : EntityId) :
    (f.playersStep step).value.feed.world.record j =
      (f.feed.world.record j).map fun r => ((f.strideOf step j).getD r.1, r.2) := by
  rw [world_playersStep, movesIn, record_displaced]
  split
  · rfl
  · next hj =>
    have hn : f.players[j]? = none := Std.ExtTreeMap.getElem?_eq_none fun hj' =>
      hj (mem_order.2 hj')
    rw [strideOf, hn, Option.bind_none]

theorem Agrees.playersStep (hf : f.Agrees) (step : Float32) : (f.playersStep step).value.Agrees := by
  have hp := players_playersStep f step
  refine ⟨fun j => ?_, fun j hj => ?_, hf.herd⟩
  · have hradius : (f.playersStep step).value.feed.world.radius = f.feed.world.radius := by
      rw [world_playersStep, radius_displaced]
    rw [record_playersStep, hf.record, Field.record, Field.record, hradius, hp]
    cases hj : f.players[j]? with
    | none =>
      rw [strideOf, hj, Option.bind_none]
      exact Option.map_id'
    | some p =>
      rw [strideOf, hj, Option.bind_some, Option.map_some, Option.map_some, Option.map_some,
        pos_tick]
      rfl
  · rw [Std.ExtTreeMap.mem_iff_isSome_getElem?, hp, Option.isSome_map,
      ← Std.ExtTreeMap.mem_iff_isSome_getElem?] at hj
    exact hf.players_le j hj

theorem mem_whereabouts {id : EntityId} {pos : Vec2} :
    (id, pos) ∈ f.whereabouts ↔ ∃ p, f.players[id]? = some p ∧ p.pos = pos := by
  rw [whereabouts, List.mem_filterMap]
  constructor
  · rintro ⟨j, -, hj⟩
    obtain ⟨p, hp, he⟩ := Option.map_eq_some_iff.1 hj
    obtain ⟨rfl, rfl⟩ := Prod.mk.inj he
    exact ⟨p, hp, rfl⟩
  · rintro ⟨p, hp, rfl⟩
    exact ⟨id, mem_order.2 (IdMap.mem_iff_exists.2 ⟨p, hp⟩), by rw [hp]; rfl⟩

theorem position_playerView (f : Field β) (id : EntityId) :
    f.playerView.position id = f.players[id]?.map Player.pos := by
  have hview : f.playerView.position id = (f.whereabouts.find? (·.1 = id)).map (·.2) := rfl
  rcases hfind : f.whereabouts.find? (·.1 = id) with _ | ⟨j, pos⟩
  · rcases hp : f.players[id]? with _ | p
    · rw [hview, hfind]
      rfl
    · have hx : (id, p.pos) ∈ f.whereabouts := mem_whereabouts.2 ⟨p, hp, rfl⟩
      exact absurd (decide_eq_true rfl) (List.find?_eq_none.1 hfind _ hx)
  · obtain ⟨p, hp, rfl⟩ := mem_whereabouts.1 (List.mem_of_find?_eq_some hfind)
    have hj := List.find?_some hfind
    obtain rfl : j = id := of_decide_eq_true hj
    rw [hview, hfind, hp]
    rfl

theorem moveless_strike (f : Field β) (npc target : EntityId) (damage : Int) :
    f.Moveless (f.strike npc target damage).value := by
  unfold strike
  split
  · exact .refl f
  · next p hp => exact moveless_insert hp rfl

structure Settled (os : List NpcOutcome) (f g : Field β) : Prop where
  record : ∀ j, g.feed.world.record j = os.foldl (NpcOutcome.tell j) (f.feed.world.record j)
  radius : g.feed.world.radius = f.feed.world.radius
  places : ∀ j : EntityId, g.players[j]?.map Player.pos = f.players[j]?.map Player.pos

theorem settled_settle (f : Field β) (o : NpcOutcome) : Settled [o] f (f.settle o).value := by
  cases o with
  | activity id a => exact ⟨fun _ => rfl, rfl, fun _ => rfl⟩
  | moved id pos =>
    exact ⟨fun j => World.record_move _ _ _ _, World.radius_move _ _ _, fun _ => rfl⟩
  | attacked npc target damage =>
    have h := moveless_strike f npc target damage
    exact ⟨fun j => congrArg (World.record · j) h.world, congrArg World.radius h.world, h.places⟩
  | respawned id pos =>
    have hw : (f.settle (.respawned id pos)).value.feed.world =
        (f.feed.world.add id false pos).value := Feed.world_add _ _ _ _
    refine ⟨fun j => ?_, ?_, fun _ => rfl⟩
    · rw [hw, World.record_add]
      rfl
    · rw [hw, World.radius_add]

theorem settled_foldlM (f : Field β) (os : List NpcOutcome) :
    Settled os f (os.foldlM settle f).value := by
  induction os generalizing f with
  | nil => exact ⟨fun _ => rfl, rfl, fun _ => rfl⟩
  | cons o os ih =>
    have ho := settled_settle f o
    have hos := ih (f.settle o).value
    rw [List.foldlM_cons, Emit.value_bind]
    refine ⟨fun j => ?_, hos.radius.trans ho.radius, fun j => (hos.places j).trans (ho.places j)⟩
    rw [hos.record, ho.record]
    rfl

theorem settled_npcsStep (f : Field β) (step : Float32) :
    Settled (f.herd.step f.brain f.mind f.playerView step).2.2 f (f.npcsStep step).value := by
  obtain ⟨hr, hrad, hp⟩ := settled_foldlM { f with
    herd := (f.herd.step f.brain f.mind f.playerView step).1
    mind := (f.herd.step f.brain f.mind f.playerView step).2.1
    npcSteps := f.npcSteps + 1 } (f.herd.step f.brain f.mind f.playerView step).2.2
  exact ⟨hr, hrad, hp⟩

theorem Agrees.npcsStep (hf : f.Agrees) (step : Float32) : (f.npcsStep step).value.Agrees := by
  have hs := settled_npcsStep f step
  refine ⟨fun j => ?_, fun j hj => hf.players_le j ((mem_players_of_places hs.places).1 hj), ?_⟩
  · rw [hs.record, hf.record, record_eq_places, record_eq_places, hs.places, hs.radius, herd_npcsStep]
    cases hj : f.players[j]? with
    | none => exact Herd.record_step hf.herd _ _ j
    | some p =>
      -- no outcome is about a player
      refine NpcOutcome.foldl_tell_of_ne (fun o ho he => ?_) _
      obtain ⟨n, hn, hno⟩ := List.mem_map.1 (Herd.subject_step _ _ ho)
      have hp := hf.players_eq_none (hno ▸ hf.herd.idBase_lt hn)
      rw [← he, hj] at hp
      cases hp
  · rw [herd_npcsStep]
    exact hf.herd.of_same (Herd.same_step _ _ _ _ _)

theorem Agrees.tick (hf : f.Agrees) (dt : Float32) : (f.tick dt).value.Agrees := by
  refine tick_of f (R := fun f m => f.Agrees → m.value.Agrees) ?_ ?_ ?_ ?_ ?_ dt hf
  · exact fun f m k hm hk hf => hk (hm hf)
  · exact fun f _ _ _ hf => hf.moveless ⟨rfl, rfl, fun _ => rfl⟩
  · exact fun f hf => hf.playersStep _
  · exact fun f hf => hf.npcsStep _
  · exact fun f hf => hf

end Field
end Fieldwatch
