import Fieldwatch.Proofs.Field.Motion

/-! Where players can get to. Whatever they send, and however fast and in whatever steps they are
moved, they stay at points of the plane; and they are where their records in the world say, short of
a monster that goes by the same id. -/

namespace Fieldwatch

open Interest

variable {β : Type}

theorem Player.isFinite_tick {p : Player} (h : p.pos.isFinite) (now timeout : Float)
    (step : Float32) : (p.tick now timeout step).1.pos.isFinite := by
  unfold Player.tick
  split
  · exact h
  · split
    · next hm => exact (Bool.and_eq_true_iff.1 hm).2
    · exact h

def Deed.EntersFinite : Deed β → Prop
  | .handle (.enter n) => n.pos.isFinite
  | _ => True

def Herd.Spares (h : Herd) (id : EntityId) : Prop := ∀ n ∈ h.members, n.id ≠ id

theorem Herd.spares_iff {h : Herd} {id : EntityId} :
    h.Spares id ↔ id ∉ h.members.map Npc.id := by
  simp [Spares]

theorem Herd.Same.spares {h g : Herd} (hs : h.Same g) {id : EntityId} :
    g.Spares id ↔ h.Spares id := by
  rw [spares_iff, spares_iff, hs.ids]

theorem Herd.Spares.of_spawn {h : Herd} {t : NpcTemplate} {pos : Vec2} {id : EntityId}
    (hid : (h.spawn t pos).Spares id) : h.Spares id ∧ id ≠ h.nextId :=
  ⟨fun n hn => hid n (List.mem_append_left _ hn),
    (hid _ (List.mem_append_right _ (List.mem_singleton_self _))).symm⟩

namespace Field

variable {f g : Field β}

/-- Every player is at a point of the plane, and at the same one in the world unless a monster goes
by its id. -/
def Grounded (f : Field β) : Prop := ∀ (p : EntityId) q, f.players[p]? = some q →
  q.pos.isFinite ∧ (f.herd.Spares p → ∃ r, f.feed.world.record p = some (q.pos, some r))

theorem grounded_fresh (id : FieldId) (config : FieldConfig) (brain : Brain β)
    (mind : β) (enum : Enumeration) :
    (fresh id config brain mind enum).Grounded := fun p q hq => by simp [fresh] at hq

theorem Grounded.of_places (hf : f.Grounded)
    (hp : ∀ (j : EntityId) pos, g.players[j]?.map Player.pos = some pos →
      f.players[j]?.map Player.pos = some pos)
    (hh : ∀ j, g.herd.Spares j → f.herd.Spares j)
    (hw : ∀ j ∈ g.players, g.herd.Spares j → ∀ pos r, f.feed.world.record j = some (pos, some r) →
      ∃ r, g.feed.world.record j = some (pos, some r)) : g.Grounded := by
  intro p q hq
  obtain ⟨q', hq', he⟩ := Option.map_eq_some_iff.1 (hp p q.pos (by rw [hq, Option.map_some]))
  obtain ⟨hfin, hrecord⟩ := hf p q' hq'
  rw [he] at hfin hrecord
  refine ⟨hfin, fun hs => ?_⟩
  obtain ⟨r, hr⟩ := hrecord (hh p hs)
  exact hw p (IdMap.mem_iff_exists.2 ⟨q, hq⟩) hs q.pos r hr

theorem Grounded.moveless (hf : f.Grounded) (h : f.Moveless g) : g.Grounded :=
  hf.of_places (fun j _ hj => (h.places j).symm.trans hj) (fun _ hj => h.herd ▸ hj)
    fun _ _ _ _ r hr => ⟨r, h.world ▸ hr⟩

theorem Grounded.addPlayer (hf : f.Grounded) {n : Newcomer} (hn : n.pos.isFinite) :
    (f.addPlayer n).value.Grounded := by
  intro p q hq
  have hp : (f.addPlayer n).value.players[p]? = _ := IdMap.getElem?_insert f.players n.id p _
  have hw : (f.addPlayer n).value.feed.world = (f.feed.world.add n.id true n.pos).value :=
    Feed.world_add _ _ _ _
  rw [hp] at hq
  rw [hw, World.record_add]
  split at hq
  · next he =>
    cases hq
    exact ⟨hn, fun _ => ⟨_, if_pos he⟩⟩
  · next he =>
    rw [if_neg he]
    exact hf p q hq

theorem Grounded.removePlayer (hf : f.Grounded) (id : EntityId) :
    (f.removePlayer id).value.Grounded := by
  intro p q hq
  have hp : (f.removePlayer id).value.players[p]? = _ := IdMap.getElem?_erase f.players id p
  have hw : (f.removePlayer id).value.feed.world = (f.feed.world.remove id).value := rfl
  rw [hp] at hq
  rw [hw, World.record_remove]
  split at hq
  · cases hq
  · next he =>
    rw [if_neg he]
    exact hf p q hq

theorem Grounded.onSkill (hf : f.Grounded) (attacker target : EntityId) :
    (f.onSkill attacker target).value.Grounded := by
  unfold Field.onSkill
  split
  · cases hd : f.herd.damage target f.config.skillDamage with
    | none => exact hf
    | some r =>
      have hspares : ∀ j, r.1.Spares j → f.herd.Spares j := fun j =>
        (Herd.same_damage hd).spares.1
      dsimp only
      split
      · -- whoever is struck is a monster, and no player that a monster spares goes by its id
        obtain ⟨n, hn, -⟩ := Herd.damage_eq_some hd
        refine hf.of_places (fun _ _ h => h) hspares fun j _ hj pos k hk => ⟨k, ?_⟩
        have hne : j ≠ target := fun he =>
          hspares j hj n (Herd.mem_of_get? hn) ((Herd.id_of_get? hn).trans he.symm)
        change (f.feed.world.remove target).value.record j = _
        rw [World.record_remove, if_neg hne, hk]
      · exact hf.of_places (fun _ _ h => h) hspares fun _ _ _ _ k hk => ⟨k, hk⟩
  · exact hf

theorem Grounded.setViewRadius (hf : f.Grounded) (radius : Int) :
    (f.setViewRadius radius).value.Grounded := by
  refine hf.of_places (fun _ _ h => h) (fun _ h => h) fun j _ _ pos k hk => ⟨max radius 1, ?_⟩
  have hw : (f.setViewRadius radius).value.feed.world = (f.feed.world.setRadius radius).value := rfl
  rw [hw, World.record_setRadius, hk]
  rfl

theorem Grounded.spawn (hf : f.Grounded) (t : NpcTemplate) (pos : Vec2) :
    (f.spawn t pos).value.2.Grounded := by
  refine hf.of_places (fun _ _ h => h) (fun j hj => (Herd.Spares.of_spawn hj).1)
    fun j _ hj pos' k hk => ⟨k, ?_⟩
  have hw : (f.spawn t pos).value.2.feed.world = (f.feed.world.add f.herd.nextId false pos).value :=
    Feed.world_add _ _ _ _
  rw [hw, World.record_add, if_neg (Herd.Spares.of_spawn hj).2, hk]

theorem Grounded.populate (hf : f.Grounded) {g : SpawnGrid} {r : Effects (Nat × Field β)}
    (hr : f.populate g = some r) : r.value.2.Grounded := by
  rw [value_populate hr]
  generalize g.cells.zipIdx = l
  clear hr
  induction l generalizing f with
  | nil => exact hf
  | cons x l ih => exact ih (hf.spawn (NpcTemplate.nth x.2) x.1)

theorem Grounded.playersStep (hf : f.Grounded) (step : Float32) :
    (f.playersStep step).value.Grounded := by
  intro j q hq
  rw [players_playersStep] at hq
  obtain ⟨p, hp, rfl⟩ := Option.map_eq_some_iff.1 hq
  obtain ⟨hfin, hrecord⟩ := hf j p hp
  refine ⟨p.isFinite_tick hfin _ _ _, fun hs => ?_⟩
  obtain ⟨r, hr⟩ := hrecord hs
  refine ⟨r, ?_⟩
  rw [record_playersStep, hr, strideOf, hp, pos_tick]
  rfl

theorem Grounded.npcsStep (hf : f.Grounded) (step : Float32) :
    (f.npcsStep step).value.Grounded := by
  have hs := settled_npcsStep f step
  have hspares : ∀ j, (f.npcsStep step).value.herd.Spares j → f.herd.Spares j := fun j hj => by
    rw [herd_npcsStep] at hj
    exact (Herd.same_step _ _ _ _ _).spares.1 hj
  refine hf.of_places (fun j _ hj => (hs.places j).symm.trans hj) hspares
    fun j _ hj pos k hk => ⟨k, ?_⟩
  -- all outcomes are about monsters
  rw [hs.record, NpcOutcome.foldl_tell_of_ne (fun o ho he => ?_), hk]
  obtain ⟨n, hn, hno⟩ := List.mem_map.1 (Herd.subject_step _ _ ho)
  exact hspares j hj n hn (hno.trans he.symm)

theorem Grounded.tick (hf : f.Grounded) (dt : Float32) : (f.tick dt).value.Grounded := by
  refine tick_of f (R := fun f m => f.Grounded → m.value.Grounded) ?_ ?_ ?_ ?_ ?_ dt hf
  · exact fun f m k hm hk hf => hk (hm hf)
  · exact fun f _ _ _ hf => hf
  · exact fun f hf => hf.playersStep _
  · exact fun f hf => hf.npcsStep _
  · exact fun f hf => hf

theorem Grounded.perform (hf : f.Grounded) {d : Deed β} (hj : ¬ d.IsJob) (hd : d.EntersFinite) :
    (f.perform d).value.Grounded := by
  refine perform_of f hj hf (fun n hn => ?_) hf.removePlayer
    (fun session c => hf.moveless (moveless_onMove f session c)) hf.onSkill hf.setViewRadius
    (fun dt _ => hf.tick dt) hf.spawn fun _ _ => hf.populate
  subst hn
  exact hf.addPlayer hd

theorem numbered_perform (hh : f.herd.Numbered) {d : Deed β} (hd : ¬ d.IsJob) :
    (f.perform d).value.herd.Numbered := by
  refine perform_of f (P := fun g => g.herd.Numbered) hd hh (fun _ _ => hh) (fun _ => hh)
    (fun session c => ?_) (fun attacker target => hh.of_same (same_onSkill f attacker target))
    (fun _ => hh) (fun dt _ => hh.of_same (same_tick f dt)) (fun t pos => hh.spawn t pos)
    fun g r hr => ?_
  · rw [herd_onMove]
    exact hh
  · rw [herd_populate f hr]
    exact hh.spawnEach _

/-- Whatever clients send, every player is at a point of the plane, and at the same one in its
record, unless a monster goes by its id; none goes by an id that is meant for players. -/
theorem players_keep_to_the_plane (id : FieldId) (config : FieldConfig) (brain : Brain β)
    (mind : β) (enum : Enumeration)
    {ds : List (Deed β)} (hd : ∀ d ∈ ds, d.DoesOnly Deed.EntersFinite) :
    let f := ((fresh id config brain mind enum).run ds).value
    ∀ (p : EntityId) q, f.players[p]? = some q → q.pos.isFinite ∧
      ((∀ n ∈ f.herd.members, n.id ≠ p) →
        ∃ e, f.feed.world.entities[p]? = some e ∧ e.isPlayer ∧ e.pos = q.pos) ∧
      (p ≤ Npc.idBase → f.herd.size ≤ Herd.room → ∀ n ∈ f.herd.members, n.id ≠ p) := by
  intro f p q hq
  obtain ⟨hf, hh⟩ : f.Grounded ∧ f.herd.Numbered :=
    run_of_doesOnly (P := fun f => f.Grounded ∧ f.herd.Numbered)
      (fun f d hj hd hP => ⟨hP.1.perform hj hd, numbered_perform hP.2 hj⟩)
      ⟨grounded_fresh id config brain mind enum, Herd.numbered_empty _⟩ hd
  obtain ⟨hfin, hrecord⟩ := hf p q hq
  refine ⟨hfin, fun hs => ?_, fun hp hr n hn he => ?_⟩
  · obtain ⟨r, hr⟩ := hrecord hs
    obtain ⟨e, he, hrec⟩ := Option.map_eq_some_iff.1 hr
    exact ⟨e, he, Entity.of_record hrec⟩
  · exact UInt64.not_lt.2 hp (he ▸ hh.idBase_lt hr hn)

/-- A player asks for no direction, then sets out faster than anything and stays where it is. -/
theorem players_keep_to_the_plane_stray :
    let ds : List (Deed Unit) := [.handle (.enter { id := 7, name := "ada", pos := ⟨1, 2⟩ }),
      .handle (.move 7 (MoveCommand.encode ⟨7, Float32.toBits (0 / 0), 0⟩)),
      .handle (.move 7 (MoveCommand.encode ⟨7, Float32.toBits 1, 0⟩)), .handle (.tick 0.125)]
    let f := ((fresh 1 { playerSpeed := 1 / 0 } Brain.idle () .byId).run ds).value
    (∀ d ∈ ds, d.DoesOnly Deed.EntersFinite) ∧ ∃ q, f.players[(7 : EntityId)]? = some q ∧
      q.moving ∧ q.pos.isFinite ∧
      ∃ e, f.feed.world.entities[(7 : EntityId)]? = some e ∧ e.isPlayer ∧ e.pos = q.pos := by
  intro ds f
  have hd : ∀ d ∈ ds, d.DoesOnly Deed.EntersFinite := by
    simp only [ds, List.forall_mem_cons]
    have hpos : Vec2.isFinite ⟨1, 2⟩ := by decide +kernel
    exact ⟨hpos, trivial, trivial, trivial, fun _ h => nomatch h⟩
  have hplayer : f.players[(7 : EntityId)]?.map Player.moving = some true := by decide +kernel
  obtain ⟨q, hq, hmoving⟩ := Option.map_eq_some_iff.1 hplayer
  obtain ⟨hfin, hrecord, hids⟩ :=
    players_keep_to_the_plane 1 { playerSpeed := 1 / 0 } Brain.idle () .byId hd 7 q hq
  exact ⟨hd, q, hq, hmoving, hfin, hrecord (hids (by decide) (by decide +kernel))⟩

def drover : Brain Unit := ⟨fun _ _ _ => (.wander ⟨1, 0⟩ 1, ())⟩

def abduction : List (Deed Unit) :=
  [.spawn (NpcTemplate.nth 0) ⟨1 / 0, 0⟩,
    .handle (.enter { id := Npc.idBase + 1, name := "ada", pos := ⟨1, 2⟩ }), .handle (.tick 0.125)]

/-- The monster takes along the record of the player, but not the player. -/
theorem record_leaves_the_plane :
    let f := ((fresh 1 {} drover () .byId).run abduction).value
    (∀ d ∈ abduction, d.EntersFinite ∧ ¬ d.IsJob) ∧
      ∃ q e, f.players[Npc.idBase + 1]? = some q ∧ q.pos.isFinite ∧
        f.feed.world.entities[Npc.idBase + 1]? = some e ∧ e.isPlayer ∧ ¬ e.pos.isFinite := by
  intro f
  have hd : ∀ d ∈ abduction, d.EntersFinite ∧ ¬ d.IsJob := by
    simp only [abduction, List.forall_mem_cons]
    have hpos : Vec2.isFinite ⟨1, 2⟩ := by decide +kernel
    exact ⟨⟨trivial, not_false⟩, ⟨hpos, not_false⟩, ⟨trivial, not_false⟩, fun _ h => nomatch h⟩
  have hplayer : f.players[Npc.idBase + 1]?.map (·.pos.isFinite) = some true := by decide +kernel
  have hentity : f.feed.world.entities[Npc.idBase + 1]?.map
      (fun e => (e.isPlayer, e.pos.isFinite)) = some (true, false) := by decide +kernel
  obtain ⟨q, hq, hfin⟩ := Option.map_eq_some_iff.1 hplayer
  obtain ⟨e, he, hrec⟩ := Option.map_eq_some_iff.1 hentity
  obtain ⟨hp, hpos⟩ := Prod.mk.inj hrec
  exact ⟨hd, q, e, hq, hfin, he, hp, by rw [hpos]; decide⟩

end Field
end Fieldwatch
