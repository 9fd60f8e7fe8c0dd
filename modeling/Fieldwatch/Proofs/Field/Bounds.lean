import Fieldwatch.Proofs.Field.Pacing
import Fieldwatch.Proofs.Npc.Roaming
import Fieldwatch.Proofs.Player.Headings

/-! Monsters stay on the plane as long as nobody is put out of reach and all steps are short. A
monster that is after a player goes by where that player is, so players have to stay in reach as
well. -/

namespace Fieldwatch

open Interest Single Vec2

variable {β : Type}

structure Player.InReach (speed : Float32) (p : Player) : Prop where
  pos : p.pos.InReach
  dir : p.dir.IsModest
  speed_eq : p.moving → p.speed = speed

namespace Player

variable {p : Player} {speed : Float32}

theorem InReach.steer (hp : p.InReach speed) (dir : Vec2) (now : Float) :
    (p.steer dir speed now).InReach speed := by
  unfold Player.steer
  dsimp only
  split
  · next hd =>
    obtain ⟨hfin, hlen⟩ := Bool.and_eq_true_iff.1 hd
    have hlen : ¬ dir.lengthSq < minInputLengthSq := by simpa using hlen
    exact ⟨hp.pos, isModest_normalize hfin threshold_le_minInputLengthSq hlen, fun _ => rfl⟩
  · exact ⟨hp.pos, isNull_zero.isModest, fun h => by cases h⟩

theorem InReach.tick (hp : p.InReach speed) {step : Float32} (hs : (speed * step).abs ≤ stride)
    (now timeout : Float) : (p.tick now timeout step).1.InReach speed ∧
      ∀ pos, (p.tick now timeout step).2 = some pos → pos.InReach := by
  unfold Player.tick
  split
  · exact ⟨⟨hp.pos, isNull_zero.isModest, fun h => by cases h⟩, fun pos h => by cases h⟩
  · split
    · next hm =>
      have hspeed := hp.speed_eq (Bool.and_eq_true_iff.1 hm).1
      have hnext : (p.next step).InReach := hp.pos.step hp.dir (hspeed ▸ hs)
      exact ⟨⟨hnext, hp.dir, hp.speed_eq⟩, fun pos h => Option.some_inj.1 h ▸ hnext⟩
    · exact ⟨hp, fun pos h => by cases h⟩

def SameCourse (q r : Player) : Prop :=
  r.pos = q.pos ∧ r.dir = q.dir ∧ r.moving = q.moving ∧ r.speed = q.speed

theorem isCarry_sameCourse : IsCarry SameCourse where
  refl _ := ⟨rfl, rfl, rfl, rfl⟩
  trans hab hbc := ⟨hbc.1.trans hab.1, hbc.2.1.trans hab.2.1, hbc.2.2.1.trans hab.2.2.1,
    hbc.2.2.2.trans hab.2.2.2⟩
  hit _ _ := ⟨rfl, rfl, rfl, rfl⟩

theorem InReach.of_sameCourse {q r : Player} (hq : q.InReach speed) (h : q.SameCourse r) :
    r.InReach speed := by
  obtain ⟨hpos, hdir, hmoving, hspeed⟩ := h
  refine ⟨hpos ▸ hq.pos, hdir ▸ hq.dir, fun hm => ?_⟩
  rw [hspeed]
  exact hq.speed_eq (hmoving ▸ hm)

end Player

def Deed.StaysInReach : Deed β → Prop
  | .handle (.enter n) => n.pos.InReach
  | .spawn _ pos => pos.InReach
  | .populate g => ∀ pos ∈ g.cells, pos.InReach
  | _ => True

def EntryInReach (r : Option Entry) : Prop := ∀ pos k, r = some (pos, k) → pos.InReach

theorem EntryInReach.tell {r : Option Entry} (hr : EntryInReach r) (j : EntityId) {o : NpcOutcome}
    (ho : o.InReach) : EntryInReach (o.tell j r) := by
  cases o with
  | activity id a => exact hr
  | attacked npc target damage => exact hr
  | moved id pos =>
    rw [NpcOutcome.tell]
    split
    · intro pos' k hk
      obtain ⟨r', -, he⟩ := Option.map_eq_some_iff.1 hk
      exact (Prod.mk.inj he).1 ▸ ho
    · exact hr
  | respawned id pos =>
    rw [NpcOutcome.tell]
    split
    · intro pos' k hk
      exact (Prod.mk.inj (Option.some_inj.1 hk)).1 ▸ ho
    · exact hr

theorem EntryInReach.foldl_tell {r : Option Entry} (hr : EntryInReach r) (j : EntityId)
    {os : List NpcOutcome} (ho : ∀ o ∈ os, o.InReach) :
    EntryInReach (os.foldl (NpcOutcome.tell j) r) := by
  induction os generalizing r with
  | nil => exact hr
  | cons o os ih =>
    obtain ⟨ho, hos⟩ := List.forall_mem_cons.1 ho
    exact ih (hr.tell j ho) hos

namespace Field

variable {f : Field β} {I : β → Prop}

structure Confined (I : β → Prop) (f : Field β) : Prop where
  mind : I f.mind
  brain : f.brain.Moderate f.config.npcStep I
  speed : (f.config.playerSpeed * f.config.playerStep).abs ≤ stride
  players : ∀ (p : EntityId) q, f.players[p]? = some q → q.InReach f.config.playerSpeed
  herd : f.herd.InReach
  world : ∀ j, EntryInReach (f.feed.world.record j)

namespace Confined

variable (hf : f.Confined I)

include hf

theorem addPlayer {n : Newcomer} (hn : n.pos.InReach) : (f.addPlayer n).value.Confined I where
  mind := hf.mind
  brain := hf.brain
  speed := hf.speed
  herd := hf.herd
  players p q hq := by
    have hp : (f.addPlayer n).value.players[p]? = _ := IdMap.getElem?_insert f.players n.id p _
    rw [hp] at hq
    split at hq
    · cases hq
      exact ⟨hn, isNull_zero.isModest, fun h => by cases h⟩
    · exact hf.players p q hq
  world j := by
    have hw : (f.addPlayer n).value.feed.world = (f.feed.world.add n.id true n.pos).value :=
      Feed.world_add _ _ _ _
    rw [hw, World.record_add]
    split
    · intro pos k hk
      exact (Prod.mk.inj (Option.some_inj.1 hk)).1 ▸ hn
    · exact hf.world j

theorem removePlayer (id : EntityId) : (f.removePlayer id).value.Confined I where
  mind := hf.mind
  brain := hf.brain
  speed := hf.speed
  herd := hf.herd
  players p q hq := by
    have hp : (f.removePlayer id).value.players[p]? = _ := IdMap.getElem?_erase f.players id p
    rw [hp] at hq
    split at hq
    · cases hq
    · exact hf.players p q hq
  world j := by
    have hw : (f.removePlayer id).value.feed.world = (f.feed.world.remove id).value := rfl
    rw [hw, World.record_remove]
    split
    · exact fun pos k hk => by cases hk
    · exact hf.world j

theorem onMove (session : EntityId) (c : MoveCommand) : (f.onMove session c).Confined I := by
  unfold Field.onMove
  split
  · exact hf
  · rcases hq : f.players[c.entity]? with _ | q
    · exact hf
    · refine ⟨hf.mind, hf.brain, hf.speed, fun p r hr => ?_, hf.herd, hf.world⟩
      rw [IdMap.getElem?_insert] at hr
      split at hr
      · cases hr
        exact (hf.players _ q hq).steer c.dir f.time
      · exact hf.players p r hr

theorem onSkill (attacker target : EntityId) : (f.onSkill attacker target).value.Confined I := by
  unfold Field.onSkill
  split
  · rcases hd : f.herd.damage target f.config.skillDamage with _ | ⟨herd, n⟩
    · exact hf
    · have hherd : herd.InReach := hf.herd.damage hd
      dsimp only
      split
      · refine ⟨hf.mind, hf.brain, hf.speed, hf.players, hherd, fun j => ?_⟩
        change EntryInReach ((f.feed.world.remove target).value.record j)
        rw [World.record_remove]
        split
        · exact fun pos k hk => by cases hk
        · exact hf.world j
      · exact ⟨hf.mind, hf.brain, hf.speed, hf.players, hherd, hf.world⟩
  · exact hf

theorem setViewRadius (radius : Int) : (f.setViewRadius radius).value.Confined I where
  mind := hf.mind
  brain := hf.brain
  speed := hf.speed
  herd := hf.herd
  players := hf.players
  world j := by
    have hw : (f.setViewRadius radius).value.feed.world = (f.feed.world.setRadius radius).value :=
      rfl
    rw [hw, World.record_setRadius]
    intro pos k hk
    obtain ⟨r, hr, he⟩ := Option.map_eq_some_iff.1 hk
    exact (Prod.mk.inj he).1 ▸ hf.world j r.1 r.2 hr

theorem spawn (t : NpcTemplate) {pos : Vec2} (hpos : pos.InReach) :
    (f.spawn t pos).value.2.Confined I where
  mind := hf.mind
  brain := hf.brain
  speed := hf.speed
  players := hf.players
  herd := hf.herd.spawn t hpos
  world j := by
    have hw : (f.spawn t pos).value.2.feed.world =
        (f.feed.world.add f.herd.nextId false pos).value := Feed.world_add _ _ _ _
    rw [hw, World.record_add]
    split
    · intro pos' k hk
      exact (Prod.mk.inj (Option.some_inj.1 hk)).1 ▸ hpos
    · exact hf.world j

theorem populate {g : SpawnGrid} (hg : ∀ pos ∈ g.cells, pos.InReach)
    {r : Effects (Nat × Field β)} (hr : f.populate g = some r) : r.value.2.Confined I := by
  have hz : ∀ x ∈ g.cells.zipIdx, x.1.InReach := fun x hx =>
    hg x.1 (List.fst_mem_of_mem_zipIdx hx)
  rw [value_populate hr]
  generalize g.cells.zipIdx = l at hz
  clear hr hg
  induction l generalizing f with
  | nil => exact hf
  | cons x l ih =>
    obtain ⟨hx, hl⟩ := List.forall_mem_cons.1 hz
    exact ih (hf.spawn (NpcTemplate.nth x.2) hx) hl

theorem playersStep : (f.playersStep f.config.playerStep).value.Confined I where
  mind := hf.mind
  brain := hf.brain
  speed := hf.speed
  herd := hf.herd
  players p q hq := by
    rw [players_playersStep] at hq
    obtain ⟨q', hq', rfl⟩ := Option.map_eq_some_iff.1 hq
    exact ((hf.players p q' hq').tick hf.speed _ _).1
  world j := by
    rw [record_playersStep]
    intro pos k hk
    obtain ⟨r, hr, he⟩ := Option.map_eq_some_iff.1 hk
    obtain ⟨rfl, -⟩ := Prod.mk.inj he
    have hr1 : r.1.InReach := hf.world j r.1 r.2 hr
    cases hs : f.strideOf f.config.playerStep j with
    | none => exact hr1
    | some goal =>
      obtain ⟨q, hq, hgoal⟩ := Option.bind_eq_some_iff.1 hs
      exact ((hf.players j q hq).tick hf.speed _ _).2 goal hgoal

theorem view : f.playerView.InReach := by
  intro id pos hpos
  rw [position_playerView] at hpos
  obtain ⟨q, hq, rfl⟩ := Option.map_eq_some_iff.1 hpos
  exact (hf.players id q hq).pos

theorem npcsStep : (f.npcsStep f.config.npcStep).value.Confined I := by
  obtain ⟨hherd, hmind, hout⟩ := hf.herd.stepped hf.brain hf.view hf.mind
  obtain ⟨feed, players, hg⟩ := exists_settled (f.thought f.config.npcStep)
    (f.outcomes f.config.npcStep)
  have hval : (f.npcsStep f.config.npcStep).value =
      { f.thought f.config.npcStep with feed := feed, players := players } := hg
  have hs := settled_npcsStep f f.config.npcStep
  refine ⟨?_, ?_, ?_, fun p r hr => ?_, ?_, fun j => ?_⟩
  · rw [hval]
    exact hmind
  · rw [hval]
    exact hf.brain
  · rw [hval]
    exact hf.speed
  · obtain ⟨q, hq, hqr⟩ :=
      (Carries.npcsStep Player.isCarry_sameCourse f.config.npcStep).record r hr
    rw [hval]
    exact (hf.players p q hq).of_sameCourse hqr
  · rw [herd_npcsStep]
    exact hherd
  · rw [hs.record]
    exact (hf.world j).foldl_tell j hout

theorem tick (dt : Float32) : (f.tick dt).value.Confined I := by
  refine tick_of f (R := fun f m => f.Confined I → m.value.Confined I) ?_ ?_ ?_ ?_ ?_ dt hf
  · exact fun f m k hm hk hf => hk (hm hf)
  · exact fun f _ _ _ hf => ⟨hf.mind, hf.brain, hf.speed, hf.players, hf.herd, hf.world⟩
  · exact fun f hf => hf.playersStep
  · exact fun f hf => hf.npcsStep
  · exact fun f hf => hf

theorem perform {d : Deed β} (hj : ¬ d.IsJob) (hd : d.StaysInReach) :
    (f.perform d).value.Confined I := by
  cases d with
  | spawn t pos => exact hf.spawn t hd
  | populate g =>
    rcases hr : f.populate g with _ | r
    · have hv : (f.perform (.populate g)).value = f := by simp [Field.perform, hr]
      rwa [hv]
    · have hv : (f.perform (.populate g)).value = r.value.2 := by simp [Field.perform, hr]
      rw [hv]
      exact hf.populate hd hr
  | handle m =>
    refine handle_of f hj hf (fun n hn => ?_) hf.removePlayer hf.onMove hf.onSkill
      hf.setViewRadius fun dt _ => hf.tick dt
    subst hn
    exact hf.addPlayer hd

end Confined

theorem confined_fresh (id : FieldId) {config : FieldConfig} {brain : Brain β} {mind : β}
    (enum : Enumeration) (hI : I mind) (hb : brain.Moderate config.npcStep I)
    (hs : (config.playerSpeed * config.playerStep).abs ≤ stride) :
    (fresh id config brain mind enum).Confined I where
  mind := hI
  brain := hb
  speed := hs
  players p q hq := by simp [fresh] at hq
  herd n hn := by simp [fresh] at hn
  world j pos k hk := by simp [fresh, World.record, Feed.empty, World.empty] at hk

/-- If nobody is put out of reach and all steps are short ones, every monster stays at a point of
the plane, and so does every record in the world; no run is long enough to bring one out of
reach. -/
theorem monsters_keep_to_the_plane (id : FieldId) (config : FieldConfig) (brain : Brain β)
    (mind : β) (enum : Enumeration) {I : β → Prop} (hI : I mind)
    (hb : brain.Moderate config.npcStep I)
    (hs : (config.playerSpeed * config.playerStep).abs ≤ stride) {ds : List (Deed β)}
    (hd : ∀ d ∈ ds, d.DoesOnly Deed.StaysInReach) :
    let f := ((fresh id config brain mind enum).run ds).value
    (∀ n ∈ f.herd.members, n.pos.isFinite ∧ n.pos.InReach ∧ n.spawnPoint.InReach) ∧
      ∀ (j : EntityId) e, f.feed.world.entities[j]? = some e → e.pos.isFinite ∧ e.pos.InReach := by
  intro f
  have hf : f.Confined I :=
    run_of_doesOnly (fun f d hj hd hf => hf.perform hj hd) (confined_fresh id enum hI hb hs) hd
  refine ⟨fun n hn => ?_, fun j e he => ?_⟩
  · have hn := hf.herd n hn
    exact ⟨hn.pos.isFinite, hn.pos, hn.spawnPoint⟩
  · have hrecord : f.feed.world.record j = some e.record := by rw [World.record, he]; rfl
    have hpos : e.pos.InReach := hf.world j e.record.1 e.record.2 hrecord
    exact ⟨hpos.isFinite, hpos⟩

def hunter : Brain Unit := ⟨fun _ _ _ => (.chase 7 6, ())⟩

def pursuit (player monster : Vec2) : List (Deed Unit) :=
  [.handle (.enter { id := 7, name := "ada", pos := player }), .spawn (NpcTemplate.nth 0) monster,
    .handle (.tick 0.125)]

theorem moderate_hunter : hunter.Moderate 0.1 fun _ => True where
  keeps _ _ _ _ := trivial
  paces _ _ _ _ _ := by
    change (Float32.abs ((if (0 : Float32) < 6 then 6 else Npc.chaseSpeed) * 0.1)) ≤ stride
    decide +kernel

/-- A monster is after a player at the other end of what is in reach. -/
theorem monsters_keep_to_the_plane_pursuit :
    let ds := pursuit ⟨1e38, 0⟩ ⟨-1e38, 0⟩
    let f := ((fresh 1 {} hunter () .byId).run ds).value
    (hunter.Moderate 0.1 (fun _ => True) ∧
        ((10 : Float32) * (0.05 : Float32)).abs ≤ stride ∧
        ∀ d ∈ ds, d.DoesOnly Deed.StaysInReach) ∧
      ∃ n, f.herd.members = [n] ∧ n.activity = .chase ∧ 0 < n.speed ∧ n.pos.isFinite := by
  intro ds f
  have hs : ((10 : Float32) * (0.05 : Float32)).abs ≤ stride := by decide +kernel
  have hd : ∀ d ∈ ds, d.DoesOnly Deed.StaysInReach := by
    simp only [ds, pursuit, List.forall_mem_cons]
    have hplayer : InReach ⟨1e38, 0⟩ := ⟨by decide +kernel, by decide +kernel⟩
    have hmonster : InReach ⟨-1e38, 0⟩ := ⟨by decide +kernel, by decide +kernel⟩
    exact ⟨hplayer, hmonster, trivial, fun _ h => nomatch h⟩
  have hseen : f.herd.members.map (fun n => (n.activity, decide (0 < n.speed))) =
      [(.chase, true)] := by decide +kernel
  obtain ⟨n, hn, he⟩ := List.map_eq_singleton_iff.1 hseen
  obtain ⟨hactivity, hspeed⟩ := Prod.mk.inj he
  have hrun : ((fresh 1 {} hunter () .byId).run ds).value = f := rfl
  have hkeep := monsters_keep_to_the_plane 1 {} hunter () .byId trivial moderate_hunter hs hd
  rw [hrun] at hkeep
  have hmem : n ∈ f.herd.members := by
    rw [hn]
    exact List.mem_singleton_self n
  obtain ⟨hfin, -⟩ := hkeep.1 n hmem
  exact ⟨⟨moderate_hunter, hs, hd⟩, n, hn, hactivity, of_decide_eq_true hspeed, hfin⟩

/-- A player and a monster at points of the plane that are too far apart: the way between them
overflows, and the monster is nowhere. -/
theorem monster_leaves_the_plane :
    let f := ((fresh 1 {} hunter () .byId).run (pursuit ⟨3e38, 0⟩ ⟨-3e38, 0⟩)).value
    (Vec2.isFinite ⟨3e38, 0⟩ = true ∧ Vec2.isFinite ⟨-3e38, 0⟩ = true ∧
        (0.1 : Float32).isFinite = true) ∧
      f.herd.members.map (·.pos.isFinite) = [false] ∧
      f.feed.world.entities[Npc.idBase + 1]?.map (·.pos.isFinite) = some false := by
  decide +kernel

end Field
end Fieldwatch
