import Fieldwatch.Proofs.Field.Confluence
import Fieldwatch.Proofs.Npc.Outcomes

/-! Leaving a field. Whoever leaves is taken out of the world before it is looked up among the
players, so that one who is no player leaves without a trace only if nothing else stands in the
world under its id. All that ever stands there besides the players are monsters: live ones, or such
as are dead for want of hit points from the start. -/

namespace Fieldwatch

open Interest

variable {β : Type}

namespace Interest

def World.spectators (w : World) (c : Sector) (id : EntityId) : List EntityId :=
  (w.cells.watchers c).toList.filter (· ≠ id)

theorem Audience.forget_of_absent {x : Audience} (hx : x.NoEmpty) {id : EntityId}
    (hs : id ∉ x.table) (hw : ∀ s, id ∉ x.of s) : x.forget id = x := by
  have htable : (x.forget id).table = x.table := by
    refine Std.ExtTreeMap.ext_getElem? fun s => ?_
    simp only [forget, Std.ExtTreeMap.getElem?_filterMap']
    rw [IdMap.getElem?_erase]
    split
    · next he => rw [he, Std.ExtTreeMap.getElem?_eq_none hs, Option.bind_none]
    · rcases hl : x.table[s]? with _ | list
      · rfl
      · have hof : x.of s = list := by simp [of, Std.ExtTreeMap.getD_eq_getD_getElem?, hl]
        have hne : list ≠ [] := hof ▸ hx s (IdMap.mem_iff_exists.2 ⟨list, hl⟩)
        have hrest : list.filter (· ≠ id) = list := by
          refine List.filter_eq_self.2 fun p hp => decide_eq_true fun he => hw s ?_
          rwa [hof, ← he]
        rw [Option.bind_some, hrest]
        simp [hne]
  exact congrArg Audience.mk htable

namespace Feed

variable {f : Feed} {id : EntityId}

theorem Consistent.remove_of_absent (h : f.Consistent) (hid : id ∉ f.world.entities) :
    f.remove id = pure f := by
  have hnone : f.world.entities[id]? = none := Std.ExtTreeMap.getElem?_eq_none hid
  have hforget : f.index.forget id = f.index := by
    refine Audience.forget_of_absent h.noEmpty (fun hs => hid (h.mem_entities hs)) fun s hm => ?_
    by_cases hs : id = s
    · exact hid (World.mem_entities_of_player (h.self_mem id (hs ▸ hm)))
    · have hv := (h.mem_of id s hs).1 hm
      rw [World.sees_of_none (.inl hnone)] at hv
      cases hv
  have hworld := World.remove_of_none _ _ hnone
  refine Emit.ext ?_ ?_
  · change { f with
      world := (f.world.remove id).value
      index := (f.index.hear (f.world.remove id).log).forget id } = f
    rw [hworld]
    exact congrArg (Feed.mk f.world · f.live) hforget
  · rw [log_remove, Feed.change, hworld, log_deliver]
    simp

end Feed
end Interest

namespace Npc

/-- Live, or without any hit points to live by. -/
def Roams (n : Npc) : Prop := 0 < n.template.maxHp → n.isAlive

variable {n : Npc} {m : Npc × List NpcOutcome} {view : PlayerView} {step : Float32}

theorem roams_spawn (id : EntityId) (t : NpcTemplate) (pos : Vec2) (delay : Float32) :
    (spawn id t pos delay).Roams := fun h => decide_eq_true h

theorem Stepped.roams (h : n.Stepped view step m) (hn : n.Roams) : m.1.Roams := by
  intro hp
  rw [h.template_eq] at hp
  rcases h with ⟨-, i, rfl⟩ | ⟨ha, -⟩
  · rw [isAlive, hp_liveStep]
    exact hn hp
  · exact (ha (hn hp)).elim

end Npc

def Message.Leaves (q : EntityId) : Message β → Prop
  | .leave player => player = q
  | .envelope session payload => session = q ∧ Envelope.decode payload = .ok .leave
  | _ => False

namespace Herd

variable {h : Herd} {view : PlayerView} {step : Float32}

theorem stepped_of_mem {l : List Npc} {ms : List (Npc × List NpcOutcome)}
    (h : List.Forall₂ (Npc.Stepped view step) l ms) {n : Npc} (hn : n ∈ l) :
    ∃ m ∈ ms, n.Stepped view step m := by
  induction h with
  | nil => cases hn
  | cons hm _ ih =>
    rcases List.mem_cons.1 hn with rfl | hn
    · exact ⟨_, List.mem_cons_self, hm⟩
    · obtain ⟨m, hms, hs⟩ := ih hn
      exact ⟨m, List.mem_cons_of_mem _ hms, hs⟩

def Harbours (h : Herd) (id : EntityId) : Prop := ∃ n ∈ h.members, n.id = id ∧ n.Roams

theorem harbours_spawn_self (t : NpcTemplate) (pos : Vec2) :
    (h.spawn t pos).Harbours h.nextId :=
  ⟨_, List.mem_append_right _ (List.mem_singleton.2 rfl), rfl, Npc.roams_spawn _ _ _ _⟩

theorem Harbours.spawn {id : EntityId} (hid : h.Harbours id) (t : NpcTemplate) (pos : Vec2) :
    (h.spawn t pos).Harbours id := by
  obtain ⟨n, hn, he⟩ := hid
  exact ⟨n, List.mem_append_left _ hn, he⟩

theorem Harbours.damage {id target : EntityId} {amount : Int} {g : Herd} {m : Npc}
    (hid : h.Harbours id) (hd : h.damage target amount = some (g, m))
    (hm : id = target → m.hp ≠ 0) : g.Harbours id := by
  obtain ⟨n, hn, rfl, hr⟩ := hid
  obtain ⟨k, hk, -, rfl, hg⟩ := damage_eq_some hd
  by_cases he : n.id = target
  · refine ⟨k.takeDamage amount, ?_, ?_, fun _ => ?_⟩
    · rw [hg]
      exact List.mem_map.2 ⟨n, hn, if_pos he⟩
    · rw [Npc.id_takeDamage, id_of_get? hk, he]
    · rw [Npc.isAlive_takeDamage]
      simpa using hm he
  · refine ⟨n, ?_, rfl, hr⟩
    rw [hg]
    exact List.mem_map.2 ⟨n, hn, if_neg he⟩

theorem harbours_step {β : Type} {brain : Brain β} {mind : β} {id : EntityId}
    (hid : h.Harbours id ∨
      ∃ pos, NpcOutcome.respawned id pos ∈ (h.step brain mind view step).2.2) :
    (h.step brain mind view step).1.Harbours id := by
  rcases hid with ⟨n, hn, rfl, hr⟩ | ⟨pos, ho⟩
  · obtain ⟨ms, hms, hg, -⟩ := step_spec brain view step h mind
    obtain ⟨m, hm, hs⟩ := stepped_of_mem hms hn
    exact ⟨m.1, hg ▸ List.mem_map_of_mem hm, hs.id_eq, hs.roams hr⟩
  · obtain ⟨n, -, m, hs, hom, -, hm⟩ := exists_of_mem_outcomes ho
    obtain ⟨hid, -, hspawn⟩ := hs.eq_of_respawned hom
    refine ⟨m.1, hm, hs.id_eq.trans hid, ?_⟩
    rw [hspawn]
    exact Npc.roams_spawn _ _ _ _

end Herd

namespace Field

variable {f g : Field β} {q : EntityId}

def Peopled (f : Field β) : Prop :=
  ∀ j, (f.feed.world.record j).isSome → j ∈ f.players ∨ f.herd.Harbours j

theorem peopled_fresh (id : FieldId) (config : FieldConfig) (brain : Brain β)
    (mind : β) (enum : Enumeration) :
    (fresh id config brain mind enum).Peopled := fun j hj => by
  simp [fresh, World.record, Feed.empty, World.empty] at hj

theorem Peopled.of_subset (hf : f.Peopled)
    (hw : ∀ j, (g.feed.world.record j).isSome → (f.feed.world.record j).isSome)
    (hp : ∀ j, (g.feed.world.record j).isSome → j ∈ f.players → j ∈ g.players)
    (hh : g.herd = f.herd) : g.Peopled := fun j hj =>
  (hf j (hw j hj)).imp (hp j hj) fun h => hh ▸ h

theorem Peopled.moveless (hf : f.Peopled) (h : f.Moveless g) : g.Peopled :=
  hf.of_subset (fun _ hj => h.world ▸ hj) (fun _ _ => (mem_players_of_places h.places).2) h.herd

theorem Peopled.addPlayer (hf : f.Peopled) (n : Newcomer) : (f.addPlayer n).value.Peopled := by
  intro j hj
  have hp : j ∈ (f.addPlayer n).value.players ↔ n.id = j ∨ j ∈ f.players :=
    (Std.ExtTreeMap.mem_insert (t := f.players)).trans (by simp)
  have hw : (f.addPlayer n).value.feed.world = (f.feed.world.add n.id true n.pos).value :=
    Feed.world_add _ _ _ _
  rw [hw, World.record_add] at hj
  rw [hp]
  split at hj
  · next he => exact .inl (.inl he.symm)
  · exact (hf j hj).imp_left .inr

theorem Peopled.removePlayer (hf : f.Peopled) (id : EntityId) :
    (f.removePlayer id).value.Peopled := by
  have hrecord : ∀ j, ((f.removePlayer id).value.feed.world.record j).isSome →
      j ≠ id ∧ (f.feed.world.record j).isSome := by
    intro j hj
    have hw : (f.removePlayer id).value.feed.world = (f.feed.world.remove id).value := rfl
    rw [hw, World.record_remove] at hj
    split at hj
    · cases hj
    · next he => exact ⟨he, hj⟩
  refine hf.of_subset (fun j hj => (hrecord j hj).2) (fun j hj hp => ?_) rfl
  have hne := (hrecord j hj).1
  exact Std.ExtTreeMap.mem_erase.2 ⟨by simpa using Ne.symm hne, hp⟩

theorem Peopled.onSkill (hf : f.Peopled) (attacker target : EntityId) :
    (f.onSkill attacker target).value.Peopled := by
  unfold Field.onSkill
  split
  · cases hd : f.herd.damage target f.config.skillDamage with
    | none => exact hf
    | some r =>
      dsimp only
      split
      · -- whoever is struck dead is taken out of the world
        intro j hj
        change ((f.feed.world.remove target).value.record j).isSome at hj
        rw [World.record_remove] at hj
        split at hj
        · cases hj
        · next he => exact (hf j hj).imp_right fun h => h.damage hd fun h' => (he h').elim
      · next h0 => exact fun j hj => (hf j hj).imp_right fun h => h.damage hd fun _ => h0
  · exact hf

theorem Peopled.setViewRadius (hf : f.Peopled) (radius : Int) :
    (f.setViewRadius radius).value.Peopled := by
  refine hf.of_subset (fun j hj => ?_) (fun _ _ hp => hp) rfl
  have hw : (f.setViewRadius radius).value.feed.world = (f.feed.world.setRadius radius).value := rfl
  rwa [hw, World.record_setRadius, Option.isSome_map] at hj

theorem Peopled.spawn (hf : f.Peopled) (t : NpcTemplate) (pos : Vec2) :
    (f.spawn t pos).value.2.Peopled := by
  intro j hj
  have hw : (f.spawn t pos).value.2.feed.world = (f.feed.world.add f.herd.nextId false pos).value :=
    Feed.world_add _ _ _ _
  have hh : (f.spawn t pos).value.2.herd = f.herd.spawn t pos := rfl
  rw [hw, World.record_add] at hj
  rw [hh]
  split at hj
  · next he => exact .inr (he ▸ Herd.harbours_spawn_self t pos)
  · exact (hf j hj).imp_right fun h => h.spawn t pos

theorem Peopled.populate (hf : f.Peopled) {g : SpawnGrid} {r : Effects (Nat × Field β)}
    (hr : f.populate g = some r) : r.value.2.Peopled := by
  rw [value_populate hr]
  generalize g.cells.zipIdx = l
  clear hr
  induction l generalizing f with
  | nil => exact hf
  | cons x l ih => exact ih (hf.spawn (NpcTemplate.nth x.2) x.1)

theorem Peopled.playersStep (hf : f.Peopled) (step : Float32) :
    (f.playersStep step).value.Peopled := by
  refine hf.of_subset (fun j hj => ?_) (fun j _ hp => ?_) rfl
  · rw [record_playersStep, Option.isSome_map] at hj
    exact hj
  · rw [Std.ExtTreeMap.mem_iff_isSome_getElem?] at hp ⊢
    rwa [players_playersStep, Option.isSome_map]

theorem Peopled.npcsStep (hf : f.Peopled) (step : Float32) : (f.npcsStep step).value.Peopled := by
  intro j hj
  have hs := settled_npcsStep f step
  rw [hs.record, NpcOutcome.isSome_foldl_tell] at hj
  rw [mem_players_of_places hs.places, herd_npcsStep]
  rcases hj with hj | hback
  · exact (hf j hj).imp_right fun h => Herd.harbours_step (.inl h)
  · exact .inr (Herd.harbours_step (.inr hback))

theorem Peopled.tick (hf : f.Peopled) (dt : Float32) : (f.tick dt).value.Peopled := by
  refine tick_of f (R := fun f m => f.Peopled → m.value.Peopled) ?_ ?_ ?_ ?_ ?_ dt hf
  · exact fun f m k hm hk hf => hk (hm hf)
  · exact fun f _ _ _ hf => hf
  · exact fun f hf => hf.playersStep _
  · exact fun f hf => hf.npcsStep _
  · exact fun f hf => hf

theorem Peopled.perform (hf : f.Peopled) {d : Deed β} (hd : ¬ d.IsJob) :
    (f.perform d).value.Peopled :=
  perform_of f hd hf (fun n _ => hf.addPlayer n) hf.removePlayer
    (fun session c => hf.moveless (moveless_onMove f session c)) hf.onSkill hf.setViewRadius
    (fun dt _ => hf.tick dt) hf.spawn fun _ _ => hf.populate

theorem peopled_lawful (id : FieldId) (config : FieldConfig) (brain : Brain β)
    (mind : β) (enum : Enumeration) {ds : List (Deed β)} (hd : ∀ d ∈ ds, d.IsLawful) :
    ((fresh id config brain mind enum).run ds).value.Peopled :=
  lawful_run_of (P := Peopled) (fun _ _ hj hf => hf.perform hj)
    (peopled_fresh id config brain mind enum) hd

theorem removePlayer_of_not_mem (hq : q ∉ f.players) :
    f.removePlayer q = f.feeding (·.remove q) := by
  have herase : f.players.erase q = f.players := by
    refine Std.ExtTreeMap.ext_getElem? fun j => ?_
    rw [IdMap.getElem?_erase]
    split
    · next hj => rw [hj, Std.ExtTreeMap.getElem?_eq_none hq]
    · rfl
  refine Emit.ext ?_ ?_
  · change { f with feed := (f.feed.remove q).value, players := f.players.erase q } = _
    rw [herase]
    rfl
  · change (f.feeding (·.remove q)).log ++ ((if q ∈ f.players then _ else []) ++ []) = _
    rw [if_neg hq]
    exact List.append_nil _

theorem log_remove_of_some {e : Entity} (hq : f.feed.world.entities[q]? = some e) :
    (f.feed.remove q).log =
      (if (f.feed.world.spectators e.sector q).isEmpty then []
        else [.raise .aoiEvents (f.feed.world.spectators e.sector q).length.toUInt64]) ++
      if f.feed.live then
        (f.feed.world.spectators e.sector q).map (send · (.sighting ⟨.leave, q, e.pos⟩))
      else [] := by
  have hlog : (f.feed.world.remove q).log = f.feed.world.announce e.sector ⟨.leave, q, e.pos⟩ := by
    rw [World.remove, hq]
  rw [Feed.log_remove, Feed.change, hlog, Feed.log_deliver, World.announce, List.isEmpty_map,
    List.length_map, List.map_map]
  rfl

theorem handle_of_leaves {m : Message β} (hm : m.Leaves q) :
    f.handle m = (·, .completed) <$> f.removePlayer q := by
  cases m with
  | leave player =>
    obtain rfl : player = q := hm
    rfl
  | envelope session payload =>
    obtain ⟨rfl, hp⟩ := hm
    rw [handle, hp]
    rfl
  | enter | move | skill | tick | viewRadius | job => exact hm.elim

/-- After anything that may have been done to a field, one who is no player of it leaves without a
trace, unless a monster stands in the world under its id: a live one, or one without any hit points
to lose. Such a monster is taken out of the world, out of the sight of those who saw it, while the
herd still has it. -/
theorem stranger_leaves_for_monster (id : FieldId) (config : FieldConfig) (brain : Brain β)
    (mind : β) (enum : Enumeration) (ds : List (Deed β)) (hd : ∀ d ∈ ds, d.IsLawful)
    {m : Message β} {q : EntityId} (hm : m.Leaves q) :
    let f := ((fresh id config brain mind enum).run ds).value
    q ∉ f.players →
      ((∀ n ∈ f.herd.members, n.id = q → 0 < n.template.maxHp ∧ ¬ n.isAlive) →
        f.handle m = pure (f, .completed)) ∧
      (q ∉ f.feed.world.entities → f.handle m = pure (f, .completed)) ∧
      ∀ e, f.feed.world.entities[q]? = some e →
        (∃ n ∈ f.herd.members, n.id = q ∧ (0 < n.template.maxHp → n.isAlive)) ∧
        (f.handle m).value = ({ f with feed := (f.feed.remove q).value }, .completed) ∧
        (∀ j, (f.feed.remove q).value.world.entities[j]? =
          if j = q then none else f.feed.world.entities[j]?) ∧
        (f.handle m).log =
          (if (f.feed.world.spectators e.sector q).isEmpty then []
            else [.raise .aoiEvents (f.feed.world.spectators e.sector q).length.toUInt64]) ++
          if f.feed.live then
            (f.feed.world.spectators e.sector q).map (send · (.sighting ⟨.leave, q, e.pos⟩))
          else [] := by
  intro f hq
  have hfeed : f.feed.Consistent :=
    consistent_lawful (Feed.consistent_empty config.sectorSize config.viewRadius) hd
  have hpeopled : f.Peopled := peopled_lawful id config brain mind enum hd
  have hmonster : q ∈ f.feed.world.entities → f.herd.Harbours q := fun he =>
    (hpeopled q ((World.mem_entities_iff_record ..).1 he)).resolve_left hq
  have habsent : q ∉ f.feed.world.entities → f.handle m = pure (f, .completed) := by
    intro he
    rw [handle_of_leaves hm, removePlayer_of_not_mem hq, feeding, hfeed.remove_of_absent he]
    rfl
  refine ⟨fun hnone => habsent fun he => ?_, habsent, fun e he => ?_⟩
  · obtain ⟨n, hn, hid, hr⟩ := hmonster he
    obtain ⟨hpos, hdead⟩ := hnone n hn hid
    exact hdead (hr hpos)
  · rw [handle_of_leaves hm, removePlayer_of_not_mem hq]
    refine ⟨hmonster (IdMap.mem_iff_exists.2 ⟨e, he⟩), rfl, fun j => ?_, ?_⟩
    · rw [Feed.world_remove, World.entities_remove]
    · rw [Emit.log_map, ← log_remove_of_some he]
      exact List.append_nil _

def ambush : List (Deed Unit) :=
  [.handle (.enter { id := 1, name := "ada", pos := ⟨1, 2⟩ }), .spawn (NpcTemplate.nth 0) ⟨3, 4⟩]

/-- A stranger that goes by the id of a monster makes it leave the sight of ada, alive as it is. -/
theorem monster_vanishes_alive :
    let f := ((fresh 1 {} Brain.idle () .byId).run ambush).value
    let r := f.handle (.leave (Npc.idBase + 1))
    Npc.idBase + 1 ∉ f.players ∧ Npc.idBase + 1 ∈ f.feed.world.entities ∧
      Npc.idBase + 1 ∉ r.value.1.feed.world.entities ∧ (notices r.log).map (·.receiver) = [1] ∧
      r.value.1.herd.alive = 1 := by
  decide +kernel

theorem isLawful_ambush : ∀ d ∈ ambush, d.IsLawful := by
  simp only [ambush, List.forall_mem_cons]
  exact ⟨trivial, trivial, fun _ h => nomatch h⟩

/-- By the id of nobody one leaves without a trace, by that of the monster one does not. -/
theorem stranger_leaves_for_monster_ambush :
    let f := ((fresh 1 {} Brain.idle () .byId).run ambush).value
    (∀ d ∈ ambush, d.IsLawful) ∧ 2 ∉ f.players ∧ f.handle (.leave 2) = pure (f, .completed) ∧
      Npc.idBase + 1 ∉ f.players ∧
      ∃ e, f.feed.world.entities[Npc.idBase + 1]? = some e ∧
        ∃ n ∈ f.herd.members, n.id = Npc.idBase + 1 ∧ (0 < n.template.maxHp → n.isAlive) := by
  intro f
  have h2 : 2 ∉ f.players := by decide +kernel
  have hid : Npc.idBase + 1 ∉ f.players := by decide +kernel
  obtain ⟨e, he⟩ := IdMap.mem_iff_exists.1
    (show Npc.idBase + 1 ∈ f.feed.world.entities by decide +kernel)
  have hleave : f.handle (.leave 2) = pure (f, .completed) :=
    (stranger_leaves_for_monster 1 {} Brain.idle () .byId ambush isLawful_ambush
      (m := .leave 2) rfl h2).2.1 (by decide +kernel)
  exact ⟨isLawful_ambush, h2, hleave, hid, e, he,
    ((stranger_leaves_for_monster 1 {} Brain.idle () .byId ambush isLawful_ambush
      (m := .leave (Npc.idBase + 1)) rfl hid).2.2 e he).1⟩

end Field
end Fieldwatch
