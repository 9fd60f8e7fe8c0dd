import Fieldwatch.Proofs.Field.Silence

/-! How the death of a monster becomes known, and its comeback. Those near it learn that it is dead
before it goes out of their sight; those near where it comes back see it come before they hear that
it stands idle. In between nothing is said of it. -/

namespace Fieldwatch

open Interest

variable {β : Type}

namespace Interest.Feed

variable {f : Feed} {s : EntityId} {e : Entity}

def onlookers (f : Feed) (c : Sector) (s : EntityId) : List EntityId :=
  if f.live then (f.world.cells.watchers c).toList.filter (· ≠ s) else []

theorem nodup_onlookers (f : Feed) (c : Sector) (s : EntityId) : (f.onlookers c s).Nodup := by
  unfold onlookers
  split
  · exact (nodup_toList _).filter _
  · exact List.nodup_nil

theorem Attuned.perm_onlookers (h : f.Attuned) (hs : f.world.entities[s]? = some e)
    (he : ¬ e.isPlayer) : (f.onlookers e.sector s).Perm (f.receivers s) := by
  refine (List.perm_ext_iff_of_nodup (f.nodup_onlookers _ _) (h.nodup_receivers s)).2 fun p => ?_
  unfold onlookers receivers
  split
  · have hself : s ∉ f.index.of s := fun hm => by
      obtain ⟨e', he', hi⟩ := (World.mem_players _ s).1 (h.consistent.self_mem s hm)
      exact he (Option.some.inj (hs.symm.trans he') ▸ hi)
    rw [List.mem_filter, Std.ExtTreeSet.mem_toList, h.consistent.world.mem_watchers hs]
    by_cases hp : p = s
    · subst hp
      simp [hself]
    · simp [hp, h.consistent.mem_of p s hp]
  · rfl

theorem notices_announced {g : Feed} (hl : f.live = g.live) (c : Sector) (about : Sighting) :
    notices (f.deliver (g.world.announce c about)).log =
      (g.onlookers c about.subject).map (⟨·, .sighting about⟩) := by
  rw [notices_deliver, World.announce, onlookers, hl]
  split
  · rw [List.map_map]
    rfl
  · rfl

theorem notices_remove (hs : f.world.entities[s]? = some e) : notices (f.remove s).log =
    (f.onlookers e.sector s).map (⟨·, .sighting ⟨.leave, s, e.pos⟩⟩) := by
  have hlog : (f.world.remove s).log = f.world.announce e.sector ⟨.leave, s, e.pos⟩ := by
    rw [World.remove, hs]
  rw [log_remove, change, hlog]
  exact notices_announced rfl _ _

theorem notices_add (hs : f.world.entities[s]? = none) (pos : Vec2) :
    notices (f.add s false pos).log =
      ((f.add s false pos).value.onlookers (f.world.grid.locate pos) s).map
        (⟨·, .sighting ⟨.enter, s, pos⟩⟩) := by
  have hmem : s ∉ f.world.entities := by
    rw [Std.ExtTreeMap.mem_iff_isSome_getElem?, hs]
    exact Bool.noConfusion
  have hcleared : f.cleared s = f := if_neg hmem
  have hplaced : (f.world.placed s false pos).refresh s = pure (f.world.placed s false pos) := by
    refine World.refresh_of_not_player fun e he => ?_
    rw [World.entities_placed, if_pos rfl] at he
    cases he
    exact Bool.noConfusion
  have hlog : (f.world.add s false pos).log =
      (f.world.add s false pos).value.announce (f.world.grid.locate pos) ⟨.enter, s, pos⟩ := by
    rw [World.log_add, World.remove_of_none _ _ hs, Emit.value_pure, hplaced]
    rfl
  rw [log_add, if_neg hmem, List.nil_append, hcleared, change, hlog, ← world_add]
  exact notices_announced (live_add f s false pos).symm _ _

theorem entity_put (f : Feed) (s : EntityId) (pos : Vec2) :
    (f.add s false pos).value.world.entities[s]? =
      some (Entity.newcomer f.world false pos).refreshed := by
  rw [world_add, World.entities_add, if_pos rfl]

end Interest.Feed

namespace Field

variable {f : Field β}

def Overlooks (f : Field β) (p : EntityId) (pos : Vec2) : Prop :=
  ∃ q ∈ f.players[p]?,
    ((f.feed.world.grid.locate q.pos).x - (f.feed.world.grid.locate pos).x).natAbs ≤
      f.feed.world.radius ∧
    ((f.feed.world.grid.locate q.pos).y - (f.feed.world.grid.locate pos).y).natAbs ≤
      f.feed.world.radius

instance (f : Field β) (p : EntityId) (pos : Vec2) : Decidable (f.Overlooks p pos) :=
  inferInstanceAs (Decidable (∃ q ∈ f.players[p]?, _ ∧ _))

structure Charted (f : Field β) : Prop where
  attuned : f.feed.Attuned
  players : ∀ p, p ∈ f.feed.world.players ↔ p ∈ f.players
  places : ∀ (p : EntityId) (q : Player), f.players[p]? = some q →
    (f.feed.world.record p).map Prod.fst = some q.pos

theorem Agrees.place_player (hf : f.Agrees) {p : EntityId} {q : Player}
    (hq : f.players[p]? = some q) : (f.feed.world.record p).map Prod.fst = some q.pos := by
  rw [hf.record, Field.record, hq]
  rfl

theorem Calm.charted (hf : f.Calm) : f.Charted :=
  ⟨hf.attuned, fun _ => hf.agrees.mem_players_iff, fun _ _ => hf.agrees.place_player⟩

theorem Calm.charted_telling (hf : f.Calm) {step : Float32} {told rest : List NpcOutcome}
    (ho : f.outcomes step = told ++ rest) :
    (told.foldlM settle (f.thought step)).value.Charted where
  attuned := hf.attuned_telling step told
  players p := hf.mem_players_telling ho
  places p q hq := by
    have hplace := (settled_telling f step told).places p
    rw [hq, Option.map_some, eq_comm] at hplace
    obtain ⟨q', hq', hpos⟩ := Option.map_eq_some_iff.1 hplace
    have hp : p ∈ f.players := IdMap.mem_iff_exists.2 ⟨_, hq'⟩
    rw [hf.record_telling ho hp, hf.agrees.place_player hq', hpos]

theorem Charted.mem_receivers (hf : f.Charted) {p s : EntityId} {e : Entity}
    (hs : f.feed.world.entities[s]? = some e) :
    p ∈ f.feed.receivers s ↔ f.Overlooks p e.pos := by
  have hsector : ∀ {j : EntityId} {d : Entity}, f.feed.world.entities[j]? = some d →
      d.sector = f.feed.world.grid.locate d.pos := fun hd =>
    (hf.attuned.consistent.world.sound _ _ hd).sector_eq
  have hplace : ∀ {q : Player} {d : Entity}, f.players[p]? = some q →
      f.feed.world.entities[p]? = some d → d.pos = q.pos := fun hq hd => by
    have hrecord := hf.places p _ hq
    rw [World.record, hd] at hrecord
    exact Option.some.inj hrecord
  rw [hf.attuned.mem_receivers, hf.players]
  constructor
  · rintro ⟨hp, e', he', d, hd, hx, hy⟩
    obtain rfl : e = e' := Option.some.inj (hs.symm.trans he')
    obtain ⟨q, hq⟩ := IdMap.mem_iff_exists.1 hp
    rw [hsector hs, hsector hd, hplace hq hd] at hx hy
    exact ⟨q, hq, hx, hy⟩
  · rintro ⟨q, hq, hx, hy⟩
    have hp : p ∈ f.players := IdMap.mem_iff_exists.2 ⟨_, hq⟩
    obtain ⟨d, hd, -⟩ := (World.mem_players _ p).1 ((hf.players p).2 hp)
    rw [← hplace hq hd, ← hsector hs, ← hsector hd] at hx hy
    exact ⟨hp, e, hs, d, hd, hx, hy⟩

variable {n : Npc}

theorem Calm.exists_entity (hf : f.Calm) (hn : n ∈ f.herd.members) (ha : n.isAlive) :
    ∃ e, f.feed.world.entities[n.id]? = some e ∧ e.pos = n.pos ∧ ¬ e.isPlayer := by
  have hmem := hf.agrees.mem_entities.2 (.inr ⟨n, hn, rfl, ha⟩)
  obtain ⟨e, he⟩ := IdMap.mem_iff_exists.1 hmem
  refine ⟨e, he, hf.agrees.entity_monster hn he, hf.agrees.entity_stranger he ?_⟩
  exact hf.agrees.players_eq_none (hf.agrees.herd.idBase_lt hn)

theorem Calm.blow (hf : f.Calm) (hn : n ∈ f.herd.members) (ha : n.isAlive) {attacker : EntityId}
    (hp : attacker ∈ f.players) :
    ∃ k, (f.onSkill attacker n.id).value.herd.get? n.id = some k ∧
      k = n.takeDamage f.config.skillDamage ∧
      (k.hp ≠ 0 → notices (f.onSkill attacker n.id).log =
        (f.feed.receivers n.id).map (⟨·, .vitals n.id k.vitals⟩)) ∧
      (k.hp = 0 → ∃ rs : List EntityId, rs.Perm (f.feed.receivers n.id) ∧
        notices (f.onSkill attacker n.id).log =
          (f.feed.receivers n.id).map (⟨·, .activity n.id .dead⟩) ++
            rs.map (⟨·, .sighting ⟨.leave, n.id, n.pos⟩⟩)) := by
  obtain ⟨⟨herd, k⟩, hk⟩ : ∃ r, f.herd.damage n.id f.config.skillDamage = some r := by
    refine Option.ne_none_iff_exists'.1 fun hnone => ?_
    exact Herd.damage_eq_none.1 hnone n (hf.agrees.herd.get?_of_mem hn) ha
  obtain ⟨n', hn', -, hdamaged, -⟩ := Herd.damage_eq_some hk
  obtain rfl : n = n' := Option.some.inj ((hf.agrees.herd.get?_of_mem hn).symm.trans hn')
  have hget : herd.get? n.id = some k := by rw [Herd.get?_damage hk, if_pos rfl]
  by_cases h0 : k.hp = 0
  · rw [onSkill_of_killed hp hk h0]
    refine ⟨k, hget, hdamaged, fun hne => (hne h0).elim, fun _ => ?_⟩
    obtain ⟨e, he, hpos, hplayer⟩ := hf.exists_entity hn ha
    refine ⟨f.feed.onlookers e.sector n.id, hf.attuned.perm_onlookers he hplayer, ?_⟩
    change notices ([.lower .npcsAlive 1] ++ f.feed.activity n.id .dead ++
      ((f.feed.remove n.id).log ++ [])) = _
    rw [List.append_nil, notices_append, notices_append, Feed.activity, Feed.notices_broadcast,
      Feed.notices_remove he, hpos]
    rfl
  · rw [onSkill_of_wounded hp hk h0]
    refine ⟨k, hget, hdamaged, fun _ => ?_, fun h => (h0 h).elim⟩
    change notices (f.feed.vitals n.id k.vitals ++ []) = _
    rw [List.append_nil, Feed.vitals, Feed.notices_broadcast]

/-- Whoever comes back is seen to come before it is said to stand idle. -/
theorem notices_respawned {s : EntityId} (hs : f.feed.world.entities[s]? = none) (pos : Vec2) :
    notices (f.settle (.respawned s pos)).log =
      ((f.feed.add s false pos).value.onlookers (f.feed.world.grid.locate pos) s).map
        (⟨·, .sighting ⟨.enter, s, pos⟩⟩) ++
      ((f.feed.add s false pos).value.receivers s).map (⟨·, .activity s .idle⟩) := by
  change notices ([.raise .npcsAlive 1] ++ ((f.feed.add s false pos).log ++ [] ++
    ((f.feed.add s false pos).value.activity s .idle ++ []))) = _
  rw [List.append_nil, List.append_nil, notices_append, notices_append, Feed.notices_add hs,
    Feed.activity, Feed.notices_broadcast]
  rfl

end Field

def Moment.returning? (m : Moment β) : Option (EntityId × Vec2) :=
  match m.act with
  | .settle (.respawned s pos) => some (s, pos)
  | _ => none

theorem Moment.act_of_returning? {m : Moment β} {s : EntityId} {pos : Vec2}
    (h : m.returning? = some (s, pos)) : m.act = .settle (.respawned s pos) := by
  unfold returning? at h
  split at h
  · next ha =>
    cases h
    exact ha
  · cases h

theorem Moment.Known.comeback {m : Moment β} (h : m.Known) {s : EntityId} {pos : Vec2}
    (ha : m.act = .settle (.respawned s pos)) :
    ∃ (k : Npc) (rs : List EntityId), m.next.herd.get? s = some k ∧ k.hp = k.template.maxHp ∧
      k.spawnPoint = pos ∧ (m.next.feed.receivers s).Nodup ∧
      (∀ p, p ∈ m.next.feed.receivers s ↔ m.next.Overlooks p pos) ∧
      rs.Perm (m.next.feed.receivers s) ∧
      notices m.log = rs.map (⟨·, .sighting ⟨.enter, s, pos⟩⟩) ++
        (m.next.feed.receivers s).map (⟨·, .activity s .idle⟩) := by
  obtain ⟨f, step, told, rest, hf, ho, hfield⟩ := h.settle ha
  obtain ⟨g, a⟩ := m
  change a = _ at ha
  subst ha
  change g = _ at hfield
  obtain ⟨habsent, k, hget, hhp, hspawn⟩ := hf.respawned ho
  rw [← hfield] at habsent hget
  -- the comeback is one more outcome that is made known
  have hcharted : (g.settle (.respawned s pos)).value.Charted := by
    have hone : f.outcomes step = (told ++ [.respawned s pos]) ++ rest := by
      rw [ho, List.append_assoc]
      rfl
    have hmore := hf.charted_telling hone
    rw [List.foldlM_append, Emit.value_bind, ← hfield] at hmore
    exact hmore
  have hentity := g.feed.entity_put s pos
  refine ⟨k, _, hget, hhp, hspawn, hcharted.attuned.nodup_receivers s, fun p => ?_, ?_,
    Field.notices_respawned (Std.ExtTreeMap.getElem?_eq_none habsent) pos⟩
  · have hmem := hcharted.mem_receivers (p := p) hentity
    rwa [Entity.pos_refreshed] at hmem
  · have hperm := hcharted.attuned.perm_onlookers hentity (by simp [Entity.newcomer])
    rwa [Entity.sector_refreshed] at hperm

namespace Field

/-- What becomes known of the death of a monster in any run. A blow that a live one survives is
told, with what it has left, to the players that overlook it, each once, and nothing else is sent; a
blow that kills it is told them as its death, all of them, and then as its leaving from where it
stood. Whatever is done to the field afterwards, until it comes back nothing is said of it, or of it
hitting anybody. When it comes back it is whole again, and all that is sent is that those who
overlook the place see it come and then hear that it stands idle. -/
theorem deaths_are_announced (id : FieldId) (config : FieldConfig) (brain : Brain β)
    (mind : β) (enum : Enumeration) (ds : List (Deed β)) (hd : ∀ d ∈ ds, d.IsOrdinary)
    (hr : ((fresh id config brain mind enum).run ds).value.herd.size ≤ Herd.room) :
    let f := ((fresh id config brain mind enum).run ds).value
    (∀ n ∈ f.herd.members, n.isAlive → ∃ rs : List EntityId, rs.Nodup ∧
      (∀ p, p ∈ rs ↔ f.Overlooks p n.pos) ∧
      ∀ (d : Deed β) (attacker : EntityId), d.blow? = some (attacker, n.id) →
        attacker ∈ f.players →
        ∃ k, (f.perform d).value.herd.get? n.id = some k ∧
          k = n.takeDamage f.config.skillDamage ∧
          (0 < k.hp → notices (f.perform d).log =
            rs.map (⟨·, .vitals n.id ⟨k.hp, k.template.maxHp⟩⟩)) ∧
          (k.hp = 0 → ∃ rs' : List EntityId, rs'.Perm rs ∧ notices (f.perform d).log =
            rs.map (⟨·, .activity n.id .dead⟩) ++
              rs'.map (⟨·, .sighting ⟨.leave, n.id, n.pos⟩⟩))) ∧
    (∀ n ∈ f.herd.members, ¬ n.isAlive → ∀ es : List (Deed β), (∀ d ∈ es, d.IsOrdinary) →
      (f.run es).value.herd.size ≤ Herd.room →
      (f.run es).log = (f.timeline es).flatMap Moment.log ∧
      ∀ m ∈ (f.timeline es).takeWhile (!·.act.respawns n.id), Untold n.id m.log) ∧
    ∀ m ∈ (fresh id config brain mind enum).timeline ds, ∀ s pos,
      m.act = .settle (.respawned s pos) →
      ∃ (k : Npc) (rs rs' : List EntityId), m.next.herd.get? s = some k ∧
        k.hp = k.template.maxHp ∧ k.spawnPoint = pos ∧ rs.Nodup ∧
        (∀ p, p ∈ rs ↔ m.next.Overlooks p pos) ∧ rs'.Perm rs ∧
        notices m.log = rs'.map (⟨·, .sighting ⟨.enter, s, pos⟩⟩) ++
          rs.map (⟨·, .activity s .idle⟩) := by
  intro f
  have hfresh := calm_fresh id config brain mind enum
  have hf : f.Calm := hfresh.run hd hr
  have hsound := hf.agrees.herd
  refine ⟨fun n hn ha => ?_, fun n hn hdead es hes hroom => ⟨log_run f es, ?_⟩, ?_⟩
  · obtain ⟨e, he, hpos, -⟩ := hf.exists_entity hn ha
    refine ⟨f.feed.receivers n.id, hf.attuned.nodup_receivers n.id, fun p => ?_, ?_⟩
    · rw [← hpos]
      exact hf.charted.mem_receivers he
    · intro d attacker hblow hp
      obtain ⟨k, hget, hk, hhurt, hkilled⟩ := hf.blow hn ha hp
      rw [perform_of_blow hblow]
      exact ⟨k, hget, hk, fun h0 => hhurt (by omega), hkilled⟩
  · obtain ⟨i, hi, hid⟩ := hsound.numbered.exists_idOf hn
    refine untold_until_respawned hid.symm (hf.known hes hroom) hi ?_
    rw [hf.agrees.mem_entities]
    rintro (hp | ⟨k, hk, hkid, ha⟩)
    · exact UInt64.not_lt.2 (hf.agrees.players_le _ hp) (hsound.idBase_lt hn)
    · exact hdead (hsound.eq_of_id_eq hk hn hkid ▸ ha)
  · intro m hm s pos ha
    obtain ⟨k, rs', hget, hhp, hspawn, hrest⟩ := (hfresh.known hd hr m hm).comeback ha
    exact ⟨k, _, rs', hget, hhp, hspawn, hrest⟩

/-- Player 7 strikes a monster twice, which is more than it can take, and then waits for it. -/
theorem deaths_are_announced_to_hunter :
    let g : Field Unit :=
      fresh 1 { skillDamage := 150, npcStep := 1, npcRespawn := 1 } Brain.idle () .byId
    let blow : Deed Unit := .handle (.skill 7 (SkillCommand.encode ⟨0, Npc.idBase + 1⟩))
    let ds : List (Deed Unit) := [.handle (.enter { id := 7, name := "ada", pos := ⟨1, 2⟩ }),
      .spawn (NpcTemplate.nth 0) ⟨3, 4⟩, blow]
    (∃ n ∈ (g.run ds).value.herd.members, ∃ rs rs' : List EntityId, 7 ∈ rs ∧ rs'.Perm rs ∧
      notices ((g.run ds).value.perform blow).log = rs.map (⟨·, .activity n.id .dead⟩) ++
        rs'.map (⟨·, .sighting ⟨.leave, n.id, n.pos⟩⟩)) ∧
    ∃ m ∈ g.timeline (ds ++ [blow, .handle (.tick 1)]), ∃ (pos : Vec2) (rs rs' : List EntityId),
      7 ∈ rs ∧ rs'.Perm rs ∧
      notices m.log = rs'.map (⟨·, .sighting ⟨.enter, Npc.idBase + 1, pos⟩⟩) ++
        rs.map (⟨·, .activity (Npc.idBase + 1) .idle⟩) := by
  intro g blow ds
  have h7 : (7 : EntityId) ≤ Npc.idBase := by decide
  have hp : ∀ i, 0 < (NpcTemplate.nth i).maxHp := fun i => by rw [Herd.maxHp_nth]; decide
  have hd : ∀ d ∈ ds ++ [blow, .handle (.tick 1)], d.IsOrdinary := by
    simp only [ds, List.cons_append, List.nil_append, List.forall_mem_cons]
    exact ⟨h7, hp 0, h7, h7, trivial, fun _ h => nomatch h⟩
  constructor
  · let f := (g.run ds).value
    have hmember : (Npc.idBase + 1, true, (0 : Int), true) ∈ f.herd.members.map fun n =>
        (n.id, n.isAlive, (n.takeDamage f.config.skillDamage).hp,
          decide (f.Overlooks 7 n.pos)) := by
      decide +kernel
    obtain ⟨n, hn, he⟩ := List.mem_map.1 hmember
    obtain ⟨hid, ha, h0, hnear⟩ : n.id = Npc.idBase + 1 ∧ n.isAlive ∧
        (n.takeDamage f.config.skillDamage).hp = 0 ∧ f.Overlooks 7 n.pos := by simpa using he
    obtain ⟨rs, -, hrs, hblows⟩ := (deaths_are_announced 1
      { skillDamage := 150, npcStep := 1, npcRespawn := 1 } Brain.idle () .byId ds
      (fun d hm => hd d (List.mem_append_left _ hm)) (by decide +kernel)).1 n hn ha
    have hblow : blow.blow? = some (7, n.id) := by
      rw [hid]
      decide +kernel
    obtain ⟨k, -, rfl, -, hkilled⟩ := hblows blow 7 hblow (by decide +kernel)
    obtain ⟨rs', hperm, hsent⟩ := hkilled h0
    exact ⟨n, hn, rs, rs', (hrs 7).2 hnear, hperm, hsent⟩
  · have hback : some (Npc.idBase + 1, true) ∈ (g.timeline (ds ++ [blow, .handle (.tick 1)])).map
        fun m => m.returning?.map fun x => (x.1, decide (m.next.Overlooks 7 x.2)) := by
      decide +kernel
    obtain ⟨m, hm, he⟩ := List.mem_map.1 hback
    obtain ⟨⟨s, pos⟩, hreturn, hseen⟩ := Option.map_eq_some_iff.1 he
    obtain ⟨rfl, hnear⟩ : s = Npc.idBase + 1 ∧ m.next.Overlooks 7 pos := by simpa using hseen
    obtain ⟨k, rs, rs', -, -, -, -, hrs, hperm, hsent⟩ := (deaths_are_announced 1
      { skillDamage := 150, npcStep := 1, npcRespawn := 1 } Brain.idle () .byId
      (ds ++ [blow, .handle (.tick 1)]) hd (by decide +kernel)).2.2 m hm _ _
      (Moment.act_of_returning? hreturn)
    exact ⟨m, hm, pos, rs, rs', (hrs 7).2 hnear, hperm, hsent⟩

end Field
end Fieldwatch
