import Fieldwatch.Proofs.Field.Moments
import Fieldwatch.Proofs.Field.Sending

/-! Who is told how somebody fares. A report, of what somebody is doing or of its vitals, goes to
each player near the one it is about, once, and to nobody else; and damage is told to the one who
takes it before the others learn what it left. -/

namespace Fieldwatch

open Interest

variable {β : Type}

def Notice.isReport (n : Notice) : Bool :=
  match n.event with
  | .activity .. | .vitals .. => true
  | .sighting _ | .hit _ => false

def reports (l : List Effect) : List Notice := (notices l).filter Notice.isReport

theorem notices_append (l m : List Effect) : notices (l ++ m) = notices l ++ notices m :=
  List.filterMap_append

theorem notices_sends (ps : List EntityId) (event : Event) :
    notices (ps.map (send · event)) = ps.map (⟨·, event⟩) := by
  rw [notices, List.filterMap_map]
  exact congrFun (List.filterMap_eq_map (f := fun p => Notice.mk p event)) ps

theorem reports_append (l m : List Effect) : reports (l ++ m) = reports l ++ reports m := by
  rw [reports, notices_append, List.filter_append]
  rfl

theorem reports_of_sights {l : List Effect} (h : Sights l) : reports l = [] := by
  refine List.filter_eq_nil_iff.2 fun n hn => ?_
  obtain ⟨e, he, hen⟩ := List.mem_filterMap.1 hn
  have hq := h e he
  cases e with
  | notify n' =>
    obtain rfl : n' = n := Option.some.inj hen
    obtain ⟨receiver, event⟩ := n'
    cases event with
    | sighting | hit => exact Bool.noConfusion
    | activity | vitals => exact (hq rfl).elim
  | raise | lower | stepped => cases hen

theorem reports_sends {event : Event} (ps : List EntityId)
    (h : ∀ p, (Notice.mk p event).isReport) :
    reports (ps.map (send · event)) = ps.map (⟨·, event⟩) := by
  rw [reports, notices_sends, List.filter_eq_self]
  intro n hn
  obtain ⟨p, -, rfl⟩ := List.mem_map.1 hn
  exact h p

namespace Interest.Feed

variable (f : Feed) (s : EntityId)

theorem notices_broadcast (event : Event) :
    notices (f.broadcast s event) = (f.receivers s).map (⟨·, event⟩) := by
  rw [broadcast_eq, notices_sends]

theorem reports_activity (a : Activity) :
    reports (f.activity s a) = (f.receivers s).map (⟨·, .activity s a⟩) := by
  rw [activity, broadcast_eq, reports_sends _ fun _ => rfl]

theorem reports_vitals (v : Vitals) :
    reports (f.vitals s v) = (f.receivers s).map (⟨·, .vitals s v⟩) := by
  rw [vitals, broadcast_eq, reports_sends _ fun _ => rfl]

theorem reports_hit (h : Hit) : reports (f.hit h) = [] := by
  unfold hit
  split <;> rfl

end Interest.Feed

def Deed.blow? : Deed β → Option (EntityId × EntityId)
  | .handle (.skill session payload) =>
    (SkillCommand.decode payload).toOption.map fun c => (session, c.target)
  | .handle (.envelope session payload) =>
    match Envelope.decode payload with
    | .ok (.skill c) => some (session, c.target)
    | _ => none
  | _ => none

namespace Field

variable {f : Field β}

theorem perform_of_blow {d : Deed β} {attacker target : EntityId}
    (hd : d.blow? = some (attacker, target)) : f.perform d = f.onSkill attacker target := by
  cases d with
  | spawn | populate => cases hd
  | handle m =>
    cases m with
    | skill session payload =>
      obtain ⟨c, hc, he⟩ := Option.map_eq_some_iff.1 hd
      cases he
      rw [perform, handle, fst_done]
      cases hdec : SkillCommand.decode payload with
      | error e =>
        rw [hdec] at hc
        cases hc
      | ok c' =>
        rw [hdec] at hc
        cases hc
        rfl
    | envelope session payload =>
      rw [perform, handle, fst_done]
      unfold Deed.blow? at hd
      dsimp only at hd
      split at hd
      · next c hc =>
        cases hd
        rw [hc]
        rfl
      · cases hd
    | enter | leave | move | tick | viewRadius | job => cases hd

theorem reports_onDecoded {γ : Type} {act : γ → Effects (Field β)} {r : Except DecodeError γ}
    (h : ∀ c, r = .ok c → reports (act c).log = []) : reports (f.onDecoded act r).log = [] := by
  cases r with
  | ok c => exact h c rfl
  | error e => rfl

theorem reports_perform {d : Deed β} (hd : ¬ d.IsJob) (ht : ¬ d.IsTick) (hb : d.blow? = none) :
    reports (f.perform d).log = [] := by
  have hleave : ∀ id, reports (f.removePlayer id).log = [] := by
    intro id
    obtain ⟨l, hl, hlog⟩ := log_removePlayer f id
    rw [hlog, reports_append, reports_of_sights hl]
    split <;> rfl
  cases d with
  | spawn t pos =>
    obtain ⟨l, hl, hlog⟩ := log_spawn f t pos
    rw [perform, hlog, reports_append, reports_of_sights hl]
    rfl
  | populate g =>
    rcases hr : f.populate g with _ | r
    · simp [perform, hr, reports, notices]
    · obtain ⟨l, hl, hlog⟩ := log_populate hr
      simp only [perform, hr]
      rw [hlog, reports_append, reports_of_sights hl]
      rfl
  | handle m =>
    cases m with
    | envelope session payload =>
      rw [perform, handle, fst_done]
      refine reports_onDecoded fun c hc => ?_
      cases c with
      | move c => rfl
      | leave => exact hleave session
      | skill c => simp [Deed.blow?, hc] at hb
    | enter n =>
      obtain ⟨l, hl, hlog⟩ := log_addPlayer f n
      rw [perform, handle, fst_done, hlog, reports_append, reports_of_sights hl]
      split <;> rfl
    | leave player =>
      rw [perform, handle, fst_done]
      exact hleave player
    | move session payload =>
      rw [perform, handle, fst_done]
      exact reports_onDecoded fun _ _ => rfl
    | skill session payload =>
      rw [perform, handle, fst_done]
      refine reports_onDecoded fun c hc => ?_
      simp [Deed.blow?, hc, Except.toOption] at hb
    | tick dt => exact (ht trivial).elim
    | viewRadius radius =>
      rw [perform, handle, fst_done]
      exact reports_of_sights (sights_setViewRadius f radius)
    | job j => exact (hd trivial).elim

def blowReport? (f : Field β) (attacker target : EntityId) : Option (EntityId × Event) :=
  if attacker ∈ f.players then
    (f.herd.damage target f.config.skillDamage).map fun (_, n) =>
      (target, if n.hp = 0 then .activity target .dead else .vitals target n.vitals)
  else none

def report? (f : Field β) : Act β → Option (EntityId × Event)
  | .deed d => d.blow?.bind fun (attacker, target) => f.blowReport? attacker target
  | .settle (.activity id a) => some (id, .activity id a)
  | .settle (.attacked _ target damage) =>
    f.players[target]?.map fun p => (target, .vitals target (p.takeDamage damage).vitals)
  | .settle (.respawned id _) => some (id, .activity id .idle)
  | .settle (.moved ..) | .clocks .. | .walk _ | .think _ | .stepped => none

end Field

namespace Moment

open Fieldwatch.Field

def report? (m : Moment β) : Option (EntityId × Event) := m.field.report? m.act

/-- The feed at the time of the report: whoever comes back is put in first. -/
def scene (m : Moment β) : Feed :=
  match m.act with
  | .settle (.respawned ..) => m.next.feed
  | _ => m.field.feed

def reported (m : Moment β) : List Notice :=
  match m.report? with
  | none => []
  | some (s, event) => (m.scene.receivers s).map (⟨·, event⟩)

theorem reports_blow (f : Field β) {d : Deed β} {attacker target : EntityId}
    (hd : d.blow? = some (attacker, target)) :
    reports (f.perform d).log = reported ⟨f, .deed d⟩ := by
  have hreport : report? ⟨f, .deed d⟩ = f.blowReport? attacker target := by
    rw [report?, Field.report?, hd, Option.bind_some]
  rw [reported, hreport, perform_of_blow hd]
  by_cases hnone : attacker ∈ f.players → f.herd.damage target f.config.skillDamage = none
  · have hquiet : f.blowReport? attacker target = none := by
      unfold blowReport?
      split
      · next ha => rw [hnone ha, Option.map_none]
      · rfl
    rw [hquiet, onSkill_of_none f hnone]
    rfl
  · obtain ⟨ha, hsome⟩ := Classical.not_imp.1 hnone
    obtain ⟨⟨herd, n⟩, hn⟩ := Option.ne_none_iff_exists'.1 hsome
    by_cases h0 : n.hp = 0
    · have hdead : f.blowReport? attacker target = some (target, .activity target .dead) := by
        simp [blowReport?, ha, hn, h0]
      have hleave : Sights (Field.feeding { f with herd := herd } (·.remove target)).log :=
        sights_feeding _ (Feed.sights_remove _ _)
      rw [hdead, onSkill_of_killed ha hn h0]
      change reports ([.lower .npcsAlive 1] ++ f.feed.activity target .dead ++ _) = _
      rw [reports_append, reports_append, Feed.reports_activity, reports_of_sights hleave,
        List.append_nil]
      rfl
    · have hhurt : f.blowReport? attacker target = some (target, .vitals target n.vitals) := by
        simp [blowReport?, ha, hn, h0]
      rw [hhurt, onSkill_of_wounded ha hn h0]
      change reports (f.feed.vitals target n.vitals ++ []) = _
      rw [List.append_nil, Feed.reports_vitals]
      rfl

theorem reports_settle (f : Field β) (o : NpcOutcome) :
    reports (f.settle o).log = reported ⟨f, .settle o⟩ := by
  cases o with
  | activity id a =>
    change reports (f.feed.activity id a ++ []) = _
    rw [List.append_nil, Feed.reports_activity]
    rfl
  | moved id pos =>
    exact reports_of_sights (sights_feeding (·.move id pos) (Feed.sights_change _ _))
  | attacked npc target damage =>
    rcases hp : f.players[target]? with _ | p
    · simp [Field.settle, Field.strike, reported, report?, Field.report?, hp, reports, notices]
    · have hreport : report? ⟨f, .settle (.attacked npc target damage)⟩ =
          some (target, .vitals target (p.takeDamage damage).vitals) := by
        rw [report?, Field.report?, hp, Option.map_some]
      rw [reported, hreport, Field.settle, strike_of_some hp]
      change reports (f.feed.hit _ ++ (f.feed.vitals target _ ++ [])) = _
      rw [reports_append, List.append_nil, Feed.reports_hit, Feed.reports_vitals]
      rfl
  | respawned id pos =>
    have hadd : Sights (f.feeding (·.add id false pos)).log :=
      sights_feeding _ (Feed.sights_add _ _ _ _)
    change reports ([.raise .npcsAlive 1] ++ ((f.feeding (·.add id false pos)).log ++
      ((f.feeding (·.add id false pos)).value.feed.activity id .idle ++ []))) = _
    rw [reports_append, reports_append, List.append_nil, reports_of_sights hadd,
      Feed.reports_activity]
    rfl

theorem reports_log {m : Moment β} (hm : ∀ d, m.act = .deed d → ¬ d.IsJob ∧ ¬ d.IsTick) :
    reports m.log = m.reported := by
  obtain ⟨f, a⟩ := m
  cases a with
  | deed d =>
    rcases hb : d.blow? with _ | ⟨attacker, target⟩
    · have hnone : report? ⟨f, .deed d⟩ = none := by
        rw [report?, Field.report?, hb, Option.bind_none]
      rw [reported, hnone]
      exact Field.reports_perform (hm d rfl).1 (hm d rfl).2 hb
    · exact reports_blow f hb
  | clocks | think | stepped => rfl
  | walk step => exact reports_of_sights (sights_playersStep f _)
  | settle o => exact reports_settle f o

variable {m : Moment β}

theorem Known.attuned_scene (h : m.Known) : m.scene.Attuned := by
  unfold scene
  split
  · next ha =>
    rw [next, ha]
    exact (Feeding.settle (f := m.field) _).attuned h.attuned
  · exact h.attuned

theorem world_respawned {id : EntityId} {pos : Vec2} (ha : m.act = .settle (.respawned id pos)) :
    m.next.feed.world = (m.field.feed.world.add id false pos).value := by
  rw [next, ha]
  exact Feed.world_add _ _ _ _

theorem Known.mem_players_scene (h : m.Known) {p : EntityId} :
    p ∈ m.scene.world.players ↔ p ∈ m.field.players := by
  rw [← h.mem_players_iff]
  unfold scene
  split
  · next id pos ha =>
    obtain ⟨f, step, told, rest, hf, ho, hfield⟩ := h.settle ha
    have habsent := (hf.respawned ho).1
    rw [world_respawned ha, World.mem_players_add]
    split
    · next hp =>
      -- whoever comes back was not there, and is no player
      refine iff_of_false Bool.noConfusion fun hmem => habsent ?_
      rw [← hfield, ← hp]
      exact World.mem_entities_of_player hmem
    · rfl
  · rfl

theorem Known.mem_entities_of_player (h : m.Known) {p : EntityId} (hp : p ∈ m.field.players) :
    p ∈ m.field.feed.world.entities := World.mem_entities_of_player (h.mem_players_iff.2 hp)

theorem Known.subject_mem_entities (h : m.Known) {s : EntityId} {event : Event}
    (hr : m.report? = some (s, event)) : s ∈ m.scene.world.entities := by
  obtain ⟨f, a⟩ := m
  cases a with
  | clocks | walk | think | stepped => cases hr
  | deed d =>
    obtain ⟨⟨attacker, target⟩, -, hr⟩ := Option.bind_eq_some_iff.1 hr
    dsimp only [blowReport?] at hr
    split at hr
    · obtain ⟨⟨herd, k⟩, hk, he⟩ := Option.map_eq_some_iff.1 hr
      obtain ⟨n, hn, ha, -, -⟩ := Herd.damage_eq_some hk
      obtain rfl := (Prod.mk.inj he).1
      -- only a live monster is struck
      exact (h.deed rfl).1.agrees.mem_entities.2
        (.inr ⟨n, Herd.mem_of_get? hn, Herd.id_of_get? hn, ha⟩)
    · cases hr
  | settle o =>
    obtain ⟨g, step, told, rest, hg, ho, hfield⟩ := h.settle rfl
    change f = _ at hfield
    cases o with
    | activity id a =>
      cases hr
      rw [hfield]
      exact hg.subject_mem_entities ho rfl
    | moved id pos => cases hr
    | attacked npc target damage =>
      obtain ⟨p, hp, he⟩ := Option.map_eq_some_iff.1 hr
      cases he
      exact h.mem_entities_of_player (IdMap.mem_iff_exists.2 ⟨_, hp⟩)
    | respawned id pos =>
      cases hr
      change s ∈ (Moment.next _).feed.world.entities
      rw [world_respawned rfl, Std.ExtTreeMap.mem_iff_isSome_getElem?, World.entities_add,
        if_pos rfl]
      rfl

theorem Known.attacked (h : m.Known) {npc target : EntityId} {damage : Int}
    (ha : m.act = .settle (.attacked npc target damage)) :
    ∃ p, m.field.players[target]? = some p ∧
      m.next = { m.field with players := m.field.players.insert target (p.takeDamage damage) } ∧
      notices m.log = ⟨target, .hit ⟨npc, target, damage, (p.takeDamage damage).vitals.hp⟩⟩ ::
        (m.field.feed.receivers target).map (⟨·, .vitals target (p.takeDamage damage).vitals⟩) ∧
      target ∈ m.field.feed.receivers target := by
  obtain ⟨f, step, told, rest, -, ho, hfield⟩ := h.settle ha
  have htarget : target ∈ m.field.players := by
    rw [hfield]
    exact target_mem_players ho
  obtain ⟨p, hp⟩ := IdMap.mem_iff_exists.1 htarget
  have hplayer := h.mem_players_iff.2 htarget
  have hlive : m.field.feed.live = true := by
    by_contra hl
    exact h.attuned.gated (Bool.eq_false_iff.2 hl) target hplayer
  have hact : m.field.act m.act = m.field.strike npc target damage := by rw [ha]; rfl
  refine ⟨p, hp, ?_, ?_, ?_⟩
  · rw [next, hact, strike_of_some hp]
    rfl
  · rw [log, hact, strike_of_some hp]
    change notices (m.field.feed.hit _ ++ (m.field.feed.vitals target _ ++ [])) = _
    rw [notices_append, List.append_nil, Feed.vitals, Feed.notices_broadcast, Feed.hit,
      if_pos hlive]
    rfl
  · rw [Feed.receivers, if_pos hlive]
    exact h.attuned.hears target hplayer

end Moment

namespace Player

def saturated (x : Int) : Int := max (-2147483648) (min x 2147483647)

theorem clamp_saturated {maxHp : Int} (h : maxHp < 2147483648) (x : Int) :
    max 0 (min (saturated x) (max maxHp 0)) = max 0 (min x (max maxHp 0)) := by
  unfold saturated
  omega

end Player

namespace Field

/-- In every run, all that is sent is sent at some moment of it. What there is to say of somebody at
a moment, which is there at that time, is sent to the players within the view radius of it, each
once, and to nobody else; nothing else is reported. Every hit that comes of a step of the monsters
finds its target in the field, costs it no more hit points than it has, and is told to the target,
with what is left, and then reported to those near it, of whom it is one. -/
theorem reports_reach_those_near (id : FieldId) (config : FieldConfig) (brain : Brain β)
    (mind : β) (enum : Enumeration) (ds : List (Deed β)) (hd : ∀ d ∈ ds, d.IsOrdinary)
    (hr : ((fresh id config brain mind enum).run ds).value.herd.size ≤ Herd.room) :
    ((fresh id config brain mind enum).run ds).log =
      ((fresh id config brain mind enum).timeline ds).flatMap Moment.log ∧
    ∀ m ∈ (fresh id config brain mind enum).timeline ds,
      (m.report? = none → reports m.log = []) ∧
      (∀ s event, m.report? = some (s, event) → ∃ (d : Entity) (rs : List EntityId),
        m.scene.world.entities[s]? = some d ∧ reports m.log = rs.map (⟨·, event⟩) ∧ rs.Nodup ∧
        (∀ p, p ∈ rs ↔ p ∈ m.field.players ∧ m.scene.world.Near d.sector p) ∧
        (s ∈ m.field.players → s ∈ rs)) ∧
      ∀ npc target damage, m.act = .settle (.attacked npc target damage) →
        ∃ (p : Player) (hp : Int) (rs : List EntityId), m.field.players[target]? = some p ∧
          hp = max 0 (min (p.vitals.hp - damage) (max p.vitals.maxHp 0)) ∧
          (p.vitals.maxHp < 2147483648 →
            hp = max 0 (min (Player.saturated (p.vitals.hp - damage)) (max p.vitals.maxHp 0))) ∧
          m.next = { m.field with
            players := m.field.players.insert target { p with vitals := ⟨hp, p.vitals.maxHp⟩ } } ∧
          notices m.log = ⟨target, .hit ⟨npc, target, damage, hp⟩⟩ ::
            rs.map (⟨·, .vitals target ⟨hp, p.vitals.maxHp⟩⟩) ∧ target ∈ rs := by
  have hknown := (calm_fresh id config brain mind enum).known hd hr
  refine ⟨log_run _ ds, fun m hm => ?_⟩
  have hm := hknown m hm
  have hlog : reports m.log = m.reported := Moment.reports_log fun d ha =>
    ⟨(hm.deed ha).2.1.not_isJob, (hm.deed ha).2.2.1⟩
  refine ⟨fun hnone => ?_, fun s event hsome => ?_, fun npc target damage ha => ?_⟩
  · rw [hlog, Moment.reported, hnone]
  · have hs := hm.subject_mem_entities hsome
    obtain ⟨d, hd⟩ := IdMap.mem_iff_exists.1 hs
    have hmem : ∀ p, p ∈ m.scene.receivers s ↔
        p ∈ m.field.players ∧ m.scene.world.Near d.sector p := fun p => by
      rw [hm.attuned_scene.mem_receivers, hm.mem_players_scene, hd]
      simp
    refine ⟨d, m.scene.receivers s, hd, ?_, hm.attuned_scene.nodup_receivers s, hmem, fun hp => ?_⟩
    · rw [hlog, Moment.reported, hsome]
    · have := hm.attuned_scene.consistent.world.one_le_radius
      exact (hmem s).2 ⟨hp, d, hd, by omega, by omega⟩
  · obtain ⟨p, hp, hnext, hsent, htarget⟩ := hm.attacked ha
    refine ⟨p, _, _, hp, rfl, fun hmax => ?_, hnext, hsent, htarget⟩
    exact (Player.clamp_saturated hmax _).symm

/-- A monster that never thinks of anything but player 7 comes to its first bite. -/
theorem reports_reach_prey :
    let f : Field Unit := fresh 1 { npcStep := 1 } ⟨fun _ _ _ => (.attack 7, ())⟩ () .byId
    let ds : List (Deed Unit) := [.handle (.enter { id := 7, name := "ada", pos := ⟨1, 2⟩ }),
      .spawn (NpcTemplate.nth 0) ⟨3, 4⟩, .handle (.tick 1)]
    ∃ m ∈ f.timeline ds, ∃ rs : List EntityId,
      notices m.log = ⟨7, .hit ⟨Npc.idBase + 1, 7, 7, 93⟩⟩ :: rs.map (⟨·, .vitals 7 ⟨93, 100⟩⟩) ∧
      7 ∈ rs := by
  intro f ds
  have hp : ∀ i, 0 < (NpcTemplate.nth i).maxHp := fun i => by rw [Herd.maxHp_nth]; decide
  have hd : ∀ d ∈ ds, d.IsOrdinary := by
    have h7 : (7 : EntityId) ≤ Npc.idBase := by decide
    simp only [ds, List.forall_mem_cons]
    exact ⟨h7, hp 0, trivial, fun _ h => nomatch h⟩
  let bite (m : Moment Unit) : Option (EntityId × EntityId × Int × Option Vitals) :=
    match m.act with
    | .settle (.attacked npc target damage) =>
      some (npc, target, damage, m.field.players[target]?.map (·.vitals))
    | _ => none
  have hbite : some (Npc.idBase + 1, 7, 7, some ⟨100, 100⟩) ∈ (f.timeline ds).map bite := by
    decide +kernel
  obtain ⟨m, hm, hbite⟩ := List.mem_map.1 hbite
  have hreports := (reports_reach_those_near 1 { npcStep := 1 } ⟨fun _ _ _ => (.attack 7, ())⟩ ()
    .byId ds hd (by decide +kernel)).2 m hm
  refine ⟨m, hm, ?_⟩
  dsimp only [bite] at hbite
  split at hbite
  · next npc target damage ha =>
    obtain ⟨p, hp, rs, hplayer, rfl, -, -, hsent, htarget⟩ := hreports.2.2 npc target damage ha
    rw [hplayer] at hbite
    obtain ⟨rfl, rfl, rfl, hv⟩ : npc = Npc.idBase + 1 ∧ target = 7 ∧ damage = 7 ∧
        p.vitals = ⟨100, 100⟩ := by simpa using hbite
    rw [hv] at hsent
    exact ⟨rs, hsent, htarget⟩
  · cases hbite

end Field
end Fieldwatch
