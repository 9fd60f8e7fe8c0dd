import Fieldwatch.Proofs.Field.Motion
import Mathlib.Data.List.Induction

/-! The tables of a field and its feed never drift apart: no deed breaks their agreement, and what
the agreement says of each player, each monster and each entity is read off at the end. -/

namespace Fieldwatch

open Interest

namespace Field

variable {β : Type} {f : Field β}

theorem Agrees.onCommand (hf : f.Agrees) {session : EntityId} (hs : session ≤ Npc.idBase)
    (c : Envelope) : (f.onCommand session c).value.Agrees := by
  cases c with
  | move c => exact hf.moveless (moveless_onMove f session c)
  | skill c => exact hf.onSkill session c.target
  | leave => exact hf.removePlayer hs

theorem Agrees.handle (hf : f.Agrees) {m : Message β} (hm : m.IsOrdinary) :
    (f.handle m).value.1.Agrees := by
  cases m with
  | envelope session payload => exact onDecoded_of f _ hf (hf.onCommand hm) _
  | enter n => exact hf.addPlayer hm
  | leave player => exact hf.removePlayer hm
  | move session payload =>
    exact onDecoded_of f _ hf (fun c => hf.moveless (moveless_onMove f session c)) _
  | skill session payload =>
    exact onDecoded_of f _ hf (fun c : SkillCommand => hf.onSkill session c.target) _
  | tick dt => exact hf.tick dt
  | viewRadius radius => exact hf.setViewRadius radius
  | job j => exact hm.elim

theorem Agrees.perform (hf : f.Agrees) {d : Deed β} (hd : d.IsOrdinary)
    (hr : (f.perform d).value.herd.size ≤ Herd.room) : (f.perform d).value.Agrees := by
  cases d with
  | handle m => exact hf.handle hd
  | spawn t pos =>
    refine hf.spawn hd pos ?_
    change (f.herd.spawn t pos).size ≤ Herd.room at hr
    rw [Herd.size_spawn] at hr
    exact hr
  | populate g =>
    cases hp : f.populate g with
    | none =>
      have hv : (f.perform (.populate g)).value = f := by simp [Field.perform, hp]
      rw [hv]
      exact hf
    | some r =>
      have hv : (f.perform (.populate g)).value = r.value.2 := by simp [Field.perform, hp]
      rw [hv] at hr ⊢
      exact hf.populate hp hr

theorem Agrees.run (hf : f.Agrees) {ds : List (Deed β)} (hd : ∀ d ∈ ds, d.IsOrdinary)
    (hr : (f.run ds).value.herd.size ≤ Herd.room) : (f.run ds).value.Agrees := by
  induction ds using List.reverseRecOn with
  | nil => exact hf
  | append_singleton ds d ih =>
    rw [value_run_append, value_run_singleton] at hr ⊢
    have hd' : d.IsOrdinary := hd d (by simp)
    -- monsters only ever come, so there was room for them before
    have hle := size_le_perform (f.run ds).value hd'.not_isJob
    exact (ih (fun e he => hd e (by simp [he])) (Nat.le_trans hle hr)).perform hd' hr

theorem Agrees.mem_entities (hf : f.Agrees) {j : EntityId} : j ∈ f.feed.world.entities ↔
    j ∈ f.players ∨ ∃ n ∈ f.herd.members, n.id = j ∧ n.isAlive := by
  have hj : j ∈ f.feed.world.entities ↔ (f.feed.world.record j).isSome := by
    rw [World.record, Option.isSome_map, Std.ExtTreeMap.mem_iff_isSome_getElem?]
  rw [hj, hf.record, Field.record, Option.isSome_or, Bool.or_eq_true, Option.isSome_map,
    ← Std.ExtTreeMap.mem_iff_isSome_getElem?, Herd.isSome_record hf.herd]

theorem Agrees.record_entity (hf : f.Agrees) {j : EntityId} {e : Entity}
    (he : f.feed.world.entities[j]? = some e) : f.record j = some e.record := by
  rw [← hf.record, World.record, he, Option.map_some]

theorem Agrees.entity_player (hf : f.Agrees) {j : EntityId} {e : Entity} {p : Player}
    (he : f.feed.world.entities[j]? = some e) (hp : f.players[j]? = some p) :
    e.isPlayer ∧ e.pos = p.pos ∧ e.radius = f.feed.world.radius := by
  have hr := hf.record_entity he
  rw [Field.record, hp, Option.map_some, Option.some_or, Entity.record] at hr
  obtain ⟨hpos, hradius⟩ := Prod.mk.inj (Option.some.inj hr)
  split at hradius
  · next hi => exact ⟨hi, hpos.symm, (Option.some.inj hradius).symm⟩
  · cases hradius

theorem Agrees.entity_stranger (hf : f.Agrees) {j : EntityId} {e : Entity}
    (he : f.feed.world.entities[j]? = some e) (hp : f.players[j]? = none) : ¬ e.isPlayer := by
  have hr := hf.record_entity he
  rw [Field.record, hp, Option.map_none, Option.none_or] at hr
  have hn := Herd.snd_of_record hr
  intro hi
  simp [Entity.record, hi] at hn

theorem Agrees.entity_monster (hf : f.Agrees) {n : Npc} {e : Entity} (hn : n ∈ f.herd.members)
    (he : f.feed.world.entities[n.id]? = some e) : e.pos = n.pos := by
  have hr := hf.record_monster hn
  rw [hf.record, hf.record_entity he, Npc.record] at hr
  split at hr
  · exact congrArg Prod.fst (Option.some.inj hr)
  · cases hr

/-- After any run of a field, its feed holds its players and its live monsters and nobody else, each
where its table says and marked for what it is, and every player at the common radius. Monsters may
be as many as there are ids for them, which is more than any memory holds. -/
theorem feed_agrees_with_tables (id : FieldId) (config : FieldConfig) (brain : Brain β)
    (mind : β) (enum : Enumeration) (ds : List (Deed β)) (hd : ∀ d ∈ ds, d.IsOrdinary)
    (hr : ((fresh id config brain mind enum).run ds).value.herd.size ≤ Herd.room) :
    let f := ((fresh id config brain mind enum).run ds).value
    let w := f.feed.world
    (∀ j, j ∈ w.entities ↔ j ∈ f.players ∨ ∃ n ∈ f.herd.members, n.id = j ∧ n.isAlive) ∧
    (∀ (j : EntityId) (e : Entity), w.entities[j]? = some e →
      (e.isPlayer ↔ j ∈ f.players) ∧
      (∀ p, f.players[j]? = some p → e.pos = p.pos ∧ e.radius = w.radius) ∧
      ∀ n ∈ f.herd.members, n.id = j → e.pos = n.pos) ∧
    ∀ n ∈ f.herd.members, n.id ∈ w.entities ↔ n.isAlive := by
  intro f w
  have hf : f.Agrees := (agrees_fresh id config brain mind enum).run hd hr
  refine ⟨fun j => hf.mem_entities, fun j e he => ⟨⟨fun hi => ?_, fun hj => ?_⟩, ?_, ?_⟩, ?_⟩
  · by_contra hj
    exact hf.entity_stranger he (Std.ExtTreeMap.getElem?_eq_none hj) hi
  · obtain ⟨p, hp⟩ := Option.isSome_iff_exists.1 (Std.ExtTreeMap.mem_iff_isSome_getElem?.1 hj)
    exact (hf.entity_player he hp).1
  · exact fun p hp => (hf.entity_player he hp).2
  · rintro n hn rfl
    exact hf.entity_monster hn he
  · intro n hn
    rw [hf.mem_entities]
    constructor
    · rintro (hp | ⟨m, hm, he, ha⟩)
      · exact absurd (hf.herd.idBase_lt hn) (UInt64.not_lt.2 (hf.players_le _ hp))
      · rwa [hf.herd.eq_of_id_eq hm hn he] at ha
    · exact fun ha => .inr ⟨n, hn, rfl, ha⟩

/-- A player enters, two monsters are spawned, one of them is struck, and time passes. -/
def hunt : List (Deed Unit) :=
  [.handle (.enter { id := 7, name := "ada", pos := ⟨1, 2⟩ }), .spawn (NpcTemplate.nth 0) ⟨3, 4⟩,
    .spawn (NpcTemplate.nth 1) ⟨5, 6⟩,
    .handle (.skill 7 (SkillCommand.encode ⟨0, Npc.idBase + 1⟩)), .handle (.tick 0.25)]

theorem isOrdinary_hunt : ∀ d ∈ hunt, d.IsOrdinary := by
  intro d hd
  simp only [hunt, List.mem_cons, List.not_mem_nil, or_false] at hd
  have h7 : (7 : EntityId) ≤ Npc.idBase := by decide
  have hp : ∀ i, 0 < (NpcTemplate.nth i).maxHp := fun i => by rw [Herd.maxHp_nth]; decide
  rcases hd with rfl | rfl | rfl | rfl | rfl
  · exact h7
  · exact hp 0
  · exact hp 1
  · exact h7
  · trivial

theorem feed_agrees_after_hunt :
    let f := ((fresh 1 { skillDamage := 250 } Brain.idle () .byId).run hunt).value
    f.herd.members.map Npc.isAlive = [false, true] ∧ 7 ∈ f.players ∧
      ∀ n ∈ f.herd.members, n.id ∈ f.feed.world.entities ↔ n.isAlive :=
  ⟨by decide +kernel, by decide +kernel,
    (feed_agrees_with_tables 1 { skillDamage := 250 } Brain.idle () .byId hunt isOrdinary_hunt
      (by decide +kernel)).2.2⟩

end Field
end Fieldwatch
