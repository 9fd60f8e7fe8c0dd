import Fieldwatch.Proofs.Field.Feeding
import Fieldwatch.Proofs.Field.Tables

/-! What a player knows who takes note of all that it is sent: from its entry on, neither more nor
less than what it sees. Nothing is lost at the gate either, since before the first player enters
there is nobody to announce anything to. -/

namespace Fieldwatch

open Interest

variable {β : Type}

namespace Interest

namespace World

variable {w : World} {p s : EntityId}

theorem told_remove_self (h : w.Consistent) : told (w.remove p).log p s = [] := by
  by_cases hps : p = s
  · subst hps
    exact told_remove_same
  · rw [told_remove h hps, if_neg fun hs => hps hs.1.symm]

/-- `known` tells of player `p` and of all that `p` sees where they are, and of nothing else. -/
def Shows (w : World) (p : EntityId) (known : IdMap Vec2) : Prop :=
  ∃ e, w.entities[p]? = some e ∧ e.isPlayer ∧ ∀ s pos, known[s]? = some pos ↔
    ∃ d, w.entities[s]? = some d ∧ d.pos = pos ∧ (s = p ∨ d.sector ∈ e.view)

theorem sight_eq_some_iff {e : Entity} {pos : Vec2} (he : w.entities[p]? = some e)
    (hp : e.isPlayer) : w.sight p s = some pos ↔
      ∃ d, w.entities[s]? = some d ∧ d.pos = pos ∧ (s = p ∨ d.sector ∈ e.view) := by
  by_cases hps : p = s
  · subst hps
    rw [sight_self, if_pos ((mem_players w p).2 ⟨e, he, hp⟩), posOf_of_some he]
    simp [he]
  · rw [sight_of_ne hps]
    cases hs : w.entities[s]? with
    | none => simp [sees_of_none (.inr hs)]
    | some d =>
      rw [sees_of_some he hs, posOf_of_some hs]
      by_cases hv : d.sector ∈ e.view <;> simp [hp, hv, Ne.symm hps]

theorem shows_of_sight {known : IdMap Vec2} (hp : p ∈ w.players)
    (hk : ∀ s, known[s]? = w.sight p s) : w.Shows p known := by
  obtain ⟨e, he, hpl⟩ := (mem_players w p).1 hp
  exact ⟨e, he, hpl, fun s pos => by rw [hk, sight_eq_some_iff he hpl]⟩

end World

namespace Feed

variable {f : Feed} {p s : EntityId}

theorem log_add (f : Feed) (id : EntityId) (isPlayer : Bool) (pos : Vec2) :
    (f.add id isPlayer pos).log = (if id ∈ f.world.entities then (f.remove id).log else []) ++
      ((f.cleared id).change (·.add id isPlayer pos)).log := by
  unfold add cleared
  split <;> rfl

theorem deliveries_tellSelf (hf : f.live) (id : EntityId) (g : Sighting) :
    deliveries (f.tellSelf id g).log = [⟨id, g⟩] := by
  rw [tellSelf, deliveries_deliver, if_pos hf]

theorem told_clearing (hf : f.Consistent) :
    told (deliveries (if p ∈ f.world.entities then (f.remove p).log else [])) p s = [] := by
  split
  · rw [log_remove, deliveries_change]
    split
    · exact World.told_remove_self hf.world
    · rfl
  · rfl

theorem lastKnown_welcome (hf : f.Consistent) (hl : f.live) (p : EntityId) (pos : Vec2)
    (s : EntityId) :
    lastKnown none (told (deliveries (f.add p true pos >>= fun g =>
      g.tellSelf p ⟨.snapshot, p, pos⟩).log) p s) = (f.add p true pos).value.world.sight p s := by
  have hc : (f.cleared p).Consistent := hf.cleared p
  have hlc : (f.cleared p).live := by
    unfold cleared
    split <;> exact hl
  have hw : (f.add p true pos).value.world = ((f.cleared p).world.add p true pos).value := by
    rw [value_add, world_change]
  rw [Emit.log_bind, deliveries_append, told_append, log_add, deliveries_append, told_append,
    told_clearing hf, List.nil_append, deliveries_change, if_pos hlc,
    deliveries_tellSelf ((live_add f p true pos).trans hl), lastKnown_append, hw, told_cons]
  by_cases hps : p = s
  · subst hps
    have hp : p ∈ ((f.cleared p).world.add p true pos).value.players := by
      rw [World.mem_players_add, if_pos rfl]
    rw [if_pos ⟨rfl, rfl⟩, World.sight_self, if_pos hp, World.posOf_add]
    rfl
  · rw [if_neg fun h => hps h.2]
    exact World.lastKnown_add_newcomer hc.world hps true pos

def Gated (f : Feed) : Prop := f.live = false → ∀ p, p ∉ f.world.players

def Sent (live : Bool) (l : List Effect) : Prop :=
  Tallies l ∧ (live = false → ∀ e ∈ l, e.IsQuiet)

theorem sent_of_quiet {live : Bool} {l : List Effect} (h : ∀ e ∈ l, e.IsQuiet) : Sent live l :=
  ⟨tallies_of_quiet h, fun _ => h⟩

theorem sent_deliver {ds : List Delivery} (h : f.live ∨ ds = []) :
    Sent f.live (f.deliver ds).log := by
  refine ⟨tallies_deliver h, fun hl => ?_⟩
  obtain hlive | rfl := h
  · exact (Bool.false_ne_true (hl.symm.trans hlive)).elim
  · rw [log_deliver, hl]
    exact isQuiet_nil

theorem sent_change (hf : f.Consistent) (hg : f.Gated) (c : Change)
    (hy : (f.change (·.apply c)).value.Gated) : Sent f.live (f.change (·.apply c)).log := by
  refine sent_deliver ?_
  cases hl : f.live with
  | true => exact .inl rfl
  | false => exact .inr (World.log_apply_eq_nil hf.world (hg hl) (hy hl))

end Feed
end Interest

namespace Feeds

variable {E : EntityId → Prop} {f g : Feed} {l : List Effect} {p : EntityId}

theorem mem_players (h : Feeds E f l g) (hE : ¬ E p) (hg : p ∈ g.world.players) :
    p ∈ f.world.players := by
  induction h with
  | quiet | golive | tellSelf => exact hg
  | @enter f id isPlayer pos hid hp =>
    rw [Feed.world_change, World.mem_players_add] at hg
    split at hg
    · next he => exact (hE (he ▸ (hp hg).2)).elim
    · exact hg
  | remove => exact (World.mem_players_remove.1 hg).2
  | move => exact (World.mem_players_move _).1 hg
  | setRadius => exact (World.mem_players_setRadius _).1 hg
  | trans _ _ ihf ihg => exact ihf (ihg hg)

theorem lastKnown (h : Feeds E f l g) (hE : ¬ E p) (hf : f.Consistent) (hl : f.live)
    (hg : p ∈ g.world.players) (s : EntityId) :
    Interest.lastKnown (f.world.sight p s) (told (deliveries l) p s) = g.world.sight p s := by
  induction h with
  | quiet h =>
    rw [deliveries_of_quiet h]
    rfl
  | golive => rfl
  | @enter f id isPlayer pos hid hp =>
    have hne : p ≠ id := by
      rintro rfl
      rw [Feed.world_change, World.mem_players_add, if_pos rfl] at hg
      exact hE (hp hg).2
    rw [Feed.deliveries_change, if_pos hl]
    exact World.lastKnown_add hf.world hne isPlayer pos s
  | @remove f id =>
    rw [Feed.log_remove, Feed.deliveries_change, if_pos hl]
    exact World.lastKnown_remove hf.world (World.mem_players_remove.1 hg).1 s
  | @move f id pos =>
    rw [Feed.move, Feed.deliveries_change, if_pos hl]
    exact World.lastKnown_move hf.world id pos s
  | @setRadius f radius =>
    rw [Feed.setRadius, Feed.deliveries_change, if_pos hl]
    exact World.lastKnown_setRadius hf.world radius s
  | @tellSelf f id _ hp =>
    rw [Feed.deliveries_tellSelf hl, told_cons]
    split
    · next he =>
      obtain ⟨rfl, rfl⟩ := he
      rw [Feed.world_tellSelf, World.sight_self, if_pos hp]
      rfl
    · rfl
  | trans hfg hgh ihf ihg =>
    rw [deliveries_append, told_append, lastKnown_append, ihf hf hl (hgh.mem_players hE hg)]
    exact ihg (hfg.consistent hf) (hfg.live hl) hg

theorem gated (h : Feeds E f l g) (hf : f.Gated) : g.Gated := by
  induction h with
  | quiet | tellSelf => exact hf
  | golive => exact fun hl => Bool.noConfusion hl
  | @enter f id isPlayer pos hid hp =>
    intro hl p hg
    rw [Feed.world_change, World.mem_players_add] at hg
    split at hg
    · exact Bool.false_ne_true (hl.symm.trans (hp hg).1)
    · exact hf hl p hg
  | remove => exact fun hl p hg => hf hl p (World.mem_players_remove.1 hg).2
  | move => exact fun hl p hg => hf hl p ((World.mem_players_move _).1 hg)
  | setRadius => exact fun hl p hg => hf hl p ((World.mem_players_setRadius _).1 hg)
  | trans _ _ ihf ihg => exact ihg (ihf hf)

theorem sent (h : Feeds E f l g) (hf : f.Consistent) (hg : f.Gated) : Feed.Sent g.live l := by
  induction h with
  | quiet h => exact Feed.sent_of_quiet h
  | golive => exact Feed.sent_of_quiet isQuiet_nil
  | @enter f id isPlayer pos hid hp =>
    exact Feed.sent_change hf hg (.add id isPlayer pos) (gated (.enter hid hp) hg)
  | @remove f id =>
    have hy : (f.remove id).value.Gated := gated (E := E) .remove hg
    rw [Feed.log_remove]
    exact Feed.sent_change hf hg (.remove id) hy
  | @move f id pos => exact Feed.sent_change hf hg (.move id pos) (gated (E := E) .move hg)
  | @setRadius f radius =>
    exact Feed.sent_change hf hg (.setRadius radius) (gated (E := E) .setRadius hg)
  | tellSelf hl => exact Feed.sent_deliver (.inl hl)
  | trans hfg hgh ihf ihg =>
    have hl := ihf hf hg
    have hm := ihg (hfg.consistent hf) (hfg.gated hg)
    refine ⟨hl.1.append hm.1, fun hlive e he => ?_⟩
    obtain he | he := List.mem_append.1 he
    · -- what is not live in the end was not live before
      refine hl.2 (Bool.eq_false_iff.2 fun hg => ?_) e he
      exact Bool.false_ne_true (hlive.symm.trans (hgh.live hg))
    · exact hm.2 hlive e he

end Feeds

namespace Field

variable {f : Field β} {p : EntityId}

theorem log_enter (f : Field β) (n : Newcomer) : (f.perform (.handle (.enter n))).log =
    (if n.id ∈ f.players then [] else [.raise .playersActive 1]) ++
      ((Feed.add { f.feed with live := true } n.id true n.pos >>= fun feed =>
        feed.tellSelf n.id ⟨.snapshot, n.id, n.pos⟩) >>= pure).log := by
  have hp : (f.perform (.handle (.enter n))).log = (f.addPlayer n).log :=
    (Emit.log_map _ _).trans (Emit.log_map _ _)
  rw [hp, bind_pure]
  exact congrArg (_ ++ ·) (List.append_nil _)

theorem lastKnown_enter (hf : f.feed.Consistent) (n : Newcomer) (s : EntityId) :
    lastKnown none (told (deliveries (f.perform (.handle (.enter n))).log) n.id s) =
      (f.perform (.handle (.enter n))).value.feed.world.sight n.id s := by
  have hquiet : deliveries (if n.id ∈ f.players then [] else [.raise .playersActive 1]) = [] :=
    deliveries_of_quiet (isQuiet_ite _ isQuiet_nil (isQuiet_singleton Counter.noConfusion))
  have hwelcome := Feed.lastKnown_welcome (hf.withLive true) rfl n.id n.pos s
  rw [log_enter, deliveries_append, hquiet, List.nil_append, bind_pure]
  exact hwelcome

/-- Whoever takes note of all it is sent from its entry on knows all that it sees. -/
theorem shows_since_entry (hf : f.feed.Consistent) {n : Newcomer} {ds : List (Deed β)}
    (hd : ∀ d ∈ ds, ¬ d.IsJob) (he : ∀ d ∈ ds, ¬ d.Enters n.id)
    (hp : n.id ∈ (f.run (.handle (.enter n) :: ds)).value.feed.world.players) :
    (f.run (.handle (.enter n) :: ds)).value.feed.world.Shows n.id
      (replay n.id (deliveries (f.run (.handle (.enter n) :: ds)).log)) := by
  have henter : Feeding (fun id => (Deed.handle (.enter n)).Enters id) f.feed
      (f.perform (.handle (.enter n))) := Feeding.perform fun h => h
  have hlive : (f.perform (.handle (.enter n))).value.feed.live := Feed.live_add _ _ _ _
  have hrun : f.run (.handle (.enter n) :: ds) =
      f.perform (.handle (.enter n)) >>= fun g => g.run ds := List.foldlM_cons
  rw [hrun] at hp ⊢
  refine World.shows_of_sight hp fun s => ?_
  have hnever : ¬ ∃ d ∈ ds, d.Enters n.id := fun ⟨d, hm, hn⟩ => he d hm hn
  have hrest := (feeds_run _ hd).lastKnown hnever (henter.consistent hf) hlive hp s
  rw [getElem?_replay, Emit.log_bind, deliveries_append, told_append, lastKnown_append,
    lastKnown_enter hf n s]
  exact hrest

theorem Agrees.mem_players (hf : f.Agrees) (hp : p ∈ f.players) : p ∈ f.feed.world.players := by
  obtain ⟨e, he⟩ := IdMap.mem_iff_exists.1 (hf.mem_entities.2 (.inl hp))
  obtain ⟨q, hq⟩ := IdMap.mem_iff_exists.1 hp
  exact (World.mem_players _ p).2 ⟨e, he, (hf.entity_player he hq).1⟩

theorem mem_world_players_perform {d : Deed β} (hd : ¬ d.IsJob) (he : ¬ d.Enters p)
    (hp : p ∈ (f.perform d).value.feed.world.players) : p ∈ f.feed.world.players :=
  Feeds.mem_players (Feeding.perform hd) he hp

/-- A player of a field that takes note of every sighting it was sent since it last entered knows
where it is itself and where everything is that stands in the sectors it watches, and knows of
nothing else. All sightings that were ever counted were sent, and none was counted before the feed
went live. -/
theorem replay_shows_world (id : FieldId) (config : FieldConfig) (brain : Brain β)
    (mind : β) (enum : Enumeration) (ds : List (Deed β)) (hd : ∀ d ∈ ds, d.IsOrdinary)
    (hr : ((fresh id config brain mind enum).run ds).value.herd.size ≤ Herd.room) :
    let r := (fresh id config brain mind enum).run ds
    let f := r.value
    (∀ p ∈ f.players, ∃ before n after, ds = before ++ .handle (.enter n) :: after ∧ n.id = p ∧
      (∀ d ∈ after, ¬ d.Enters p) ∧
      f.feed.world.Shows p (replay p (deliveries
        (((fresh id config brain mind enum).run before).value.run
          (.handle (.enter n) :: after)).log))) ∧
    (∀ (us : UInt64) (m : Counters),
      (r.log.foldl (Counters.apply us) m).aoiEvents =
        m.aoiEvents + (deliveries r.log).length.toUInt64) ∧
    (f.feed.live = false → ∀ n, .raise .aoiEvents n ∉ r.log) := by
  intro r f
  have hjob : ∀ d ∈ ds, ¬ d.IsJob := fun d hm => (hd d hm).not_isJob
  have hf : f.Agrees := (agrees_fresh id config brain mind enum).run hd hr
  have hempty : ∀ p, p ∉ (fresh id config brain mind enum).feed.world.players := fun p => by
    simp [fresh, Feed.empty, World.empty, World.players]
  have hsent := (feeds_run (fresh id config brain mind enum) hjob).sent
    (Feed.consistent_empty config.sectorSize config.viewRadius) fun _ => hempty
  refine ⟨fun p hp => ?_, hsent.1, fun hlive n hn => hsent.2 hlive _ hn rfl⟩
  have hw : p ∈ f.feed.world.players := hf.mem_players hp
  obtain ⟨before, n, after, rfl, rfl, hafter⟩ :=
    exists_last_entry (P := fun f => p ∈ f.feed.world.players) (hempty p)
      (fun g d hd he hP => mem_world_players_perform hd he hP) hjob hw
  refine ⟨before, n, after, rfl, rfl, hafter, ?_⟩
  obtain ⟨hbefore, hrest⟩ := List.forall_mem_append.1 hjob
  have hv := value_run_append (fresh id config brain mind enum) before (.handle (.enter n) :: after)
  change World.Shows ((fresh id config brain mind enum).run _).value.feed.world _ _
  change _ ∈ ((fresh id config brain mind enum).run _).value.feed.world.players at hw
  rw [hv] at hw ⊢
  exact shows_since_entry (consistent_run id config brain mind enum hbefore)
    (fun d hm => hrest d (List.mem_cons_of_mem _ hm)) hafter hw

/-- Two players walk in line, just out of each other's sight. Whoever goes first decides whether
they come into sight in between. -/
def procession : List (Deed Unit) :=
  [.handle (.enter { id := 1, name := "ada", pos := ⟨9.75, 5⟩ }),
    .handle (.enter { id := 2, name := "bob", pos := ⟨39.75, 5⟩ }),
    .handle (.move 1 (MoveCommand.encode ⟨1, Float32.toBits 1, 0⟩)),
    .handle (.move 2 (MoveCommand.encode ⟨2, Float32.toBits 1, 0⟩)), .handle (.tick 0.0625)]

theorem isOrdinary_procession : ∀ d ∈ procession, d.IsOrdinary := by
  have h1 : (1 : EntityId) ≤ Npc.idBase := by decide
  have h2 : (2 : EntityId) ≤ Npc.idBase := by decide
  simp only [procession, List.forall_mem_cons, Deed.IsOrdinary, Message.IsOrdinary, h1, h2, true_and]
  exact List.forall_mem_nil _

/-- More is announced if the one behind goes first, and either way the players know where they are
in the end. Nothing is counted of a monster that nobody is there to see. -/
theorem replay_shows_procession :
    let f := fresh 1 {} Brain.idle () .byId
    let g := fresh 1 {} Brain.idle () .backwards
    ((f.run procession).log.foldl (Counters.apply 0) {}).aoiEvents = 9 ∧
    ((g.run procession).log.foldl (Counters.apply 0) {}).aoiEvents = 4 ∧
    (∃ before n after, procession = before ++ .handle (.enter n) :: after ∧ n.id = 2 ∧
      (∀ d ∈ after, ¬ d.Enters 2) ∧
      (f.run procession).value.feed.world.Shows 2 (replay 2 (deliveries
        ((f.run before).value.run (.handle (.enter n) :: after)).log))) ∧
    (∃ before n after, procession = before ++ .handle (.enter n) :: after ∧ n.id = 1 ∧
      (∀ d ∈ after, ¬ d.Enters 1) ∧
      (g.run procession).value.feed.world.Shows 1 (replay 1 (deliveries
        ((g.run before).value.run (.handle (.enter n) :: after)).log))) ∧
    ∀ n, .raise .aoiEvents n ∉ (f.run [.spawn (NpcTemplate.nth 0) ⟨3, 4⟩]).log :=
  ⟨by decide +kernel, by decide +kernel,
    (replay_shows_world 1 {} Brain.idle () .byId procession isOrdinary_procession
      (by decide +kernel)).1 2 (by decide +kernel),
    (replay_shows_world 1 {} Brain.idle () .backwards procession isOrdinary_procession
      (by decide +kernel)).1 1 (by decide +kernel),
    (replay_shows_world 1 {} Brain.idle () .byId [.spawn (NpcTemplate.nth 0) ⟨3, 4⟩]
      (List.forall_mem_singleton.2 (by
        change 0 < (NpcTemplate.nth 0).maxHp
        rw [Herd.maxHp_nth]
        decide)) (by decide +kernel)).2.2 rfl⟩

end Field
end Fieldwatch
