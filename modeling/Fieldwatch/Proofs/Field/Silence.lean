import Fieldwatch.Proofs.Field.Reports

/-! Of one that the feed does not know nothing is ever said. Whatever a field does short of bringing
it in leaves it unknown and says nothing of it, and a monster that is dead is brought in by its own
comeback only. -/

namespace Fieldwatch

open Interest

variable {β : Type}

def Event.Concerns (s : EntityId) : Event → Prop
  | .sighting g => g.subject = s
  | .activity subject _ | .vitals subject _ => subject = s
  | .hit h => h.attacker = s ∨ h.target = s

def Untold (s : EntityId) (l : List Effect) : Prop := ∀ n ∈ notices l, ¬ n.event.Concerns s

variable {s : EntityId} {l m : List Effect}

theorem Untold.append (hl : Untold s l) (hm : Untold s m) : Untold s (l ++ m) := by
  intro n hn
  rw [notices_append] at hn
  rcases List.mem_append.1 hn with hn | hn
  · exact hl n hn
  · exact hm n hn

theorem untold_nil : Untold s [] := fun _ hn => by cases hn

theorem untold_ite {c : Prop} [Decidable c] (hl : Untold s l) (hm : Untold s m) :
    Untold s (if c then l else m) := by
  split
  · exact hl
  · exact hm

theorem untold_of_notices_eq_nil (h : notices l = []) : Untold s l := by
  intro n hn
  rw [h] at hn
  cases hn

namespace Interest

theorem World.forall_subject_ne {w : World} (h : w.Consistent) {c : Change} (hw : s ∉ w.entities)
    (hy : s ∉ (w.apply c).value.entities) : ∀ d ∈ (w.apply c).log, d.sighting.subject ≠ s := by
  have hw := Std.ExtTreeMap.getElem?_eq_none hw
  have hy := Std.ExtTreeMap.getElem?_eq_none hy
  have htold : ∀ p, told (w.apply c).log p s = [] := by
    intro p
    by_cases hps : p = s
    · subst hps
      exact told_apply_self h.linked (by simp [mem_players, hw]) c
    · have hbefore : w.sees p s = false := sees_of_none (.inr hw)
      have hafter : (w.apply c).value.sees p s = false := sees_of_none (.inr hy)
      rw [told_apply h hps]
      cases c <;> simp [news, moveNews, viewNews, hbefore, hafter]
  intro d hd hs
  have hmem : d.sighting ∈ told (w.apply c).log d.watcher s :=
    List.mem_map_of_mem (List.mem_filter.2 ⟨hd, by simp [hs]⟩)
  rw [htold] at hmem
  cases hmem

namespace Feed

structure Lacks (s : EntityId) (f : Feed) : Prop where
  consistent : f.Consistent
  absent : s ∉ f.world.entities

structure Omits (s : EntityId) (w : Effects Feed) : Prop where
  lacks : w.value.Lacks s
  untold : Untold s w.log

variable {f : Feed} {id : EntityId}

theorem Lacks.of_eq_nil (h : f.Lacks s) : f.index.of s = [] :=
  Std.ExtTreeMap.getD_eq_fallback fun hm => h.absent (h.consistent.mem_entities hm)

theorem Lacks.untold_broadcast (h : f.Lacks s) {subject : EntityId} {event : Event}
    (he : event.Concerns s → subject = s) : Untold s (f.broadcast subject event) := by
  refine untold_ite (fun n hn => ?_) untold_nil
  rw [notices_sends] at hn
  obtain ⟨p, hp, rfl⟩ := List.mem_map.1 hn
  intro hs
  rw [he hs, h.of_eq_nil] at hp
  cases hp

theorem Lacks.untold_activity (h : f.Lacks s) (subject : EntityId) (a : Activity) :
    Untold s (f.activity subject a) := h.untold_broadcast fun he => he

theorem Lacks.untold_vitals (h : f.Lacks s) (subject : EntityId) (v : Vitals) :
    Untold s (f.vitals subject v) := h.untold_broadcast fun he => he

theorem untold_hit {h : Hit} (ha : h.attacker ≠ s) (ht : h.target ≠ s) : Untold s (f.hit h) := by
  refine untold_ite (fun n hn => ?_) untold_nil
  rw [List.mem_singleton.1 hn]
  exact fun he => he.elim ha ht

theorem notices_deliver (f : Feed) (ds : List Delivery) : notices (f.deliver ds).log =
    if f.live then ds.map fun d => ⟨d.watcher, .sighting d.sighting⟩ else [] := by
  have hcount :
      notices (if ds.isEmpty then [] else [.raise .aoiEvents ds.length.toUInt64]) = [] := by
    split <;> rfl
  rw [log_deliver, notices_append, hcount, List.nil_append]
  split
  · rw [notices, List.filterMap_map]
    exact congrFun (List.filterMap_eq_map (f := fun d : Delivery => Notice.mk d.watcher _)) ds
  · rfl

theorem untold_deliver {ds : List Delivery} (h : ∀ d ∈ ds, d.sighting.subject ≠ s) :
    Untold s (f.deliver ds).log := by
  intro n hn
  rw [notices_deliver] at hn
  split at hn
  · obtain ⟨d, hd, rfl⟩ := List.mem_map.1 hn
    exact h d hd
  · cases hn

theorem Lacks.untold_change (h : f.Lacks s) {c : Change}
    (hc : s ∉ (f.world.apply c).value.entities) : Untold s (f.change (·.apply c)).log :=
  untold_deliver (World.forall_subject_ne h.consistent.world h.absent hc)

theorem Lacks.remove (h : f.Lacks s) (id : EntityId) : Omits s (f.remove id) := by
  have habsent : s ∉ (f.world.remove id).value.entities := by
    rw [World.mem_entities_iff_record, World.record_remove]
    split
    · exact Bool.noConfusion
    · rw [← World.mem_entities_iff_record]
      exact h.absent
  refine ⟨⟨h.consistent.remove id, habsent⟩, ?_⟩
  rw [log_remove]
  exact h.untold_change (c := .remove id) habsent

theorem Lacks.move (h : f.Lacks s) (id : EntityId) (pos : Vec2) : Omits s (f.move id pos) := by
  have habsent : s ∉ (f.world.move id pos).value.entities := by
    rw [World.mem_entities_iff_record, World.record_move]
    split
    · rw [Option.isSome_map, ← World.mem_entities_iff_record]
      exact h.absent
    · rw [← World.mem_entities_iff_record]
      exact h.absent
  exact ⟨⟨h.consistent.move id pos, habsent⟩, h.untold_change (c := .move id pos) habsent⟩

theorem Lacks.setRadius (h : f.Lacks s) (radius : Int) : Omits s (f.setRadius radius) := by
  have habsent : s ∉ (f.world.setRadius radius).value.entities := by
    rw [World.mem_entities_iff_record, World.record_setRadius, Option.isSome_map,
      ← World.mem_entities_iff_record]
    exact h.absent
  exact ⟨⟨h.consistent.setRadius radius, habsent⟩, h.untold_change (c := .setRadius radius) habsent⟩

theorem Lacks.add (h : f.Lacks s) (hid : s ≠ id) (isPlayer : Bool) (pos : Vec2) :
    Omits s (f.add id isPlayer pos) := by
  have habsent : s ∉ (f.add id isPlayer pos).value.world.entities := by
    rw [world_add, World.mem_entities_iff_record, World.record_add, if_neg hid,
      ← World.mem_entities_iff_record]
    exact h.absent
  have hcleared : Untold s (if id ∈ f.world.entities then (f.remove id).log else []) ∧
      (f.cleared id).Lacks s := by
    unfold cleared
    split
    · exact ⟨(h.remove id).untold, (h.remove id).lacks⟩
    · exact ⟨untold_nil, h⟩
  refine ⟨⟨h.consistent.add id isPlayer pos, habsent⟩, ?_⟩
  rw [value_add, world_change] at habsent
  rw [log_add]
  exact hcleared.1.append (hcleared.2.untold_change (c := .add id isPlayer pos) habsent)

theorem Lacks.tellSelf (h : f.Lacks s) (hp : id ∈ f.world.players) :
    Omits s (f.tellSelf id ⟨.snapshot, id, f.world.posOf id⟩) := by
  have hid : id ≠ s := fun he => h.absent (he ▸ World.mem_entities_of_player hp)
  refine ⟨⟨h.consistent.tellSelf hp, h.absent⟩, untold_deliver fun d hd => ?_⟩
  rw [List.mem_singleton.1 hd]
  exact hid

theorem Lacks.welcome (h : f.Lacks s) (hid : s ≠ id) (pos : Vec2) :
    Omits s (f.add id true pos >>= fun g => g.tellSelf id ⟨.snapshot, id, pos⟩) := by
  have hadd := h.add hid true pos
  have hw := world_add f id true pos
  have hp : id ∈ (f.add id true pos).value.world.players := by
    rw [hw, World.mem_players_add, if_pos rfl]
  have htell := hadd.lacks.tellSelf hp
  rw [hw, World.posOf_add] at htell
  exact ⟨htell.lacks, hadd.untold.append htell.untold⟩

theorem Omits.foldlM {α : Type} {op : Feed → α → Effects Feed} {as : List α}
    (hop : ∀ f : Feed, f.Lacks s → ∀ a ∈ as, Omits s (op f a)) (h : f.Lacks s) :
    Omits s (as.foldlM op f) := by
  induction as generalizing f with
  | nil => exact ⟨h, untold_nil⟩
  | cons a as ih =>
    have ha := hop f h a List.mem_cons_self
    have has := ih (fun g hg b hb => hop g hg b (List.mem_cons_of_mem _ hb)) ha.lacks
    exact ⟨has.lacks, ha.untold.append has.untold⟩

end Feed
end Interest

namespace Herd

theorem idOf_ne_nextId {h : Herd} {i : Nat} (hi : i < h.size) (hr : h.size < Herd.room) :
    idOf i ≠ h.nextId := by
  intro he
  have := idOf_injective (Nat.lt_trans hi hr) hr he
  omega

theorem idOf_ne_of_mem_spawned {h : Herd} {i : Nat} {l : List (Vec2 × Nat)} {n : Npc}
    (hi : i < h.size) (hr : h.size + l.length ≤ Herd.room) (hn : n ∈ h.spawned l) :
    idOf i ≠ n.id := by
  obtain ⟨⟨x, k⟩, hx, rfl⟩ := List.mem_map.1 hn
  obtain ⟨hle, hlt, -⟩ := List.mem_zipIdx hx
  intro he
  have := idOf_injective (by omega) (by omega) he
  omega

end Herd

namespace Field

structure Omits (s : EntityId) (w : Effects (Field β)) : Prop where
  lacks : w.value.feed.Lacks s
  untold : Untold s w.log

variable {f : Field β}

theorem Omits.feeding {g : Field β} (op : Feed → Effects Feed) (h : Feed.Omits s (op g.feed)) :
    Omits s (g.feeding op) := ⟨h.lacks, h.untold.append untold_nil⟩

theorem Omits.emit {w : Effects (Field β)} (hl : Untold s l) (hw : Omits s w) :
    Omits s (Fieldwatch.emit l >>= fun _ => w) := ⟨hw.lacks, hl.append hw.untold⟩

theorem Omits.pure (h : f.feed.Lacks s) : Omits s (Pure.pure f) := ⟨h, untold_nil⟩

theorem untold_counted {e : Effect} (he : e.notice? = none) : Untold s [e] :=
  untold_of_notices_eq_nil (by rw [notices, List.filterMap_cons_none he]; rfl)

section Deeds

variable (h : f.feed.Lacks s)

include h

theorem omits_addPlayer {n : Newcomer} (hn : s ≠ n.id) : Omits s (f.addPlayer n) := by
  have hlive : Feed.Lacks s { f.feed with live := true } :=
    ⟨h.consistent.withLive true, h.absent⟩
  exact .emit (untold_ite untold_nil (untold_counted rfl))
    (.feeding (fun feed => feed.add n.id true n.pos >>= fun g =>
      g.tellSelf n.id ⟨.snapshot, n.id, n.pos⟩) (hlive.welcome hn n.pos))

theorem omits_removePlayer (id : EntityId) : Omits s (f.removePlayer id) := by
  have hremove : Omits s (f.feeding (·.remove id)) := .feeding (·.remove id) (h.remove id)
  have hcount : Untold s (if id ∈ f.players then [.lower .playersActive 1] else []) :=
    untold_ite (untold_counted rfl) untold_nil
  exact ⟨hremove.lacks, hremove.untold.append (hcount.append untold_nil)⟩

theorem omits_onMove (session : EntityId) (c : MoveCommand) :
    Omits s (Pure.pure (f.onMove session c)) := by
  unfold Field.onMove
  split
  · exact .pure h
  · split <;> exact .pure h

theorem omits_onSkill (attacker target : EntityId) : Omits s (f.onSkill attacker target) := by
  unfold Field.onSkill
  split
  · split
    · exact .pure h
    · dsimp only
      split
      · refine .emit ?_ (.feeding (·.remove target) (h.remove target))
        exact (untold_counted (e := .lower .npcsAlive 1) rfl).append (h.untold_activity _ _)
      · exact .emit (h.untold_vitals _ _) (.pure h)
  · exact .pure h

theorem omits_setViewRadius (radius : Int) : Omits s (f.setViewRadius radius) :=
  .feeding (·.setRadius radius) (h.setRadius radius)

theorem omits_spawn (t : NpcTemplate) (pos : Vec2) (hid : s ≠ f.herd.nextId) :
    Omits s (Prod.snd <$> f.spawn t pos) := by
  have hadd : Omits s (Field.feeding { f with herd := f.herd.spawn t pos }
      (·.add f.herd.nextId false pos)) := .feeding (·.add _ false pos) (h.add hid false pos)
  refine ⟨hadd.lacks, ?_⟩
  rw [Emit.log_map]
  exact hadd.untold.append (untold_counted rfl)

theorem omits_populate {g : SpawnGrid} {r : Effects (Nat × Field β)} (hr : f.populate g = some r)
    (hid : ∀ n ∈ f.herd.spawned g.cells.zipIdx, s ≠ n.id) : Omits s (Prod.snd <$> r) := by
  obtain ⟨⟨herd, spawned⟩, hp, rfl⟩ := Option.map_eq_some_iff.1 hr
  have hadd : Omits s (Field.feeding { f with herd := herd } fun feed =>
      spawned.foldlM (fun feed x => feed.add x.1 false x.2) feed) := by
    refine Omits.feeding (g := { f with herd := herd })
      (fun feed => spawned.foldlM (fun feed x => feed.add x.1 false x.2) feed)
      (Feed.Omits.foldlM (fun g hg x hx => ?_) h)
    rw [(Herd.populate_eq_some hp).2] at hx
    obtain ⟨n, hn, rfl⟩ := List.mem_map.1 hx
    exact hg.add (hid n hn) false _
  refine ⟨hadd.lacks, ?_⟩
  rw [Emit.log_map]
  exact hadd.untold.append (untold_counted rfl)

theorem omits_playersStep (step : Float32) : Omits s (f.playersStep step) := by
  have hmoves : ∀ moves : List (EntityId × Vec2),
      Feed.Omits s (moves.foldlM (fun feed x => feed.move x.1 x.2) f.feed) :=
    fun _ => .foldlM (fun _ hg x _ => hg.move x.1 x.2) h
  exact ⟨(hmoves _).lacks, (hmoves _).untold.append untold_nil⟩

theorem omits_onDecoded {γ : Type} {act : γ → Effects (Field β)} (hact : ∀ c, Omits s (act c))
    (r : Except DecodeError γ) : Omits s (f.onDecoded act r) := by
  cases r with
  | ok c => exact hact c
  | error e => exact .emit (untold_counted rfl) (.pure h)

theorem omits_onCommand (session : EntityId) (c : Envelope) : Omits s (f.onCommand session c) := by
  cases c with
  | move c => exact omits_onMove h session c
  | skill c => exact omits_onSkill h session c.target
  | leave => exact omits_removePlayer h session

theorem omits_perform {i : Nat} (hs : s = Herd.idOf i) (hi : i < f.herd.size) {d : Deed β}
    (hd : d.IsOrdinary) (ht : ¬ d.IsTick) (hr : (f.perform d).value.herd.size ≤ Herd.room) :
    Omits s (f.perform d) := by
  subst hs
  have hroom := Nat.le_trans (size_le_perform f hd.not_isJob) hr
  cases d with
  | spawn t pos =>
    have hsize : (f.herd.spawn t pos).size ≤ Herd.room := hr
    rw [Herd.size_spawn] at hsize
    exact omits_spawn h t pos (Herd.idOf_ne_nextId hi hsize)
  | populate g =>
    rcases hp : f.populate g with _ | r
    · simpa only [perform, hp] using Omits.pure h
    · simp only [perform, hp] at hr ⊢
      have hsize : r.value.2.herd.size ≤ Herd.room := hr
      rw [herd_populate f hp, Herd.size_spawnEach] at hsize
      exact omits_populate h hp fun n hn => Herd.idOf_ne_of_mem_spawned hi hsize hn
  | handle m =>
    cases m with
    | envelope session payload =>
      rw [perform, handle, fst_done]
      exact omits_onDecoded h (omits_onCommand h session) _
    | enter n =>
      rw [perform, handle, fst_done]
      -- players have other ids than monsters
      have hlt := Herd.idBase_lt_idOf (Nat.lt_of_lt_of_le hi hroom)
      exact omits_addPlayer h fun he => UInt64.not_lt.2 hd (he ▸ hlt)
    | leave player =>
      rw [perform, handle, fst_done]
      exact omits_removePlayer h player
    | move session payload =>
      rw [perform, handle, fst_done]
      exact omits_onDecoded h (omits_onMove h session) _
    | skill session payload =>
      rw [perform, handle, fst_done]
      exact omits_onDecoded h (fun c : SkillCommand => omits_onSkill h session c.target) _
    | tick dt => exact (ht trivial).elim
    | viewRadius radius =>
      rw [perform, handle, fst_done]
      exact omits_setViewRadius h radius
    | job j => exact hd.elim

theorem omits_strike {npc target : EntityId} (hn : npc ≠ s)
    (htarget : target ∈ f.players → target ≠ s) (damage : Int) :
    Omits s (f.strike npc target damage) := by
  unfold Field.strike
  split
  · exact .pure h
  · next p hp =>
    have ht : target ∈ f.players := IdMap.mem_iff_exists.2 ⟨_, hp⟩
    exact .emit (Feed.untold_hit hn (htarget ht)) (.emit (h.untold_vitals _ _) (.pure h))

end Deeds

end Field

def Act.respawns (s : EntityId) : Act β → Bool
  | .settle (.respawned id _) => id = s
  | _ => false

theorem Moment.Known.omits {m : Moment β} (h : m.Known) {i : Nat} (hs : s = Herd.idOf i)
    (hi : i < m.field.herd.size) (ha : s ∉ m.field.feed.world.entities)
    (hc : m.act.respawns s = false) : Field.Omits s (m.field.act m.act) := by
  have hl : m.field.feed.Lacks s := ⟨h.attuned.consistent, ha⟩
  have hplayer : ∀ p ∈ m.field.players, p ≠ s := fun p hp he =>
    ha (he ▸ h.mem_entities_of_player hp)
  obtain ⟨f, a⟩ := m
  cases a with
  | deed d =>
    obtain ⟨-, hd, ht, hr⟩ := h.deed rfl
    exact Field.omits_perform hl hs hi hd ht hr
  | clocks | think => exact .pure hl
  | walk step => exact Field.omits_playersStep hl _
  | stepped => exact .emit (Field.untold_counted rfl) (.pure hl)
  | settle o =>
    cases o with
    | activity id act => exact .emit (hl.untold_activity _ _) (.pure hl)
    | moved id pos => exact .feeding (·.move id pos) (hl.move id pos)
    | attacked npc target damage =>
      obtain ⟨g, step, told, rest, hg, ho, hfield⟩ := h.settle rfl
      change f = _ at hfield
      -- only what is alive bites, and that is known to the feed
      have hnpc : npc ∈ f.feed.world.entities := hfield ▸ hg.subject_mem_entities ho rfl
      exact Field.omits_strike hl (fun he => ha (he ▸ hnpc)) (hplayer target) damage
    | respawned id pos =>
      have hne : s ≠ id := fun he => by simp [Act.respawns, he] at hc
      have hadd : Field.Omits s (f.feeding (·.add id false pos)) :=
        .feeding (·.add id false pos) (hl.add hne false pos)
      refine .emit (Field.untold_counted rfl) ⟨hadd.lacks, hadd.untold.append ?_⟩
      exact (hadd.lacks.untold_activity id .idle).append untold_nil

theorem Moment.Known.size_le {m : Moment β} (h : m.Known) :
    m.field.herd.size ≤ m.next.herd.size := by
  obtain ⟨f, a⟩ := m
  cases a with
  | deed d => exact Field.size_le_perform f (h.deed rfl).2.1.not_isJob
  | clocks | walk | stepped => exact Nat.le_refl _
  | think step => exact Nat.le_of_eq (Herd.same_step _ _ _ _ _).size_eq.symm
  | settle o => exact Nat.le_of_eq (congrArg Herd.size (Field.herd_settle f o)).symm

theorem Field.untold_until_respawned {i : Nat} (hs : s = Herd.idOf i) {as : List (Act β)}
    {f : Field β} (hk : ∀ m ∈ f.moments as, m.Known) (hi : i < f.herd.size)
    (ha : s ∉ f.feed.world.entities) :
    ∀ m ∈ (f.moments as).takeWhile (!·.act.respawns s), Untold s m.log := by
  induction as generalizing f with
  | nil => exact fun _ hm => by cases hm
  | cons a as ih =>
    obtain ⟨hknown, hk⟩ := List.forall_mem_cons.1 hk
    rw [moments, List.takeWhile_cons]
    split
    · next hc =>
      have homits := hknown.omits hs hi ha (by simpa using hc)
      refine List.forall_mem_cons.2 ⟨homits.untold, ?_⟩
      exact ih hk (Nat.lt_of_lt_of_le hi hknown.size_le) homits.lacks.absent
    · exact fun _ hm => by cases hm

end Fieldwatch
