import Fieldwatch.Proofs.Field.Runs
import Fieldwatch.Proofs.Interest.Gate
import Fieldwatch.Proofs.Interest.Record

/-! What a field does to its feed. Whatever the field is told, its feed only ever goes through a few
kinds of changes, and sends nothing but what they send; in between the field sends what says nothing
of who is where. A property of feeds is checked here for each kind once, and holds for every run of
a field. -/

namespace Fieldwatch

open Interest

variable {β : Type}

/-- How a feed changes, and with which effects. Players come in on a live feed only, and only those
for whom `E` holds. -/
inductive Feeds (E : EntityId → Prop) : Feed → List Effect → Feed → Prop
  | quiet {f : Feed} {l : List Effect} (h : ∀ e ∈ l, e.IsQuiet) : Feeds E f l f
  | golive {f : Feed} : Feeds E f [] { f with live := true }
  | enter {f : Feed} {id : EntityId} {isPlayer : Bool} {pos : Vec2}
      (h : f.world.entities[id]? = none) (hp : isPlayer → f.live ∧ E id) :
      Feeds E f (f.change (·.add id isPlayer pos)).log (f.change (·.add id isPlayer pos)).value
  | remove {f : Feed} {id : EntityId} : Feeds E f (f.remove id).log (f.remove id).value
  | move {f : Feed} {id : EntityId} {pos : Vec2} :
      Feeds E f (f.move id pos).log (f.move id pos).value
  | setRadius {f : Feed} {radius : Int} :
      Feeds E f (f.setRadius radius).log (f.setRadius radius).value
  | tellSelf {f : Feed} {id : EntityId} (hl : f.live) (hp : id ∈ f.world.players) :
      Feeds E f (f.tellSelf id ⟨.snapshot, id, f.world.posOf id⟩).log
        (f.tellSelf id ⟨.snapshot, id, f.world.posOf id⟩).value
  | trans {f g h : Feed} {l m : List Effect} (hf : Feeds E f l g) (hg : Feeds E g m h) :
      Feeds E f (l ++ m) h

namespace Feeds

variable {E : EntityId → Prop} {f g : Feed} {l : List Effect}

theorem refl : Feeds E f [] f := .quiet fun _ he => by cases he

theorem mono {E' : EntityId → Prop} (h : Feeds E f l g) (hE : ∀ id, E id → E' id) :
    Feeds E' f l g := by
  induction h with
  | quiet h => exact .quiet h
  | golive => exact .golive
  | enter h hp => exact .enter h fun hi => ⟨(hp hi).1, hE _ (hp hi).2⟩
  | remove => exact .remove
  | move => exact .move
  | setRadius => exact .setRadius
  | tellSelf hl hp => exact .tellSelf hl hp
  | trans _ _ ihf ihg => exact .trans ihf ihg

theorem add {id : EntityId} {isPlayer : Bool} {pos : Vec2} (hp : isPlayer → f.live ∧ E id) :
    Feeds E f (f.add id isPlayer pos).log (f.add id isPlayer pos).value := by
  unfold Feed.add
  split
  · exact .trans .remove (.enter (by simp [World.entities_remove]) hp)
  · next h => exact .enter (by simpa using h) hp

theorem welcome {id : EntityId} {pos : Vec2} (hl : f.live) (hE : E id) :
    Feeds E f (f.add id true pos >>= fun g => g.tellSelf id ⟨.snapshot, id, pos⟩).log
      (f.add id true pos >>= fun g => g.tellSelf id ⟨.snapshot, id, pos⟩).value := by
  have hw := Feed.world_add f id true pos
  have hp : id ∈ (f.add id true pos).value.world.players := by
    rw [hw, World.mem_players_add, if_pos rfl]
  have htell := tellSelf (E := E) ((Feed.live_add ..).trans hl) hp
  rw [hw, World.posOf_add] at htell
  exact .trans (.add fun _ => ⟨hl, hE⟩) htell

theorem foldlM {α : Type} {op : Feed → α → Effects Feed}
    (h : ∀ (f : Feed) (a : α), Feeds E f (op f a).log (op f a).value) (as : List α) (f : Feed) :
    Feeds E f (as.foldlM op f).log (as.foldlM op f).value := by
  induction as generalizing f with
  | nil => exact .refl
  | cons a as ih => exact .trans (h f a) (ih _)

theorem live (h : Feeds E f l g) (hf : f.live) : g.live := by
  induction h with
  | quiet h => exact hf
  | golive => rfl
  | enter | remove | move | setRadius | tellSelf => exact hf
  | trans _ _ ihf ihg => exact ihg (ihf hf)

theorem consistent (h : Feeds E f l g) (hf : f.Consistent) : g.Consistent := by
  induction h with
  | quiet h => exact hf
  | golive => exact hf.withLive true
  | @enter f id isPlayer pos hid hp =>
    have hc : f.cleared id = f := if_neg (by simpa using hid)
    have hadd := hf.add id isPlayer pos
    rwa [Feed.value_add, hc] at hadd
  | remove => exact hf.remove _
  | move => exact hf.move _ _
  | setRadius => exact hf.setRadius _
  | tellSelf _ hp => exact hf.tellSelf hp
  | trans _ _ ihf ihg => exact ihg (ihf hf)

end Feeds

theorem isQuiet_nil : ∀ e ∈ ([] : List Effect), e.IsQuiet := fun _ he => by cases he

theorem isQuiet_singleton {e : Effect} (he : e.IsQuiet) : ∀ d ∈ [e], d.IsQuiet := by
  intro d hd
  rwa [List.mem_singleton.1 hd]

theorem isQuiet_cons {e : Effect} {l : List Effect} (he : e.IsQuiet) (hl : ∀ d ∈ l, d.IsQuiet) :
    ∀ d ∈ e :: l, d.IsQuiet := List.forall_mem_cons.2 ⟨he, hl⟩

theorem isQuiet_ite {l m : List Effect} (b : Prop) [Decidable b] (hl : ∀ e ∈ l, e.IsQuiet)
    (hm : ∀ e ∈ m, e.IsQuiet) : ∀ e ∈ (if b then l else m), e.IsQuiet := by
  split
  · exact hl
  · exact hm

namespace Interest.Feed

variable (f : Feed)

theorem isQuiet_broadcast (subject : EntityId) {event : Event} (he : ∀ g, event ≠ .sighting g) :
    ∀ e ∈ f.broadcast subject event, e.IsQuiet := by
  refine isQuiet_ite _ (fun e hm => ?_) isQuiet_nil
  obtain ⟨p, -, rfl⟩ := List.mem_map.1 hm
  cases event with
  | sighting g => exact (he g rfl).elim
  | _ => rfl

theorem isQuiet_activity (subject : EntityId) (a : Activity) :
    ∀ e ∈ f.activity subject a, e.IsQuiet :=
  f.isQuiet_broadcast subject fun _ => Event.noConfusion

theorem isQuiet_vitals (subject : EntityId) (v : Vitals) : ∀ e ∈ f.vitals subject v, e.IsQuiet :=
  f.isQuiet_broadcast subject fun _ => Event.noConfusion

theorem isQuiet_hit (h : Hit) : ∀ e ∈ f.hit h, e.IsQuiet :=
  isQuiet_ite _ (isQuiet_singleton rfl) isQuiet_nil

end Interest.Feed

namespace Field

variable {E : EntityId → Prop} {f : Field β} {a : Feed}

def Feeding (E : EntityId → Prop) (a : Feed) (m : Effects (Field β)) : Prop :=
  Feeds E a m.log m.value.feed

namespace Feeding

theorem pure {g : Field β} (hg : g.feed = a) : Feeding E a (pure g) := by
  rw [Feeding, Emit.value_pure, hg]
  exact .refl

theorem bind {α : Type} {m : Effects α} {k : α → Effects (Field β)} {b : Feed}
    (hm : Feeds E a m.log b) (hk : Feeding E b (k m.value)) : Feeding E a (m >>= k) := .trans hm hk

theorem emit {l : List Effect} {k : Unit → Effects (Field β)} (hl : ∀ e ∈ l, e.IsQuiet)
    (hk : Feeding E a (k ())) : Feeding E a (Fieldwatch.emit l >>= k) := .trans (.quiet hl) hk

theorem feeding {g : Field β} {op : Feed → Effects Feed} (hg : g.feed = a)
    (h : Feeds E a (op a).log (op a).value) : Feeding E a (g.feeding op) := by
  subst hg
  exact .trans h .refl

theorem foldlM {α : Type} {op : Field β → α → Effects (Field β)}
    (h : ∀ (f : Field β) (x : α), Feeding E f.feed (op f x)) (xs : List α) {g : Field β}
    (hg : g.feed = a) : Feeding E a (xs.foldlM op g) := by
  induction xs generalizing g a with
  | nil => exact pure hg
  | cons x xs ih =>
    subst hg
    exact bind (h g x) (ih rfl)

theorem map {α : Type} {m : Effects α} {g : α → Field β} (h : Feeds E a m.log (g m.value).feed) :
    Feeding E a (g <$> m) := by
  rw [Feeding, Emit.log_map, Emit.value_map]
  exact h

theorem golive {m : Effects (Field β)} (h : Feeding E { a with live := true } m) :
    Feeding E a m := by
  have h := Feeds.trans .golive h
  exact h

theorem addPlayer {n : Newcomer} (hn : E n.id) : Feeding E f.feed (f.addPlayer n) := by
  refine emit (isQuiet_ite _ isQuiet_nil (isQuiet_singleton Counter.noConfusion)) ?_
  refine golive (feeding rfl ?_)
  exact .welcome rfl hn

theorem removePlayer (id : EntityId) : Feeding E f.feed (f.removePlayer id) :=
  bind (feeding rfl .remove)
    (emit (isQuiet_ite _ (isQuiet_singleton Counter.noConfusion) isQuiet_nil) (pure rfl))

theorem onMove (session : EntityId) (c : MoveCommand) :
    Feeding E f.feed (Pure.pure (f.onMove session c)) := by
  unfold Field.onMove
  split
  · exact pure rfl
  · split <;> exact pure rfl

theorem onSkill (attacker target : EntityId) : Feeding E f.feed (f.onSkill attacker target) := by
  unfold Field.onSkill
  split
  · cases f.herd.damage target f.config.skillDamage with
    | none => exact pure rfl
    | some r =>
      dsimp only
      split
      · exact emit (isQuiet_cons Counter.noConfusion (Feed.isQuiet_activity _ _ _))
          (feeding rfl .remove)
      · exact emit (Feed.isQuiet_vitals _ _ _) (pure rfl)
  · exact pure rfl

theorem setViewRadius (radius : Int) : Feeding E f.feed (f.setViewRadius radius) :=
  feeding rfl .setRadius

theorem spawn (t : NpcTemplate) (pos : Vec2) : Feeding E f.feed (Prod.snd <$> f.spawn t pos) := by
  have hadd : Feeding E f.feed (Field.feeding { f with herd := f.herd.spawn t pos }
    (·.add f.herd.nextId false pos)) := feeding rfl (.add Bool.noConfusion)
  exact map (.trans hadd (.trans (.quiet (isQuiet_singleton Counter.noConfusion)) .refl))

theorem populate {g : SpawnGrid} {r : Effects (Nat × Field β)} (hr : f.populate g = some r) :
    Feeding E f.feed (Prod.snd <$> r) := by
  obtain ⟨⟨herd, spawned⟩, -, rfl⟩ := Option.map_eq_some_iff.1 hr
  have hadd : Feeding E f.feed (Field.feeding { f with herd := herd } fun feed =>
      spawned.foldlM (fun feed x => feed.add x.1 false x.2) feed) :=
    feeding rfl (.foldlM (fun _ _ => .add Bool.noConfusion) _ _)
  exact map (.trans hadd (.trans (.quiet (isQuiet_singleton Counter.noConfusion)) .refl))

theorem playersStep (step : Float32) : Feeding E f.feed (f.playersStep step) :=
  feeding rfl (.foldlM (fun _ _ => .move) _ _)

theorem strike (npc target : EntityId) (damage : Int) :
    Feeding E f.feed (f.strike npc target damage) := by
  unfold Field.strike
  split
  · exact pure rfl
  · exact emit (Feed.isQuiet_hit _ _) (emit (Feed.isQuiet_vitals _ _ _) (pure rfl))

theorem settle (o : NpcOutcome) : Feeding E f.feed (f.settle o) := by
  cases o with
  | activity id act => exact emit (Feed.isQuiet_activity _ _ _) (pure rfl)
  | moved id pos => exact feeding rfl .move
  | attacked npc target damage => exact strike npc target damage
  | respawned id pos =>
    exact emit (isQuiet_singleton Counter.noConfusion)
      (bind (feeding rfl (.add Bool.noConfusion)) (emit (Feed.isQuiet_activity _ _ _) (pure rfl)))

theorem npcsStep (step : Float32) : Feeding E f.feed (f.npcsStep step) :=
  foldlM (fun _ => settle) _ rfl

theorem tick (dt : Float32) : Feeding E f.feed (f.tick dt) := by
  refine tick_of f (R := fun f m => Feeding E f.feed m) ?_ ?_ ?_ ?_ ?_ dt
  · exact fun f m k hm hk => bind hm hk
  · exact fun f _ _ _ => pure rfl
  · exact fun f => playersStep _
  · exact fun f => npcsStep _
  · exact fun f => emit (isQuiet_singleton trivial) (pure rfl)

theorem onDecoded {γ : Type} {act : γ → Effects (Field β)} (h : ∀ c, Feeding E f.feed (act c))
    (r : Except DecodeError γ) : Feeding E f.feed (f.onDecoded act r) := by
  cases r with
  | ok c => exact h c
  | error e => exact emit (isQuiet_singleton Counter.noConfusion) (pure rfl)

theorem onCommand (session : EntityId) (c : Envelope) :
    Feeding E f.feed (f.onCommand session c) := by
  cases c with
  | move c => exact onMove session c
  | skill c => exact onSkill session c.target
  | leave => exact removePlayer session

theorem done {m : Effects (Field β)} (h : Feeding E a m) :
    Feeding E a (Prod.fst <$> handle.done m) := by
  refine map ?_
  have hl : (handle.done m).log = m.log := Emit.log_map _ _
  rw [hl]
  exact h

theorem handle {m : Message β} (hm : ¬ m.IsJob) :
    Feeding (fun id => (Deed.handle m).Enters id) f.feed (Prod.fst <$> f.handle m) := by
  cases m with
  | envelope session payload => exact done (onDecoded (onCommand session) _)
  | enter n => exact done (addPlayer rfl)
  | leave player => exact done (removePlayer player)
  | move session payload => exact done (onDecoded (onMove session) _)
  | skill session payload =>
    exact done (onDecoded (fun c : SkillCommand => onSkill session c.target) _)
  | tick dt => exact done (tick dt)
  | viewRadius radius => exact done (setViewRadius radius)
  | job j => exact (hm trivial).elim

theorem perform {d : Deed β} (hd : ¬ d.IsJob) :
    Feeding (fun id => d.Enters id) f.feed (f.perform d) := by
  cases d with
  | handle m => exact handle hd
  | spawn t pos => exact spawn t pos
  | populate g =>
    cases hr : f.populate g with
    | none =>
      have hp : f.perform (.populate g) = Pure.pure f := by simp [Field.perform, hr]
      rw [hp]
      exact pure rfl
    | some r =>
      have hp : f.perform (.populate g) = Prod.snd <$> r := by simp [Field.perform, hr]
      rw [hp]
      exact populate hr

end Feeding

theorem feeds_run (f : Field β) {ds : List (Deed β)} (hd : ∀ d ∈ ds, ¬ d.IsJob) :
    Feeds (fun id => ∃ d ∈ ds, d.Enters id) f.feed (f.run ds).log (f.run ds).value.feed := by
  induction ds generalizing f with
  | nil => exact .refl
  | cons d ds ih =>
    obtain ⟨hd, hds⟩ := List.forall_mem_cons.1 hd
    refine .trans ((Feeding.perform hd).mono fun id he => ⟨d, List.mem_cons_self, he⟩) ?_
    exact (ih _ hds).mono fun id ⟨e, he, hi⟩ => ⟨e, List.mem_cons_of_mem _ he, hi⟩

theorem consistent_run (id : FieldId) (config : FieldConfig) (brain : Brain β)
    (mind : β) (enum : Enumeration) {ds : List (Deed β)} (hd : ∀ d ∈ ds, ¬ d.IsJob) :
    ((fresh id config brain mind enum).run ds).value.feed.Consistent :=
  (feeds_run _ hd).consistent (Feed.consistent_empty config.sectorSize config.viewRadius)

end Field
end Fieldwatch
