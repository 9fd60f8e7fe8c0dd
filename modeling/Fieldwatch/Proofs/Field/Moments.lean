import Fieldwatch.Proofs.Field.Attention
import Fieldwatch.Proofs.Field.Timeline
import Fieldwatch.Proofs.Npc.Outcomes

/-! What is known of the moments of a run. Most of them find tables and feed in agreement; when an
outcome is made known the herd is ahead of the feed, and then it is known in which field the
monsters acted and what of it has been told. Either way all are attuned. -/

namespace Fieldwatch

open Interest

variable {β : Type}

structure Field.Calm (f : Field β) : Prop where
  agrees : f.Agrees
  attuned : f.feed.Attuned

def Act.IsCalm : Act β → Prop
  | .deed d => d.IsOrdinary ∧ ¬ d.IsTick
  | .settle _ => False
  | .clocks .. | .walk _ | .think _ | .stepped => True

inductive Moment.Known : Moment β → Prop
  | calm {f : Field β} {a : Act β} (hf : f.Calm) (ha : a.IsCalm)
      (hr : (f.act a).value.herd.size ≤ Herd.room) : Known ⟨f, a⟩
  /-- The monsters acted in `f`; of what came of it `told` is known already. -/
  | telling {f : Field β} {step : Float32} {told rest : List NpcOutcome} {o : NpcOutcome}
      (hf : f.Calm) (ho : f.outcomes step = told ++ o :: rest) :
      Known ⟨(told.foldlM Field.settle (f.thought step)).value, .settle o⟩

namespace Field

variable {f : Field β}

theorem calm_fresh (id : FieldId) (config : FieldConfig) (brain : Brain β)
    (mind : β) (enum : Enumeration) :
    (fresh id config brain mind enum).Calm :=
  ⟨agrees_fresh id config brain mind enum, Feed.attuned_empty config.sectorSize config.viewRadius⟩

theorem Calm.perform (hf : f.Calm) {d : Deed β} (hd : d.IsOrdinary)
    (hr : (f.perform d).value.herd.size ≤ Herd.room) : (f.perform d).value.Calm :=
  ⟨hf.agrees.perform hd hr, attuned_perform hf.attuned hd.not_isJob⟩

theorem Calm.run (hf : f.Calm) {ds : List (Deed β)} (hd : ∀ d ∈ ds, d.IsOrdinary)
    (hr : (f.run ds).value.herd.size ≤ Herd.room) : (f.run ds).value.Calm :=
  ⟨hf.agrees.run hd hr, attuned_run hf.attuned fun d hm => (hd d hm).not_isJob⟩

theorem Calm.clocks (hf : f.Calm) (time : Float) (playerLag npcLag : Float32) :
    Calm { f with time := time, playerLag := playerLag, npcLag := npcLag } :=
  ⟨hf.agrees.moveless ⟨rfl, rfl, fun _ => rfl⟩, hf.attuned⟩

theorem Calm.playersStep (hf : f.Calm) (step : Float32) : (f.playersStep step).value.Calm :=
  ⟨hf.agrees.playersStep step, (Feeding.playersStep _).attuned hf.attuned⟩

theorem Calm.npcsStep (hf : f.Calm) (step : Float32) : (f.npcsStep step).value.Calm :=
  ⟨hf.agrees.npcsStep step, (Feeding.npcsStep _).attuned hf.attuned⟩

def Unfolds (f : Field β) (as : List (Act β)) : Prop :=
  f.Calm → (f.after as).Calm ∧ ∀ m ∈ f.moments as, m.Known

namespace Unfolds

theorem nil (f : Field β) : f.Unfolds [] := fun hf => ⟨hf, fun _ hm => by cases hm⟩

theorem append {as bs : List (Act β)} (ha : f.Unfolds as) (hb : (f.after as).Unfolds bs) :
    f.Unfolds (as ++ bs) := by
  intro hf
  obtain ⟨hg, has⟩ := ha hf
  obtain ⟨hh, hbs⟩ := hb hg
  rw [after_append, moments_append]
  exact ⟨hh, List.forall_mem_append.2 ⟨has, hbs⟩⟩

theorem single {a : Act β} (ha : a.IsCalm) (h : f.Calm → (f.act a).value.Calm) : f.Unfolds [a] :=
  fun hf => ⟨h hf, List.forall_mem_singleton.2 (.calm hf ha (h hf).agrees.herd.room)⟩

theorem cons {a : Act β} {as : List (Act β)} (ha : a.IsCalm) (h : f.Calm → (f.act a).value.Calm)
    (has : (f.act a).value.Unfolds as) : f.Unfolds (a :: as) := append (single ha h) has

theorem exists_of_mem_moments_settle {os : List NpcOutcome} {m : Moment β}
    (hm : m ∈ f.moments (os.map .settle)) : ∃ told o rest, os = told ++ o :: rest ∧
      m = ⟨(told.foldlM settle f).value, .settle o⟩ := by
  induction os generalizing f with
  | nil => cases hm
  | cons o os ih =>
    rcases List.mem_cons.1 hm with rfl | hm
    · exact ⟨[], o, os, rfl, rfl⟩
    · obtain ⟨told, o', rest, rfl, rfl⟩ := ih hm
      exact ⟨o :: told, o', rest, rfl, rfl⟩

theorem npcActs (f : Field β) (step : Float32) : f.Unfolds (f.npcActs step) := by
  intro hf
  constructor
  · rw [after, foldlM_npcActs]
    exact hf.npcsStep step
  · have hroom : (f.thought step).herd.size ≤ Herd.room :=
      (hf.agrees.herd.of_same (Herd.same_step _ _ _ _ _)).room
    refine List.forall_mem_cons.2 ⟨.calm hf trivial hroom, fun m hm => ?_⟩
    obtain ⟨told, o, rest, ho, rfl⟩ := exists_of_mem_moments_settle hm
    exact .telling hf ho

theorem walkActs (cap : Nat) (f : Field β) : f.Unfolds (walkActs cap f) := by
  induction cap generalizing f with
  | zero => exact nil f
  | succ cap ih =>
    unfold Field.walkActs
    dsimp only
    split
    · refine cons trivial (fun hf => hf.playersStep _) ?_
      exact cons trivial (fun hf => hf.clocks _ _ _) (ih _)
    · exact nil f

theorem prowlActs (cap : Nat) (f : Field β) : f.Unfolds (prowlActs cap f) := by
  induction cap generalizing f with
  | zero => exact nil f
  | succ cap ih =>
    unfold Field.prowlActs
    dsimp only
    split
    · refine append (npcActs f _) ?_
      rw [after, foldlM_npcActs]
      exact cons trivial (fun hf => hf.clocks _ _ _) (ih _)
    · exact nil f

theorem nightActs (f : Field β) (dt : Float32) : f.Unfolds (f.nightActs dt) := by
  refine cons trivial (fun hf => hf.clocks _ _ _) (append (prowlActs _ _) ?_)
  exact single trivial fun hf => hf

theorem tickActs (f : Field β) (dt : Float32) : f.Unfolds (f.tickActs dt) := by
  unfold Field.tickActs
  split
  · exact nil f
  · exact cons trivial (fun hf => hf.clocks _ _ _) (append (walkActs _ _) (nightActs _ _))

theorem acts {d : Deed β} (hd : d.IsOrdinary) (hr : (f.perform d).value.herd.size ≤ Herd.room) :
    f.Unfolds (f.acts d) := by
  have hone : ¬ d.IsTick → f.Unfolds [.deed d] := fun ht =>
    single ⟨hd, ht⟩ fun hf => hf.perform hd hr
  cases d with
  | spawn | populate => exact hone fun h => h
  | handle m =>
    cases m with
    | tick dt => exact tickActs f dt
    | _ => exact hone fun h => h

theorem course {ds : List (Deed β)} (hd : ∀ d ∈ ds, d.IsOrdinary)
    (hr : (f.run ds).value.herd.size ≤ Herd.room) : f.Unfolds (f.course ds) := by
  induction ds generalizing f with
  | nil => exact nil f
  | cons d ds ih =>
    obtain ⟨hd, hds⟩ := List.forall_mem_cons.1 hd
    -- monsters only ever come, so there was room for them before
    have hle := size_le_run (f.perform d).value fun e he => (hds e he).not_isJob
    refine append (acts hd (Nat.le_trans hle hr)) ?_
    rw [after, foldlM_acts]
    exact ih hds hr

end Unfolds

theorem Calm.known (hf : f.Calm) {ds : List (Deed β)} (hd : ∀ d ∈ ds, d.IsOrdinary)
    (hr : (f.run ds).value.herd.size ≤ Herd.room) : ∀ m ∈ f.timeline ds, m.Known :=
  (Unfolds.course hd hr hf).2

theorem Agrees.mem_players_iff (hf : f.Agrees) {p : EntityId} :
    p ∈ f.feed.world.players ↔ p ∈ f.players := by
  refine ⟨fun hp => ?_, hf.mem_players⟩
  obtain ⟨e, he, hi⟩ := (World.mem_players _ p).1 hp
  by_contra hn
  exact hf.entity_stranger he (Std.ExtTreeMap.getElem?_eq_none hn) hi

section Telling

variable {step : Float32} {told rest : List NpcOutcome} {o : NpcOutcome}

theorem settled_telling (f : Field β) (step : Float32) (told : List NpcOutcome) :
    Settled told f (told.foldlM settle (f.thought step)).value := by
  obtain ⟨hr, hrad, hp⟩ := settled_foldlM (f.thought step) told
  exact ⟨hr, hrad, hp⟩

theorem Calm.attuned_telling (hf : f.Calm) (step : Float32) (told : List NpcOutcome) :
    (told.foldlM settle (f.thought step)).value.feed.Attuned :=
  (Feeding.foldlM (fun _ => Feeding.settle) told (g := f.thought step) rfl).attuned hf.attuned

theorem Calm.idBase_lt_subject (hf : f.Calm) (ho : o ∈ f.outcomes step) :
    Npc.idBase < o.subject := by
  obtain ⟨n, hn, -, -, -, hid, -⟩ := Herd.exists_of_mem_outcomes ho
  exact hid ▸ hf.agrees.herd.idBase_lt hn

theorem Calm.record_telling (hf : f.Calm) (ho : f.outcomes step = told ++ rest) {p : EntityId}
    (hp : p ∈ f.players) : (told.foldlM settle (f.thought step)).value.feed.world.record p =
      f.feed.world.record p := by
  rw [(settled_telling f step told).record, NpcOutcome.foldl_tell_of_ne]
  rintro o ho' rfl
  have hmem : o ∈ f.outcomes step := ho ▸ List.mem_append_left _ ho'
  exact UInt64.not_lt.2 (hf.agrees.players_le _ hp) (hf.idBase_lt_subject hmem)

theorem Calm.mem_players_telling (hf : f.Calm) (ho : f.outcomes step = told ++ rest)
    {p : EntityId} :
    p ∈ (told.foldlM settle (f.thought step)).value.feed.world.players ↔
      p ∈ (told.foldlM settle (f.thought step)).value.players := by
  rw [mem_players_of_places (settled_telling f step told).places, ← hf.agrees.mem_players_iff]
  constructor
  · exact Feeds.mem_players (E := fun _ => False)
      (Feeding.foldlM (fun _ => Feeding.settle) told (g := f.thought step) rfl) fun h => h
  · intro hp
    have hrecord := hf.record_telling ho (hf.agrees.mem_players_iff.1 hp)
    rw [World.mem_players_iff_record] at hp ⊢
    rw [hrecord]
    exact hp

theorem mem_entities_telling {s : EntityId} :
    s ∈ (told.foldlM settle (f.thought step)).value.feed.world.entities ↔
      s ∈ f.feed.world.entities ∨ ∃ pos, .respawned s pos ∈ told := by
  rw [World.mem_entities_iff_record, (settled_telling f step told).record,
    NpcOutcome.isSome_foldl_tell, World.mem_entities_iff_record]

theorem Calm.subject_mem_entities (hf : f.Calm) (ho : f.outcomes step = told ++ o :: rest)
    (hp : o.passage? = none) :
    o.subject ∈ (told.foldlM settle (f.thought step)).value.feed.world.entities := by
  obtain ⟨n, hn, m, hs, hm, hid, -⟩ := Herd.exists_of_mem_outcomes (o := o)
    (by change o ∈ f.outcomes step; rw [ho]; simp)
  have ha := (hs.isAlive_iff_of_mem hm).2 hp
  exact mem_entities_telling.2 (.inl (hf.agrees.mem_entities.2 (.inr ⟨n, hn, hid, ha⟩)))

theorem Calm.respawned (hf : f.Calm) {id : EntityId} {pos : Vec2}
    (ho : f.outcomes step = told ++ .respawned id pos :: rest) :
    id ∉ (told.foldlM settle (f.thought step)).value.feed.world.entities ∧
      ∃ n, (told.foldlM settle (f.thought step)).value.herd.get? id = some n ∧
        n.hp = n.template.maxHp ∧ n.spawnPoint = pos := by
  have hs := hf.agrees.herd
  have hmem : .respawned id pos ∈ f.outcomes step := by simp [ho]
  obtain ⟨n, hn, m, hm, hom, hid, hthere⟩ := Herd.exists_of_mem_outcomes hmem
  have hdead : ¬ n.isAlive := fun ha => by cases (hm.isAlive_iff_of_mem hom).1 ha
  obtain ⟨-, hpos, hspawn⟩ := hm.eq_of_respawned hom
  constructor
  · rw [mem_entities_telling, hf.agrees.mem_entities]
    rintro ((hp | ⟨k, hk, hkid, ha⟩) | ⟨pos', htold⟩)
    · exact UInt64.not_lt.2 (hf.agrees.players_le id hp) (hf.idBase_lt_subject hmem)
    · exact hdead (hs.eq_of_id_eq hk hn (hkid.trans hid.symm) ▸ ha)
    · exact hs.respawned_once ho pos' htold
  · have hget := (hs.of_same (Herd.same_step _ _ _ _ _)).get?_of_mem hthere
    refine ⟨m.1, ?_, ?_, ?_⟩
    · rw [herd_foldlM_settle]
      rw [hm.id_eq, hid] at hget
      exact hget
    · rw [hspawn]
      rfl
    · rw [hspawn]
      exact hpos

theorem mem_players_of_position {id : EntityId} (h : (f.playerView.position id).isSome) :
    id ∈ f.players := by
  rw [position_playerView, Option.isSome_map] at h
  exact Std.ExtTreeMap.mem_iff_isSome_getElem?.2 h

theorem target_mem_players {npc target : EntityId} {damage : Int}
    (ho : f.outcomes step = told ++ .attacked npc target damage :: rest) :
    target ∈ (told.foldlM settle (f.thought step)).value.players := by
  have hmem : .attacked npc target damage ∈ f.outcomes step := by simp [ho]
  obtain ⟨n, -, m, hm, hom, -, -⟩ := Herd.exists_of_mem_outcomes hmem
  rw [mem_players_of_places (settled_telling f step told).places]
  obtain ⟨-, -, -, -, hview, -⟩ := hm.of_attacked hom
  exact mem_players_of_position hview

end Telling

end Field

namespace Moment.Known

variable {m : Moment β}

theorem attuned (h : m.Known) : m.field.feed.Attuned := by
  cases h with
  | calm hf _ _ => exact hf.attuned
  | telling hf _ => exact hf.attuned_telling _ _

theorem mem_players_iff (h : m.Known) {p : EntityId} :
    p ∈ m.field.feed.world.players ↔ p ∈ m.field.players := by
  cases h with
  | calm hf _ _ => exact hf.agrees.mem_players_iff
  | telling hf ho => exact hf.mem_players_telling ho

theorem deed (h : m.Known) {d : Deed β} (hd : m.act = .deed d) :
    m.field.Calm ∧ d.IsOrdinary ∧ ¬ d.IsTick ∧
      (m.field.perform d).value.herd.size ≤ Herd.room := by
  cases h with
  | calm hf ha hr =>
    cases hd
    exact ⟨hf, ha.1, ha.2, hr⟩
  | telling => cases hd

theorem settle (h : m.Known) {o : NpcOutcome} (hm : m.act = .settle o) :
    ∃ (f : Field β) (step : Float32) (told rest : List NpcOutcome), f.Calm ∧
      f.outcomes step = told ++ o :: rest ∧
      m.field = (told.foldlM Field.settle (f.thought step)).value := by
  cases h with
  | calm _ ha _ =>
    subst hm
    exact ha.elim
  | telling hf ho =>
    cases hm
    exact ⟨_, _, _, _, hf, ho, rfl⟩

end Moment.Known
end Fieldwatch
