import Fieldwatch.Proofs.Npc.Outcomes

/-! What a herd reports of its monsters. Whoever keeps nothing of a monster but what was reported of
it, in order, still has its activity and its place: nothing that happens to a herd changes either
without a report. -/

namespace Fieldwatch

inductive Report where
  | spawned (id : EntityId) (pos : Vec2)
  | died (id : EntityId)
  | outcome (o : NpcOutcome)

structure Sketch where
  activity : Activity
  pos : Vec2

def Npc.sketch (n : Npc) : Sketch := ⟨n.activity, n.pos⟩

namespace Report

def about : Report → EntityId
  | .spawned id _ | .died id => id
  | .outcome o => o.subject

def newcomer? : Report → Option EntityId
  | .spawned id _ => some id
  | .died _ | .outcome _ => none

def correct (s : Option Sketch) : Report → Option Sketch
  | .spawned _ pos | .outcome (.respawned _ pos) => some ⟨.idle, pos⟩
  | .died _ => s.map fun x => { x with activity := .dead }
  | .outcome (.activity _ a) => s.map fun x => { x with activity := a }
  | .outcome (.moved _ pos) => s.map fun x => { x with pos := pos }
  | .outcome (.attacked ..) => s

end Report

def sketchOf (told : List Report) (j : EntityId) : Option Sketch :=
  (told.filter (·.about = j)).foldl Report.correct none

theorem sketchOf_append (told more : List Report) (j : EntityId) : sketchOf (told ++ more) j =
    (more.filter (·.about = j)).foldl Report.correct (sketchOf told j) := by
  rw [sketchOf, List.filter_append, List.foldl_append, sketchOf]

theorem filter_about_outcome (os : List NpcOutcome) (j : EntityId) :
    (os.map Report.outcome).filter (·.about = j) =
      (os.filter (·.subject = j)).map Report.outcome := List.filter_map

namespace Npc

variable {n : Npc} {m : Npc × List NpcOutcome} {view : PlayerView} {step : Float32}

theorem sketch_takeDamage (n : Npc) (damage : Int) : (n.takeDamage damage).sketch =
    if (n.takeDamage damage).hp = 0 then ⟨.dead, n.pos⟩ else n.sketch := by
  rw [sketch, activity_takeDamage, pos_takeDamage]
  split <;> rfl

/-- What may be told of `n` in one step: of a dead monster its comeback or nothing, of a live one a
change of activity, a move and an attack, each at most once and in this order. -/
def Tells (n : Npc) (os : List NpcOutcome) : Prop :=
  if n.isAlive then
    ∃ (a : Option Activity) (pos : Option Vec2) (hit : Option (EntityId × Int)),
      a ≠ some n.activity ∧ os = (a.map (.activity n.id ·)).toList ++
        ((pos.map (.moved n.id ·)).toList ++ (hit.map fun x => .attacked n.id x.1 x.2).toList)
  else os = [] ∨ ∃ pos, os = [.respawned n.id pos]

theorem Stepped.tells (h : n.Stepped view step m) : n.Tells m.2 := by
  rcases h with ⟨ha, i, rfl⟩ | ⟨ha, rfl⟩
  · rw [Tells, if_pos ha]
    let k := n.perform step (n.act view i)
    refine ⟨if k.activity = n.activity then none else some k.activity,
      if 0 < (n.act view i).speed then some k.pos else none,
      (k.strikes view step).map (·, n.template.atk), ?_, ?_⟩
    · split
      · simp
      · next hne => exact fun he => hne (Option.some.inj he)
    · have hact : (if k.activity = n.activity then [] else [NpcOutcome.activity n.id k.activity]) =
          ((if k.activity = n.activity then none else some k.activity).map
            (NpcOutcome.activity n.id ·)).toList := by split <;> rfl
      have hpos : (if 0 < (n.act view i).speed then [NpcOutcome.moved n.id k.pos] else []) =
          ((if 0 < (n.act view i).speed then some k.pos else none).map
            (NpcOutcome.moved n.id ·)).toList := by split <;> rfl
      have hhit : (k.strikes view step).toList.map (.attacked n.id · n.template.atk) =
          (((k.strikes view step).map (·, n.template.atk)).map
            fun x => NpcOutcome.attacked n.id x.1 x.2).toList := by
        cases k.strikes view step <;> rfl
      rw [← hact, ← hpos, ← hhit, ← List.append_assoc]
      rfl
  · rw [Tells, if_neg ha]
    unfold deadStep
    split
    · dsimp only
      split
      · exact .inl rfl
      · exact .inr ⟨_, rfl⟩
    · exact .inl rfl

theorem Stepped.foldl_correct (h : n.Stepped view step m) :
    (m.2.map Report.outcome).foldl Report.correct (some n.sketch) = some m.1.sketch := by
  rcases h with ⟨-, i, rfl⟩ | ⟨-, rfl⟩
  · -- the change of activity and the move are told just where there is one, a hit changes neither
    let a := n.act view i
    let k := n.perform step a
    have hm : (n.liveStep view step a).1.sketch = ⟨a.activity, k.pos⟩ := by
      rw [sketch, activity_liveStep, pos_liveStep]
    have hact : ((if k.activity = n.activity then []
        else [NpcOutcome.activity n.id k.activity]).map Report.outcome).foldl Report.correct
          (some n.sketch) = some ⟨a.activity, n.pos⟩ := by
      split
      · next he => exact congrArg (fun x => some (Sketch.mk x n.pos)) he.symm
      · rfl
    have hpos : ((if 0 < a.speed then [NpcOutcome.moved n.id k.pos] else []).map
        Report.outcome).foldl Report.correct (some ⟨a.activity, n.pos⟩) =
          some ⟨a.activity, k.pos⟩ := by
      split
      · rfl
      · next hs => exact congrArg (fun x => some (Sketch.mk a.activity x)) (if_neg hs).symm
    have hhit : (((k.strikes view step).toList.map
        (NpcOutcome.attacked n.id · n.template.atk)).map Report.outcome).foldl Report.correct
          (some ⟨a.activity, k.pos⟩) = some ⟨a.activity, k.pos⟩ := by
      cases k.strikes view step <;> rfl
    rw [hm]
    simp only [liveStep, List.map_append, List.foldl_append]
    rw [hact, hpos, hhit]
  · unfold deadStep
    split
    · dsimp only
      split
      · rfl
      · rfl
    · rfl

theorem Tells.activity_first {id : EntityId} {a : Activity} {before after : List NpcOutcome}
    (h : n.Tells (before ++ .activity id a :: after)) : before = [] ∧ a ≠ n.activity := by
  rw [Tells] at h
  split at h
  · obtain ⟨b, pos, hit, hb, he⟩ := h
    have hlater : ∀ o ∈ (pos.map (NpcOutcome.moved n.id ·)).toList ++
        (hit.map fun x => NpcOutcome.attacked n.id x.1 x.2).toList, o ≠ .activity id a := by
      cases pos <;> cases hit <;> simp
    cases b with
    | none =>
      simp only [Option.map_none, Option.toList_none, List.nil_append] at he
      exact absurd rfl (hlater (.activity id a) (by simp [← he]))
    | some b =>
      simp only [Option.map_some, Option.toList_some, List.singleton_append] at he
      rcases List.append_eq_cons_iff.1 he with ⟨rfl, he⟩ | ⟨l, -, he⟩
      · cases (List.cons.inj he).1
        exact ⟨rfl, fun hab => hb (congrArg some hab)⟩
      · exact absurd rfl (hlater (.activity id a) (by simp [he]))
  · rcases h with he | ⟨pos, he⟩
    · simp at he
    · have ho : .activity id a ∈ [NpcOutcome.respawned n.id pos] := by simp [← he]
      simp at ho

end Npc

structure Episode : Type 1 where
  herd : Herd
  turn : Turn

namespace Herd

variable {h : Herd}

def reports (h : Herd) : Turn → List Report
  | .spawn _ pos => [.spawned h.nextId pos]
  | .populate g => ((h.populate g).elim [] Prod.snd).map fun x => .spawned x.1 x.2
  | .damage id amount =>
    match h.damage id amount with
    | none => []
    | some (_, n) => if n.hp = 0 then [.died id] else []
  | .step brain mind view step => (h.step brain mind view step).2.2.map .outcome

def episodes (h : Herd) : List Turn → List Episode
  | [] => []
  | t :: ts => ⟨h, t⟩ :: (h.turn t).value.episodes ts

def tidings (h : Herd) (ts : List Turn) : List Report :=
  (h.episodes ts).flatMap fun e => e.herd.reports e.turn

theorem tidings_cons (h : Herd) (t : Turn) (ts : List Turn) :
    h.tidings (t :: ts) = h.reports t ++ (h.turn t).value.tidings ts := rfl

theorem foldl_correct_spawn (hh : h.Numbered) (hr : h.size < room) (t : NpcTemplate) (pos : Vec2)
    (j : EntityId) : ([Report.spawned h.nextId pos].filter (·.about = j)).foldl Report.correct
      ((h.get? j).map Npc.sketch) = ((h.spawn t pos).get? j).map Npc.sketch := by
  rw [hh.get?_spawn hr]
  by_cases hj : j = h.nextId
  · subst hj
    rw [if_pos rfl, List.filter_cons_of_pos (by simp [Report.about])]
    rfl
  · rw [if_neg hj, List.filter_cons_of_neg (by simp [Report.about, Ne.symm hj])]
    rfl

theorem foldl_correct_spawnEach (hh : h.Numbered) {l : List (Vec2 × Nat)}
    (hr : h.size + l.length ≤ room) (j : EntityId) :
    (((h.spawned l).map fun n => Report.spawned n.id n.pos).filter (·.about = j)).foldl
      Report.correct ((h.get? j).map Npc.sketch) = ((h.spawnEach l).get? j).map Npc.sketch := by
  induction l generalizing h with
  | nil => rfl
  | cons x l ih =>
    rw [List.length_cons] at hr
    have hfirst := foldl_correct_spawn hh (by omega) (NpcTemplate.nth x.2) x.1 j
    have hrest := ih (hh.spawn (NpcTemplate.nth x.2) x.1) (by rw [size_spawn]; omega)
    rw [spawned_cons, List.map_cons, ← List.singleton_append, List.filter_append,
      List.foldl_append]
    rw [← hfirst] at hrest
    exact hrest

theorem foldl_correct_step {β : Type} (hh : h.Numbered) (hr : h.size ≤ room) (brain : Brain β)
    (mind : β) (view : PlayerView) (step : Float32) (j : EntityId) :
    (((h.step brain mind view step).2.2.map Report.outcome).filter (·.about = j)).foldl
      Report.correct ((h.get? j).map Npc.sketch) =
        ((h.step brain mind view step).1.get? j).map Npc.sketch := by
  rw [filter_about_outcome]
  rcases step_at brain view step h (hh.nodup hr) mind j with ⟨hn, hg, ho⟩ | ⟨n, m, hm, hn, hg, ho⟩
  · rw [hn, hg, ho]
    rfl
  · rw [hn, hg, ho]
    exact hm.foldl_correct

theorem foldl_correct_turn (hh : h.Numbered) {t : Turn} (hr : (h.turn t).value.size ≤ room)
    (j : EntityId) : ((h.reports t).filter (·.about = j)).foldl Report.correct
      ((h.get? j).map Npc.sketch) = ((h.turn t).value.get? j).map Npc.sketch := by
  cases t with
  | spawn t pos =>
    change (h.spawn t pos).size ≤ room at hr
    rw [size_spawn] at hr
    exact foldl_correct_spawn hh hr t pos j
  | populate g =>
    rcases hp : h.populate g with _ | ⟨k, sp⟩
    · simp [turn, reports, hp]
    · obtain ⟨rfl, rfl⟩ := populate_eq_some hp
      simp only [turn, reports, hp, Emit.value_pure, Option.elim_some, size_spawnEach,
        List.map_map] at hr ⊢
      exact foldl_correct_spawnEach hh hr j
  | damage id amount =>
    rcases hd : h.damage id amount with _ | ⟨g, n⟩
    · simp [turn, reports, hd]
    · obtain ⟨m, hm, ha, rfl, -⟩ := damage_eq_some hd
      simp only [turn, reports, hd, get?_damage hd]
      by_cases hj : j = id
      · subst hj
        rw [if_pos rfl, hm, Option.map_some, Option.map_some, Npc.sketch_takeDamage]
        by_cases h0 : (m.takeDamage amount).hp = 0
        · simp [h0, Report.about, Report.correct, Npc.sketch]
        · simp [h0]
      · rw [if_neg hj]
        by_cases h0 : (m.takeDamage amount).hp = 0 <;> simp [h0, Report.about, Ne.symm hj]
  | step brain mind view step =>
    have hsize := (same_step brain view step h mind).size_eq
    exact foldl_correct_step hh (hsize ▸ hr) brain mind view step j

theorem foldl_correct_tidings (hh : h.Numbered) {ts : List Turn}
    (hr : (h.undergo ts).value.size ≤ room) (j : EntityId) :
    ((h.tidings ts).filter (·.about = j)).foldl Report.correct ((h.get? j).map Npc.sketch) =
      ((h.undergo ts).value.get? j).map Npc.sketch := by
  induction ts generalizing h with
  | nil => rfl
  | cons t ts ih =>
    have hr' := Nat.le_trans (size_le_undergo (h.turn t).value ts) hr
    rw [tidings_cons, List.filter_append, List.foldl_append, foldl_correct_turn hh hr']
    exact ih (hh.turn t) hr

theorem newcomers_turn (h : Herd) (t : Turn) : (h.turn t).value.members.map Npc.id =
    h.members.map Npc.id ++ (h.reports t).filterMap Report.newcomer? := by
  cases t with
  | spawn t pos => exact List.map_append
  | populate g =>
    rcases hp : h.populate g with _ | ⟨k, sp⟩
    · simp [turn, reports, hp]
    · obtain ⟨rfl, rfl⟩ := populate_eq_some hp
      simp [turn, reports, hp, members_spawnEach, List.filterMap_map, Report.newcomer?,
        Function.comp_def]
  | damage id amount =>
    rcases hd : h.damage id amount with _ | ⟨g, n⟩
    · simp [turn, reports, hd]
    · have hnone : (if n.hp = 0 then [Report.died id] else []).filterMap Report.newcomer? = [] := by
        split <;> rfl
      simp only [turn, reports, hd, hnone, List.append_nil]
      exact (same_damage hd).ids
  | step brain mind view step =>
    have hnone : ((h.step brain mind view step).2.2.map Report.outcome).filterMap
        Report.newcomer? = [] := by simp [List.filterMap_map, Report.newcomer?]
    rw [reports, hnone, List.append_nil]
    exact (same_step brain view step h mind).ids

theorem newcomers_tidings (h : Herd) (ts : List Turn) : (h.undergo ts).value.members.map Npc.id =
    h.members.map Npc.id ++ (h.tidings ts).filterMap Report.newcomer? := by
  induction ts generalizing h with
  | nil => simp [undergo, tidings, episodes]
  | cons t ts ih =>
    rw [undergo_cons, Emit.value_bind, ih, newcomers_turn, tidings_cons, List.filterMap_append,
      List.append_assoc]

/-- In any history of a herd, whoever goes by the reports knows the activity and the place of every
monster, and knows them in the order in which they came. A step tells of them in that order: of a
dead one its comeback or nothing, of a live one a change of activity, a move and an attack, each at
most once and in this order. No change of activity is told of that is known already. -/
theorem reports_tell_every_change (delay : Float32) (ts : List Turn)
    (hr : (undergo { respawnDelay := delay } ts).value.size ≤ room) :
    let h := (undergo { respawnDelay := delay } ts).value
    let told := tidings { respawnDelay := delay } ts
    (∀ n ∈ h.members, sketchOf told n.id = some ⟨n.activity, n.pos⟩) ∧
    told.filterMap Report.newcomer? = h.members.map Npc.id ∧
    ∀ {β : Type} (brain : Brain β) (mind : β) (view : PlayerView) (step : Float32),
      let os := (h.step brain mind view step).2.2
      (∃ parts, List.Forall₂ Npc.Tells h.members parts ∧ os = parts.flatten) ∧
      ∀ before id a after, os = before ++ .activity id a :: after →
        ∃ s, sketchOf (told ++ before.map .outcome) id = some s ∧ s.activity ≠ a := by
  intro h told
  have hh : h.Numbered := (numbered_empty delay).undergo ts
  have hsketch : ∀ j, sketchOf told j = (h.get? j).map Npc.sketch :=
    foldl_correct_tidings (numbered_empty delay) hr
  have hcame := newcomers_tidings { respawnDelay := delay } ts
  refine ⟨fun n hn => ?_, hcame.symm, fun brain mind view step => ⟨?_, ?_⟩⟩
  · rw [hsketch, hh.get?_of_mem hr hn]
    rfl
  · obtain ⟨ms, hms, -, ho⟩ := step_spec brain view step h mind
    refine ⟨ms.map Prod.snd, ?_, by rw [ho, List.flatMap_def]⟩
    exact List.forall₂_map_right_iff.2 (hms.imp fun _ _ hm => hm.tells)
  · intro before id a after ho
    have hat := step_at brain view step h (hh.nodup hr) mind id
    rw [ho, List.filter_append, List.filter_cons_of_pos (by simp [NpcOutcome.subject])] at hat
    rcases hat with ⟨-, -, he⟩ | ⟨n, m, hm, hn, -, he⟩
    · simp at he
    · -- nothing has been told of it before in this step, so its sketch is the one from before
      obtain ⟨hbefore, hne⟩ := (he ▸ hm.tells).activity_first
      refine ⟨n.sketch, ?_, hne.symm⟩
      rw [sketchOf_append, filter_about_outcome, hbefore, hsketch, hn]
      rfl

/-- One monster wanders about, the other one is killed and comes back. -/
theorem reports_tell_every_change_patrol :
    let view : PlayerView := ⟨fun _ => none, fun _ _ => none⟩
    let brain : Brain Unit := ⟨fun _ n _ =>
      (if n.id = Npc.idBase + 1 then .wander ⟨1, 0⟩ 2 else .hold, ())⟩
    let ts : List Turn := [.spawn (NpcTemplate.nth 0) ⟨1, 2⟩, .step brain () view 0.5,
      .spawn (NpcTemplate.nth 1) ⟨3, 4⟩, .damage (Npc.idBase + 2) 500, .step brain () view 6]
    let h := (undergo { respawnDelay := 5 } ts).value
    let told := tidings { respawnDelay := 5 } ts
    h.size ≤ room ∧ told.length = 7 ∧
      (sketchOf told (Npc.idBase + 1)).map Sketch.activity = some .moving ∧
      (∀ n ∈ h.members, sketchOf told n.id = some ⟨n.activity, n.pos⟩) ∧
      told.filterMap Report.newcomer? = h.members.map Npc.id := by
  intro view brain ts h told
  have hr : h.size ≤ room := by decide +kernel
  obtain ⟨hsketch, hcame, -⟩ := reports_tell_every_change 5 ts hr
  exact ⟨hr, by decide +kernel, by decide +kernel, hsketch, hcame⟩

end Herd
end Fieldwatch
