import Fieldwatch.Proofs.Npc.Histories
import Mathlib.Data.List.Chain
import Mathlib.Data.List.Induction

/-! The life cycle of monsters. A monster carries its death in three places, its hit points, its
activity and its respawn; nothing that happens to a herd makes them disagree. So every death is
followed by a comeback before there can be another one, and the herd counts as alive those whose
last passage was not a death. -/

namespace Fieldwatch

namespace Npc

structure Coherent (n : Npc) : Prop where
  hp_nonneg : 0 ≤ n.hp
  hp_le : n.hp ≤ n.template.maxHp
  dead_iff : n.activity = .dead ↔ n.hp = 0
  pending_iff : n.respawn.pending ↔ n.hp = 0
  at_rest : n.hp = 0 → n.target = none ∧ n.speed = 0 ∧ n.attackTimer = 0

variable {n : Npc} {view : PlayerView} {step : Float32}

theorem isAlive_iff : n.isAlive ↔ 0 < n.hp := decide_eq_true_iff

theorem Coherent.isAlive_iff_ne (h : n.Coherent) : n.isAlive ↔ n.hp ≠ 0 := by
  have := h.hp_nonneg
  rw [isAlive_iff]
  omega

theorem coherent_spawn {t : NpcTemplate} (ht : 0 < t.maxHp) (id : EntityId) (pos : Vec2)
    (delay : Float32) : (spawn id t pos delay).Coherent where
  hp_nonneg := Int.le_of_lt ht
  hp_le := Int.le_refl _
  dead_iff := iff_of_false Activity.noConfusion (Int.ne_of_gt ht)
  pending_iff := iff_of_false Bool.noConfusion (Int.ne_of_gt ht)
  at_rest h0 := absurd h0 (Int.ne_of_gt ht)

theorem Coherent.takeDamage (h : n.Coherent) (ha : n.isAlive) (amount : Int) :
    (n.takeDamage amount).Coherent := by
  have hle := h.hp_le
  have hpos := isAlive_iff.1 ha
  unfold Npc.takeDamage
  dsimp only
  split
  · next h0 =>
    rw [h0]
    exact ⟨Int.le_refl 0, Int.le_trans h.hp_nonneg hle, by simp, by simp, fun _ => ⟨rfl, rfl, rfl⟩⟩
  · next h0 =>
    -- a wound leaves everything but the hit points as it was for a live monster
    have hne := h.isAlive_iff_ne.1 ha
    refine ⟨Int.le_max_right .., ?_, ?_, ?_, fun h' => absurd h' h0⟩
    · change max (n.hp - max amount 0) 0 ≤ n.template.maxHp
      omega
    · exact iff_of_false (mt h.dead_iff.1 hne) h0
    · exact iff_of_false (mt h.pending_iff.1 hne) h0

theorem activity_act (n : Npc) (view : PlayerView) (i : Intent) :
    (n.act view i).activity ≠ .dead := by
  cases i with
  | hold => exact Activity.noConfusion
  | wander dir speed =>
    rw [act]
    split <;> exact Activity.noConfusion
  | chase target speed =>
    rw [act]
    split
    · exact Activity.noConfusion
    · dsimp only
      split <;> exact Activity.noConfusion
  | attack target => exact Activity.noConfusion

theorem activity_liveStep (n : Npc) (view : PlayerView) (step : Float32) (a : Action) :
    (n.liveStep view step a).1.activity = a.activity := by
  simp only [liveStep, windUp]
  split <;> rfl

theorem target_liveStep (n : Npc) (view : PlayerView) (step : Float32) (a : Action) :
    (n.liveStep view step a).1.target = a.target := by
  simp only [liveStep, windUp]
  split <;> rfl

theorem respawn_liveStep (n : Npc) (view : PlayerView) (step : Float32) (a : Action) :
    (n.liveStep view step a).1.respawn = n.respawn := by
  simp only [liveStep, windUp]
  split <;> rfl

theorem Coherent.liveStep (h : n.Coherent) (ha : n.isAlive) (view : PlayerView) (step : Float32)
    (i : Intent) : (n.liveStep view step (n.act view i)).1.Coherent where
  hp_nonneg := by rw [hp_liveStep]; exact h.hp_nonneg
  hp_le := by rw [hp_liveStep, template_liveStep]; exact h.hp_le
  dead_iff := by
    rw [hp_liveStep, activity_liveStep]
    exact iff_of_false (activity_act n view i) (h.isAlive_iff_ne.1 ha)
  pending_iff := by rw [hp_liveStep, respawn_liveStep]; exact h.pending_iff
  at_rest h0 := by
    rw [hp_liveStep] at h0
    exact absurd h0 (h.isAlive_iff_ne.1 ha)

theorem Coherent.deadStep (h : n.Coherent) (hp : 0 < n.template.maxHp) (step : Float32) :
    (n.deadStep step).1.Coherent := by
  unfold Npc.deadStep
  split
  · dsimp only
    split
    · exact ⟨h.hp_nonneg, h.hp_le, h.dead_iff, h.pending_iff, h.at_rest⟩
    · exact coherent_spawn hp ..
  · exact h

theorem Stepped.coherent {m : Npc × List NpcOutcome} (hm : n.Stepped view step m)
    (h : n.Coherent) (hp : 0 < n.template.maxHp) : m.1.Coherent := by
  rcases hm with ⟨ha, i, rfl⟩ | ⟨-, rfl⟩
  · exact h.liveStep ha view step i
  · exact h.deadStep hp step

end Npc

def passages (id : EntityId) (l : List (EntityId × Passage)) : List Passage :=
  (l.filter (·.1 = id)).map Prod.snd

@[simp] theorem passages_append (id : EntityId) (l m : List (EntityId × Passage)) :
    passages id (l ++ m) = passages id l ++ passages id m := by simp [passages]

theorem passages_filter (id : EntityId) (os : List NpcOutcome) :
    passages id ((os.filter (·.subject = id)).filterMap NpcOutcome.passage?) =
      passages id (os.filterMap NpcOutcome.passage?) := by
  induction os with
  | nil => rfl
  | cons o os ih =>
    rw [← List.singleton_append, List.filter_append, List.filterMap_append, List.filterMap_append,
      passages_append, passages_append, ih]
    congr 1
    by_cases ho : o.subject = id
    · rw [List.filter_cons_of_pos (by simpa using ho), List.filter_nil]
    · rw [List.filter_cons_of_neg (by simpa using ho), List.filter_nil]
      cases o with
      | respawned j pos =>
        have hj : j ≠ id := ho
        simp [passages, NpcOutcome.passage?, hj]
      | activity | moved | attacked => rfl

namespace Passage

def pass (down : Bool) : Passage → Option Bool
  | .death => if down then none else some true
  | .comeback => if down then some false else none

def Alternate (l : List Passage) : Prop := l.IsChain (· ≠ ·) ∧ l.head? ≠ some .comeback

theorem head?_of_foldlM {down up : Bool} {l : List Passage} (h : l.foldlM pass down = some up) :
    l.head? ≠ some (if down then .death else .comeback) := by
  cases l with
  | nil => simp
  | cons x l => cases down <;> cases x <;> simp [pass] at h ⊢

theorem isChain_of_foldlM {down up : Bool} {l : List Passage} (h : l.foldlM pass down = some up) :
    l.IsChain (· ≠ ·) := by
  induction l generalizing down with
  | nil => exact .nil
  | cons x l ih =>
    rw [List.foldlM_cons] at h
    obtain ⟨d, hx, h⟩ := Option.bind_eq_some_iff.1 h
    have hd := head?_of_foldlM h
    refine List.isChain_cons.2 ⟨fun y hy hxy => ?_, ih h⟩
    rw [Option.mem_def] at hy
    subst hxy
    -- the passage that has just been made cannot be made again
    cases down <;> cases x <;> simp_all [pass]

theorem getLast?_of_foldlM {down : Bool} {l : List Passage} (h : l.foldlM pass false = some down) :
    down ↔ l.getLast? = some .death := by
  induction l using List.reverseRecOn with
  | nil =>
    cases h
    simp
  | append_singleton l x _ =>
    rw [List.foldlM_append] at h
    obtain ⟨d, -, hx⟩ := Option.bind_eq_some_iff.1 h
    cases x <;> cases d <;> simp_all [pass]

end Passage

namespace Npc

variable {n : Npc} {m : Npc × List NpcOutcome} {view : PlayerView} {step : Float32}

theorem passage?_liveStep (a : Action) (n : Npc) (view : PlayerView) (step : Float32) :
    (n.liveStep view step a).2.filterMap NpcOutcome.passage? = [] := by
  simp only [liveStep, List.filterMap_append, List.append_eq_nil_iff, List.filterMap_eq_nil_iff]
  refine ⟨⟨fun o ho => ?_, fun o ho => ?_⟩, fun o ho => ?_⟩
  · split at ho
    · cases ho
    · rw [List.mem_singleton.1 ho]
      rfl
  · split at ho
    · rw [List.mem_singleton.1 ho]
      rfl
    · cases ho
  · obtain ⟨t, -, rfl⟩ := List.mem_map.1 ho
    rfl

theorem Stepped.foldlM_pass (h : n.Stepped view step m) (hp : 0 < n.template.maxHp) :
    (passages n.id (m.2.filterMap NpcOutcome.passage?)).foldlM Passage.pass (!n.isAlive) =
      some (!m.1.isAlive) := by
  rcases h with ⟨ha, i, rfl⟩ | ⟨ha, rfl⟩
  · rw [passage?_liveStep]
    simp [passages, isAlive]
  · have hd : n.isAlive = false := by simpa using ha
    rw [hd]
    unfold deadStep
    split
    · dsimp only
      split
      · exact congrArg (some !·) hd.symm
      · simp [passages, NpcOutcome.passage?, Passage.pass, spawn, isAlive, hp]
    · exact congrArg (some !·) hd.symm

end Npc

namespace Herd

variable {h : Herd} {view : PlayerView} {step : Float32}

def isDown (h : Herd) (id : EntityId) : Bool := (h.get? id).any fun n => !n.isAlive

def Coherent (h : Herd) : Prop := ∀ n ∈ h.members, n.Coherent

theorem Coherent.spawn (hc : h.Coherent) {t : NpcTemplate} (ht : 0 < t.maxHp) (pos : Vec2) :
    (h.spawn t pos).Coherent := by
  intro n hn
  rcases List.mem_append.1 hn with hn | hn
  · exact hc n hn
  · rw [List.mem_singleton.1 hn]
    exact Npc.coherent_spawn ht ..

theorem Coherent.spawnEach (hc : h.Coherent) (l : List (Vec2 × Nat)) :
    (h.spawnEach l).Coherent := by
  induction l generalizing h with
  | nil => exact hc
  | cons x l ih =>
    have ht : 0 < (NpcTemplate.nth x.2).maxHp := by rw [maxHp_nth]; decide
    exact ih (hc.spawn ht x.1)

theorem Coherent.turn (hc : h.Coherent) (hs : h.Sound) {t : Turn} (ht : t.IsFair) :
    (h.turn t).value.Coherent := by
  cases t with
  | spawn t pos => exact hc.spawn ht pos
  | populate g =>
    rcases hp : h.populate g with _ | ⟨k, sp⟩
    · simpa [Herd.turn, hp] using hc
    · obtain ⟨rfl, -⟩ := populate_eq_some hp
      simpa [Herd.turn, hp] using hc.spawnEach _
  | damage id amount =>
    rcases hd : h.damage id amount with _ | ⟨g, n⟩
    · simpa [Herd.turn, hd] using hc
    · obtain ⟨m, hm, ha, rfl, hg⟩ := damage_eq_some hd
      simp only [Herd.turn, hd]
      intro k hk
      rw [hg] at hk
      obtain ⟨k', hk', rfl⟩ := List.mem_map.1 hk
      split
      · exact (hc m (mem_of_get? hm)).takeDamage ha amount
      · exact hc k' hk'
  | step brain mind view step =>
    obtain ⟨ms, hms, hg, -⟩ := step_spec brain view step h mind
    intro k hk
    have hk : k ∈ (h.step brain mind view step).1.members := hk
    rw [hg] at hk
    obtain ⟨m, hm, rfl⟩ := List.mem_map.1 hk
    obtain ⟨n, hn, hnm⟩ := exists_of_stepped view step hms hm
    exact hnm.coherent (hc n hn) (hs.maxHp_pos n hn)

theorem isDown_spawn (hs : h.Sound) {t : NpcTemplate} (ht : 0 < t.maxHp) (pos : Vec2)
    (hr : h.size < room) (id : EntityId) : (h.spawn t pos).isDown id = h.isDown id := by
  rw [isDown, isDown, hs.numbered.get?_spawn hr]
  split
  · next he =>
    rw [he, get?_eq_none (hs.numbered.nextId_not_mem hr)]
    simp [Npc.isAlive, Npc.spawn, ht]
  · rfl

theorem isDown_spawnEach (hs : h.Sound) {l : List (Vec2 × Nat)} (hr : h.size + l.length ≤ room)
    (id : EntityId) : (h.spawnEach l).isDown id = h.isDown id := by
  induction l generalizing h with
  | nil => rfl
  | cons x l ih =>
    rw [List.length_cons] at hr
    have ht : 0 < (NpcTemplate.nth x.2).maxHp := by rw [maxHp_nth]; decide
    have hx : h.size < room := by omega
    refine (ih (hs.spawn ht x.1 hx) ?_).trans (isDown_spawn hs ht x.1 hx id)
    rw [size_spawn]
    omega

theorem foldlM_pass_step {β : Type} (hs : h.Sound) (brain : Brain β) (mind : β) (id : EntityId) :
    (passages id ((h.step brain mind view step).2.2.filterMap NpcOutcome.passage?)).foldlM
        Passage.pass (h.isDown id) =
      some ((h.step brain mind view step).1.isDown id) := by
  rw [← passages_filter, isDown, isDown]
  rcases step_at brain view step h hs.nodup mind id with ⟨hn, hg, ho⟩ | ⟨n, m, hm, hn, hg, ho⟩
  · rw [hn, hg, ho]
    rfl
  · rw [hn, hg, ho, ← id_of_get? hn]
    exact hm.foldlM_pass (hs.maxHp_pos n (mem_of_get? hn))

theorem foldlM_pass_turn (hs : h.Sound) {t : Turn} (ht : t.IsFair)
    (hr : (h.turn t).value.size ≤ room) (id : EntityId) :
    (passages id (h.turn t).log).foldlM Passage.pass (h.isDown id) =
      some ((h.turn t).value.isDown id) := by
  cases t with
  | spawn t pos =>
    change (h.spawn t pos).size ≤ room at hr
    rw [size_spawn] at hr
    exact congrArg some (isDown_spawn hs ht pos hr id).symm
  | populate g =>
    rcases hp : h.populate g with _ | ⟨k, sp⟩
    · simp [turn, hp, passages]
    · obtain ⟨rfl, -⟩ := populate_eq_some hp
      simp only [turn, hp, Emit.value_pure, Option.elim_some, size_spawnEach] at hr ⊢
      rw [isDown_spawnEach hs hr]
      rfl
  | damage j amount =>
    rcases hd : h.damage j amount with _ | ⟨g, n⟩
    · simp [turn, hd, passages]
    · obtain ⟨m, hm, ha, rfl, -⟩ := damage_eq_some hd
      simp only [turn, hd, isDown, get?_damage hd]
      by_cases hj : id = j
      · subst hj
        by_cases h0 : (m.takeDamage amount).hp = 0
        · simp [passages, Passage.pass, hm, ha, m.isAlive_takeDamage, h0]
        · simp [passages, hm, ha, m.isAlive_takeDamage, h0]
      · by_cases h0 : (m.takeDamage amount).hp = 0 <;> simp [passages, Ne.symm hj, hj, h0]
  | step brain mind view step => exact foldlM_pass_step hs brain mind id

theorem foldlM_pass_undergo (hs : h.Sound) {ts : List Turn} (ht : ∀ t ∈ ts, t.IsFair)
    (hr : (h.undergo ts).value.size ≤ room) (id : EntityId) :
    (passages id (h.undergo ts).log).foldlM Passage.pass (h.isDown id) =
      some ((h.undergo ts).value.isDown id) := by
  induction ts generalizing h with
  | nil => rfl
  | cons t ts ih =>
    obtain ⟨ht, hts⟩ := List.forall_mem_cons.1 ht
    have hr' := Nat.le_trans (size_le_undergo (h.turn t).value ts) hr
    rw [undergo_cons, Emit.log_bind, passages_append, List.foldlM_append,
      foldlM_pass_turn hs ht hr' id]
    exact ih (hs.turn ht hr') hts hr

theorem Sound.isDown_id (hs : h.Sound) {n : Npc} (hn : n ∈ h.members) :
    h.isDown n.id = !n.isAlive := by
  rw [isDown, hs.get?_of_mem hn, Option.any_some]

theorem damage_eq_none {id : EntityId} {amount : Int} :
    h.damage id amount = none ↔ ∀ n, h.get? id = some n → ¬ n.isAlive := by
  unfold damage
  rcases h.get? id with _ | n
  · simp
  · dsimp only
    split <;> simp_all

theorem Sound.toNat_id (hs : h.Sound) {k : Nat} {n : Npc} (hk : h.members[k]? = some n) :
    n.id.toNat = Npc.idBase.toNat + (k + 1) := by
  have hlt : k < h.size := (List.getElem?_eq_some_iff.1 hk).1
  have hid : (h.members.map Npc.id)[k]? = some n.id := by
    rw [List.getElem?_map, hk, Option.map_some]
  have hidOf : idOf k = n.id := by
    rw [hs.ids, List.getElem?_map, List.getElem?_range hlt] at hid
    exact Option.some.inj hid
  rw [← hidOf, toNat_idOf (Nat.lt_of_lt_of_le hlt hs.room)]
  rfl

theorem Sound.damage_of_alive (hs : h.Sound) {n : Npc} (hn : n ∈ h.members) (ha : n.isAlive)
    (amount : Int) : ∃ m, h.damage n.id amount = some ((h.turn (.damage n.id amount)).value, m) ∧
      m.hp = max 0 (n.hp - max amount 0) ∧
      (h.turn (.damage n.id amount)).log = (if m.hp = 0 then [(n.id, .death)] else []) ∧
      ∀ j, (h.turn (.damage n.id amount)).value.get? j = if j = n.id then some m else h.get? j := by
  rcases hd : h.damage n.id amount with _ | ⟨g, m⟩
  · exact absurd ha (damage_eq_none.1 hd n (hs.get?_of_mem hn))
  · obtain ⟨k, hk, -, rfl, -⟩ := damage_eq_some hd
    obtain rfl : n = k := Option.some.inj ((hs.get?_of_mem hn).symm.trans hk)
    have ht : h.turn (.damage n.id amount) =
        ⟨g, if (n.takeDamage amount).hp = 0 then [(n.id, .death)] else []⟩ := by
      simp only [Herd.turn, hd]
    rw [ht]
    exact ⟨_, rfl, by rw [Npc.hp_takeDamage, Int.max_comm], rfl, get?_damage hd⟩

theorem Sound.damage_eq_none_iff (hs : h.Sound) {id : EntityId} {amount : Int} :
    h.damage id amount = none ↔ ∀ n ∈ h.members, n.id = id → ¬ n.isAlive := by
  rw [damage_eq_none]
  constructor
  · rintro hg n hn rfl
    exact hg n (hs.get?_of_mem hn)
  · exact fun hm n hn => hm n (mem_of_get? hn) (id_of_get? hn)

/-- In any history of a herd the monsters are numbered in the order in which they came and are found
by their numbers; each is dead in every respect or in none; a blow finds live monsters only, costs
no more hit points than there are and never more than 32 bits can tell; deaths and comebacks of
each monster alternate, and those are alive whose last passage was not a death. -/
theorem life_cycle (delay : Float32) (ts : List Turn) (ht : ∀ t ∈ ts, t.IsFair)
    (hr : (undergo { respawnDelay := delay } ts).value.size ≤ room) :
    let r := undergo { respawnDelay := delay } ts
    let h := r.value
    (∀ k n, h.members[k]? = some n →
      n.id.toNat = Npc.idBase.toNat + (k + 1) ∧ h.get? n.id = some n) ∧
    (∀ id, (∀ n ∈ h.members, n.id ≠ id) → h.get? id = none) ∧
    (∀ n ∈ h.members, 0 ≤ n.hp ∧ n.hp ≤ n.template.maxHp ∧ (n.activity = .dead ↔ n.hp = 0) ∧
      (n.respawn.pending ↔ n.hp = 0) ∧
      (n.hp = 0 → n.target = none ∧ n.speed = 0 ∧ n.attackTimer = 0)) ∧
    (∀ id amount, (h.damage id amount = none ↔ ∀ n ∈ h.members, n.id = id → ¬ n.isAlive) ∧
      (h.damage id amount = none → h.turn (.damage id amount) = pure h)) ∧
    (∀ n ∈ h.members, n.isAlive → ∀ amount,
      (amount < 2147483648 → n.template.maxHp < 2147483648 →
        -2147483648 ≤ n.hp - max amount 0 ∧ n.hp - max amount 0 < 2147483648) ∧
      ∃ m, h.damage n.id amount = some ((h.turn (.damage n.id amount)).value, m) ∧
        m.hp = max 0 (n.hp - max amount 0) ∧
        (h.turn (.damage n.id amount)).log = (if m.hp = 0 then [(n.id, .death)] else []) ∧
        ∀ j, (h.turn (.damage n.id amount)).value.get? j =
          if j = n.id then some m else h.get? j) ∧
    (∀ id, Passage.Alternate (passages id r.log)) ∧
    h.alive = h.members.countP fun n => (passages n.id r.log).getLast? ≠ some .death := by
  intro r h
  obtain ⟨hs, hc⟩ : h.Sound ∧ h.Coherent :=
    undergo_of (P := fun h => h.Sound ∧ h.Coherent)
      (fun _ _ ht hr hP => ⟨hP.1.turn ht hr, hP.2.turn hP.1 ht⟩) ht hr
      ⟨sound_empty delay, fun _ hn => by cases hn⟩
  have hpass : ∀ id, (passages id r.log).foldlM Passage.pass false = some (h.isDown id) :=
    foldlM_pass_undergo (sound_empty delay) ht hr
  refine ⟨fun k n hk => ⟨hs.toNat_id hk, hs.get?_of_mem (List.mem_of_getElem? hk)⟩,
    fun id hid => get?_eq_none fun hm => ?_, fun n hn => ?_,
    fun id amount => ⟨hs.damage_eq_none_iff, fun hd => by simp only [turn, hd]⟩,
    fun n hn ha amount => ⟨fun hamount hmax => ?_, hs.damage_of_alive hn ha amount⟩,
    fun id => ⟨Passage.isChain_of_foldlM (hpass id), Passage.head?_of_foldlM (hpass id)⟩,
    List.countP_congr fun n hn => ?_⟩
  · obtain ⟨n, hn, he⟩ := List.mem_map.1 hm
    exact hid n hn he
  · have hn := hc n hn
    exact ⟨hn.hp_nonneg, hn.hp_le, hn.dead_iff, hn.pending_iff, hn.at_rest⟩
  · have h0 := (hc n hn).hp_nonneg
    have hle := (hc n hn).hp_le
    omega
  · have hlast := Passage.getLast?_of_foldlM (hpass n.id)
    rw [hs.isDown_id hn] at hlast
    rw [decide_eq_true_eq, ne_eq, ← hlast, Bool.not_eq_true', Bool.not_eq_false]

/-- Two monsters come, one is killed and comes back, the other one is struck in vain and then killed
for good. -/
theorem life_cycle_skirmish :
    let view : PlayerView := ⟨fun _ => none, fun _ _ => none⟩
    let ts : List Turn := [.spawn (NpcTemplate.nth 0) ⟨1, 2⟩, .spawn (NpcTemplate.nth 1) ⟨3, 4⟩,
      .damage (Npc.idBase + 1) 500, .damage (Npc.idBase + 1) 1, .step Brain.idle () view 6,
      .damage (Npc.idBase + 2) (-5), .damage (Npc.idBase + 2) 2147483647]
    let r := undergo { respawnDelay := 5 } ts
    (∀ t ∈ ts, t.IsFair) ∧ r.value.size ≤ room ∧
      passages (Npc.idBase + 1) r.log = [.death, .comeback] ∧
      passages (Npc.idBase + 2) r.log = [.death] ∧
      r.value.alive =
        r.value.members.countP fun n => (passages n.id r.log).getLast? ≠ some .death := by
  intro view ts r
  have hp : ∀ i, 0 < (NpcTemplate.nth i).maxHp := fun i => by rw [maxHp_nth]; decide
  have ht : ∀ t ∈ ts, t.IsFair := by
    simp only [ts, List.forall_mem_cons, Turn.IsFair, hp, true_and]
    exact fun _ h => nomatch h
  have hr : r.value.size ≤ room := by decide +kernel
  exact ⟨ht, hr, by decide +kernel, by decide +kernel, (life_cycle 5 ts ht hr).2.2.2.2.2.2⟩

end Herd
end Fieldwatch
