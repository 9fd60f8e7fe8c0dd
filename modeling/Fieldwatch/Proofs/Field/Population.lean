import Fieldwatch.Proofs.Field.Gauges
import Fieldwatch.Proofs.Npc.Lifecycle
import Mathlib.Algebra.Order.BigOperators.Group.Finset

/-! The gauges are exact. Every deed of a field moves them as it changes the population of that
field, whoever the players are; so they show the populations of all fields that share them, in
whatever order those work. -/

namespace Fieldwatch

open Interest

namespace Npc

variable {n : Npc} {m : Npc × List NpcOutcome} {view : PlayerView} {step : Float32}

theorem Stepped.countP_isAlive (h : n.Stepped view step m) (hp : 0 < n.template.maxHp) :
    [m.1].countP (·.isAlive) =
      [n].countP (·.isAlive) + (m.2.filterMap NpcOutcome.passage?).length := by
  rcases h with ⟨ha, i, rfl⟩ | ⟨ha, rfl⟩
  · rw [passage?_liveStep]
    simp [isAlive]
  · have hd : n.isAlive = false := by simpa using ha
    unfold deadStep
    split
    · dsimp only
      split
      · rfl
      · simpa [NpcOutcome.passage?, spawn, isAlive, hp] using hd
    · rfl

end Npc

namespace Herd

variable {h : Herd} {view : PlayerView} {step : Float32}

theorem alive_spawn {t : NpcTemplate} (ht : 0 < t.maxHp) (pos : Vec2) :
    (h.spawn t pos).alive = h.alive + 1 := by
  simp [alive, Herd.spawn, Npc.spawn, Npc.isAlive, ht]

theorem alive_spawnEach (l : List (Vec2 × Nat)) : (h.spawnEach l).alive = h.alive + l.length := by
  induction l generalizing h with
  | nil => rfl
  | cons x l ih =>
    have ht : 0 < (NpcTemplate.nth x.2).maxHp := by rw [maxHp_nth]; decide
    have hx : h.spawnEach (x :: l) = (h.spawn (NpcTemplate.nth x.2) x.1).spawnEach l := rfl
    rw [hx, ih, alive_spawn ht, List.length_cons]
    omega

theorem alive_stepped {l : List Npc} {ms : List (Npc × List NpcOutcome)}
    (h : List.Forall₂ (Npc.Stepped view step) l ms) (hp : ∀ n ∈ l, 0 < n.template.maxHp) :
    (ms.map Prod.fst).countP (·.isAlive) = l.countP (·.isAlive) +
      ((ms.flatMap Prod.snd).filterMap NpcOutcome.passage?).length := by
  induction h with
  | nil => rfl
  | @cons n m l ms hn _ ih =>
    have hm := hn.countP_isAlive (hp n List.mem_cons_self)
    have ih := ih fun k hk => hp k (List.mem_cons_of_mem _ hk)
    rw [List.map_cons, List.flatMap_cons, List.filterMap_append, List.length_append,
      ← List.singleton_append, List.countP_append, ih, hm, ← List.singleton_append (l := l),
      List.countP_append]
    omega

theorem alive_step {β : Type} (hs : h.Sound) (brain : Brain β) (mind : β) (view : PlayerView)
    (step : Float32) :
    (h.step brain mind view step).1.alive =
      h.alive + ((h.step brain mind view step).2.2.filterMap NpcOutcome.passage?).length := by
  obtain ⟨ms, hms, hg, ho⟩ := step_spec brain view step h mind
  rw [alive, hg, ho]
  exact alive_stepped hms hs.maxHp_pos

theorem Sound.alive_damage (hs : h.Sound) {id : EntityId} {amount : Int} {g : Herd} {m : Npc}
    (hd : h.damage id amount = some (g, m)) :
    h.alive = g.alive + if m.hp = 0 then 1 else 0 := by
  obtain ⟨n, hn, ha, rfl, hg⟩ := damage_eq_some hd
  have hmem := mem_of_get? hn
  have hid := id_of_get? hn
  -- the struck one is alive, and it is the only one of its id
  have hone : h.members.countP (fun k => k.isAlive && decide (k.id = id)) = 1 := by
    have hcount := List.count_eq_one_of_mem hs.nodup (List.mem_map_of_mem hmem)
    rw [List.count, List.countP_map] at hcount
    rw [← hcount]
    refine List.countP_congr fun k hk => ?_
    have hkn : k.id = n.id → k.isAlive = true := fun he => hs.eq_of_id_eq hk hmem he ▸ ha
    simpa [hid] using fun he => hkn (he.trans hid.symm)
  have hsplit : h.alive = h.members.countP (fun k => k.isAlive && decide (k.id = id)) +
      h.members.countP fun k => k.isAlive && !decide (k.id = id) := by
    rw [alive, List.countP_eq_countP_filter_add h.members _ (fun k => decide (k.id = id)),
      List.countP_filter, List.countP_filter]
  have hafter : g.alive = (h.members.countP fun k => k.isAlive && !decide (k.id = id)) +
      if (n.takeDamage amount).hp = 0 then 0 else 1 := by
    rw [alive, hg, List.countP_map]
    by_cases h0 : (n.takeDamage amount).hp = 0
    · rw [if_pos h0, Nat.add_zero]
      refine List.countP_congr fun k _ => ?_
      by_cases hk : k.id = id <;> simp [hk, n.isAlive_takeDamage, h0]
    · rw [if_neg h0, ← hone, Nat.add_comm, ← hsplit]
      refine List.countP_congr fun k hk => ?_
      by_cases hki : k.id = id
      · obtain rfl := hs.eq_of_id_eq hk hmem (hki.trans hid.symm)
        simp [hki, k.isAlive_takeDamage, h0, ha]
      · simp [hki]
  rw [hsplit, hone, hafter]
  split <;> omega

end Herd

def Gauge.total {ι : Type} [Fintype ι] {β : ι → Type} (g : Gauge) (fs : ∀ i, Field (β i)) : Nat :=
  ∑ i, g.read (fs i)

def Deed.IsFair {β : Type} : Deed β → Prop
  | .handle m => ¬ m.IsJob
  | .spawn t _ => 0 < t.maxHp
  | .populate _ => True

theorem Deed.IsFair.not_isJob {β : Type} {d : Deed β} (h : d.IsFair) : ¬ d.IsJob := by
  cases d with
  | handle m => exact h
  | spawn | populate => exact id

namespace Field

open Gauge

variable {β : Type} {f : Field β} {g : Gauge}

theorem sound_perform (hs : f.herd.Sound) {d : Deed β} (hd : d.IsFair)
    (hr : (f.perform d).value.herd.size ≤ Herd.room) : (f.perform d).value.herd.Sound := by
  cases d with
  | handle m => exact hs.of_same (same_handle f hd)
  | spawn t pos =>
    change (f.herd.spawn t pos).size ≤ Herd.room at hr
    rw [Herd.size_spawn] at hr
    exact hs.spawn hd pos hr
  | populate g =>
    rcases hp : f.populate g with _ | r
    · simpa [perform, hp] using hs
    · have hv : (f.perform (.populate g)).value = r.value.2 := by simp [perform, hp]
      rw [hv, herd_populate f hp] at hr ⊢
      rw [Herd.size_spawnEach] at hr
      exact hs.spawnEach hr

theorem tracks_addPlayer (g : Gauge) (f : Field β) (n : Newcomer) :
    g.Tracks g.read f (f.addPlayer n) := by
  obtain ⟨rest, hrest, hlog⟩ := log_addPlayer f n
  have hrest := still_of_sights hrest
  have hsize : (f.addPlayer n).value.players.size =
      if n.id ∈ f.players then f.players.size else f.players.size + 1 :=
    Std.ExtTreeMap.size_insert
  by_cases hn : n.id ∈ f.players
  · rw [if_pos hn] at hlog hsize
    refine .of_still (hlog ▸ hrest) ?_
    cases g with
    | players => exact hsize
    | monsters => rfl
  · rw [if_neg hn] at hlog hsize
    refine .of_lone [] _ hlog still_nil hrest ?_
    cases g with
    | players =>
      change (1 : Int) = (f.addPlayer n).value.players.size - f.players.size
      omega
    | monsters => exact (Int.sub_self _).symm

theorem tracks_removePlayer (g : Gauge) (f : Field β) (id : EntityId) :
    g.Tracks g.read f (f.removePlayer id) := by
  obtain ⟨first, hfirst, hlog⟩ := log_removePlayer f id
  have hfirst := still_of_sights hfirst
  have hsize : (f.removePlayer id).value.players.size =
      if id ∈ f.players then f.players.size - 1 else f.players.size :=
    Std.ExtTreeMap.size_erase
  by_cases hid : id ∈ f.players
  · rw [if_pos hid] at hlog hsize
    refine .of_lone _ [] hlog hfirst still_nil ?_
    have hpos : f.players.size ≠ 0 := by
      rw [ne_eq, ← Std.ExtTreeMap.eq_empty_iff_size_eq_zero]
      intro he
      simp [he] at hid
    cases g with
    | players =>
      change (-1 : Int) = (f.removePlayer id).value.players.size - f.players.size
      omega
    | monsters => exact (Int.sub_self _).symm
  · rw [if_neg hid, List.append_nil] at hlog
    rw [if_neg hid] at hsize
    refine .of_still (hlog ▸ hfirst) ?_
    cases g with
    | players => exact hsize
    | monsters => rfl

theorem tracks_onMove (g : Gauge) (f : Field β) (session : EntityId) (c : MoveCommand) :
    g.Tracks g.read f (pure (f.onMove session c)) := by
  refine .of_still still_nil ?_
  cases g with
  | monsters => exact congrArg Herd.alive (herd_onMove f session c)
  | players =>
    change (f.onMove session c).players.size = f.players.size
    unfold onMove
    split
    · rfl
    · split
      · rfl
      · next hp =>
        have hmem : c.entity ∈ f.players := IdMap.mem_iff_exists.2 ⟨_, hp⟩
        exact Std.ExtTreeMap.size_insert.trans (if_pos hmem)

theorem tracks_onSkill (g : Gauge) (hs : f.herd.Sound) (attacker target : EntityId) :
    g.Tracks g.read f (f.onSkill attacker target) := by
  by_cases hnone : attacker ∈ f.players → f.herd.damage target f.config.skillDamage = none
  · rw [onSkill_of_none f hnone]
    exact .of_still still_nil rfl
  · obtain ⟨ha, hsome⟩ := Classical.not_imp.1 hnone
    obtain ⟨⟨herd, n⟩, hd⟩ := Option.ne_none_iff_exists'.1 hsome
    have halive := hs.alive_damage hd
    by_cases h0 : n.hp = 0
    · rw [if_pos h0] at halive
      rw [onSkill_of_killed ha hd h0]
      refine .of_lone [] (_ ++ _) rfl still_nil
        ((Feed.still_broadcast _ _ _).append
          (still_of_sights (sights_feeding _ (Feed.sights_remove _ _)))) ?_
      cases g with
      | players => exact (Int.sub_self _).symm
      | monsters =>
        change (-1 : Int) = herd.alive - f.herd.alive
        omega
    · rw [if_neg h0] at halive
      rw [onSkill_of_wounded ha hd h0]
      refine .of_still ((Feed.still_broadcast _ _ _).append still_nil) ?_
      cases g with
      | players => rfl
      | monsters => exact halive.symm

theorem tracks_setViewRadius (g : Gauge) (f : Field β) (radius : Int) :
    g.Tracks g.read f (f.setViewRadius radius) := by
  refine .of_still (still_of_sights (sights_setViewRadius f radius)) ?_
  cases g <;> rfl

theorem tracks_spawn (g : Gauge) (f : Field β) {t : NpcTemplate} (ht : 0 < t.maxHp) (pos : Vec2) :
    g.Tracks g.read f (Prod.snd <$> f.spawn t pos) := by
  obtain ⟨first, hfirst, hlog⟩ := log_spawn f t pos
  refine .of_lone _ _ hlog (still_of_sights hfirst) still_nil ?_
  cases g with
  | players => exact (Int.sub_self _).symm
  | monsters =>
    change (1 : Int) = (f.herd.spawn t pos).alive - f.herd.alive
    rw [Herd.alive_spawn ht]
    omega

theorem tracks_populate (g : Gauge) {grid : SpawnGrid} {r : Effects (Nat × Field β)}
    (hr : f.populate grid = some r) (hroom : r.value.2.herd.size ≤ Herd.room) :
    g.Tracks g.read f (Prod.snd <$> r) := by
  obtain ⟨first, hfirst, hlog⟩ := log_populate hr
  refine .of_lone _ _ hlog (still_of_sights hfirst) still_nil ?_
  cases g with
  | players =>
    obtain ⟨x, -, rfl⟩ := Option.map_eq_some_iff.1 hr
    exact (Int.sub_self _).symm
  | monsters =>
    have hherd := herd_populate f hr
    rw [hherd, Herd.size_spawnEach] at hroom
    -- no more monsters can come than there are ids
    have hfits : grid.cells.zipIdx.length < 2 ^ 64 :=
      Nat.lt_of_le_of_lt (Nat.le_trans (Nat.le_add_left _ _) hroom) (by decide)
    change (grid.cells.zipIdx.length.toUInt64.toNat : Int) = r.value.2.herd.alive - f.herd.alive
    rw [hherd, Herd.alive_spawnEach, Nat.toUInt64, UInt64.toNat_ofNat_of_lt' hfits]
    omega

theorem tracks_playersStep (g : Gauge) (f : Field β) (step : Float32) :
    g.Tracks g.read f (f.playersStep step) := by
  refine .of_still (still_of_sights (sights_playersStep f step)) ?_
  rw [playersStep, walkPlayers_eq f step f.perm_order]
  cases g with
  | players => exact Std.ExtTreeMap.size_map
  | monsters => rfl

theorem size_strike (f : Field β) (npc target : EntityId) (damage : Int) :
    (f.strike npc target damage).value.players.size = f.players.size := by
  unfold strike
  split
  · rfl
  · next hp =>
    have hmem : target ∈ f.players := IdMap.mem_iff_exists.2 ⟨_, hp⟩
    exact Std.ExtTreeMap.size_insert.trans (if_pos hmem)

theorem still_strike (f : Field β) (npc target : EntityId) (damage : Int) :
    Still (f.strike npc target damage).log := by
  unfold strike
  split
  · exact still_nil
  · exact (Feed.still_hit _ _).append ((Feed.still_broadcast _ _ _).append still_nil)

theorem log_settle (f : Field β) (o : NpcOutcome) : ∃ rest, Still rest ∧ (f.settle o).log =
    o.passage?.toList.map (fun _ => .raise .npcsAlive 1) ++ rest := by
  cases o with
  | activity id a => exact ⟨_, (Feed.still_broadcast _ _ _).append still_nil, rfl⟩
  | moved id pos =>
    exact ⟨_, still_of_sights (sights_feeding (·.move id pos) (Feed.sights_change _ _)), rfl⟩
  | attacked npc target damage => exact ⟨_, still_strike f npc target damage, rfl⟩
  | respawned id pos =>
    exact ⟨_, (still_of_sights (sights_feeding _ (Feed.sights_add _ _ _ _))).append
      ((Feed.still_broadcast _ _ _).append still_nil), rfl⟩

theorem size_settle (f : Field β) (o : NpcOutcome) :
    (f.settle o).value.players.size = f.players.size := by
  cases o with
  | attacked npc target damage => exact size_strike f npc target damage
  | activity | moved | respawned => rfl

theorem size_foldlM_settle (f : Field β) (os : List NpcOutcome) :
    (os.foldlM settle f).value.players.size = f.players.size := by
  induction os generalizing f with
  | nil => rfl
  | cons o os ih => rw [List.foldlM_cons, Emit.value_bind, ih, size_settle]

theorem shift_comeback (g : Gauge) : 0 ≤ g.shift (.raise .npcsAlive 1) := by cases g <;> decide

theorem rising_foldlM_settle (g : Gauge) (f : Field β) (os : List NpcOutcome) :
    ∀ e ∈ (os.foldlM settle f).log, 0 ≤ g.shift e := by
  induction os generalizing f with
  | nil => exact fun _ he => by cases he
  | cons o os ih =>
    obtain ⟨rest, hrest, hlog⟩ := log_settle f o
    intro e he
    rw [List.foldlM_cons, Emit.log_bind, hlog] at he
    simp only [List.mem_append, List.mem_map] at he
    rcases he with (⟨x, -, rfl⟩ | he) | he
    · exact shift_comeback g
    · exact Int.le_of_eq (hrest e he g).symm
    · exact ih _ e he

theorem balance_foldlM_settle (g : Gauge) (f : Field β) (os : List NpcOutcome) :
    g.balance (os.foldlM settle f).log =
      (os.filterMap NpcOutcome.passage?).length * g.shift (.raise .npcsAlive 1) := by
  induction os generalizing f with
  | nil => exact (Int.zero_mul _).symm
  | cons o os ih =>
    obtain ⟨rest, hrest, hlog⟩ := log_settle f o
    rw [List.foldlM_cons, Emit.log_bind, hlog, balance_append, balance_append, hrest.balance_eq, ih]
    cases ho : o.passage? with
    | none => simp [ho]
    | some x =>
      simp only [ho, Option.toList_some, List.map_singleton, balance_cons, balance_nil,
        List.filterMap_cons, List.length_cons]
      rw [Int.natCast_add, Int.add_mul]
      omega

theorem tracks_npcsStep (g : Gauge) (hs : f.herd.Sound) (step : Float32) :
    g.Tracks g.read f (f.npcsStep step) := by
  have hb : g.balance (f.npcsStep step).log =
      ((f.herd.step f.brain f.mind f.playerView step).2.2.filterMap NpcOutcome.passage?).length *
        g.shift (.raise .npcsAlive 1) := balance_foldlM_settle g _ _
  refine .of_rising (rising_foldlM_settle g _ _) (hb.trans ?_)
  cases g with
  | players =>
    have hsize : (f.npcsStep step).value.players.size = f.players.size := size_foldlM_settle _ _
    simp [Gauge.read, hsize, shift, counter]
  | monsters =>
    have halive := Herd.alive_step hs f.brain f.mind f.playerView step
    change (_ : Int) * 1 = ((f.npcsStep step).value.herd.alive : Int) - f.herd.alive
    rw [herd_npcsStep, halive]
    omega

theorem tracks_tick (g : Gauge) (hs : f.herd.Sound) (dt : Float32) :
    g.Tracks g.read f (f.tick dt) := by
  have hclocks : ∀ (f : Field β) (t : Float) (p n : Float32), g.Tracks g.read f
      (pure { f with time := t, playerLag := p, npcLag := n }) := fun f t p n =>
    .of_still still_nil (by cases g <;> rfl)
  refine (tick_of f (R := fun f m => f.herd.Sound → g.Tracks g.read f m ∧ m.value.herd.Sound)
    ?_ ?_ ?_ ?_ ?_ dt hs).1
  · intro f m k hm hk hs
    obtain ⟨hm, hs⟩ := hm hs
    obtain ⟨hk, hs⟩ := hk hs
    exact ⟨hm.bind hk, hs⟩
  · exact fun f t p n hs => ⟨hclocks f t p n, hs⟩
  · exact fun f hs => ⟨tracks_playersStep g f _, hs⟩
  · intro f hs
    refine ⟨tracks_npcsStep g hs _, ?_⟩
    rw [herd_npcsStep]
    exact hs.of_same (Herd.same_step ..)
  · exact fun f hs => ⟨.of_still (still_singleton fun g => by cases g <;> rfl) rfl, hs⟩

theorem tracks_onDecoded {γ : Type} (g : Gauge) {act : γ → Effects (Field β)}
    (h : ∀ c, g.Tracks g.read f (act c)) (r : Except DecodeError γ) :
    g.Tracks g.read f (f.onDecoded act r) := by
  cases r with
  | ok c => exact h c
  | error e => exact .of_still (still_singleton fun g => by cases g <;> rfl) rfl

theorem tracks_onCommand (g : Gauge) (hs : f.herd.Sound) (session : EntityId) (c : Envelope) :
    g.Tracks g.read f (f.onCommand session c) := by
  cases c with
  | move c => exact tracks_onMove g f session c
  | skill c => exact tracks_onSkill g hs session c.target
  | leave => exact tracks_removePlayer g f session

theorem tracks_perform (g : Gauge) (hs : f.herd.Sound) {d : Deed β} (hd : d.IsFair)
    (hr : (f.perform d).value.herd.size ≤ Herd.room) : g.Tracks g.read f (f.perform d) := by
  cases d with
  | spawn t pos => exact tracks_spawn g f hd pos
  | populate grid =>
    rcases hp : f.populate grid with _ | r
    · have hnothing : f.perform (.populate grid) = pure f := by simp [perform, hp]
      rw [hnothing]
      exact .of_still still_nil rfl
    · have hv : f.perform (.populate grid) = Prod.snd <$> r := by simp [perform, hp]
      rw [hv] at hr ⊢
      exact tracks_populate g hp hr
  | handle m =>
    cases m with
    | envelope session payload =>
      rw [perform, handle, fst_done]
      exact tracks_onDecoded g (tracks_onCommand g hs session) _
    | enter n =>
      rw [perform, handle, fst_done]
      exact tracks_addPlayer g f n
    | leave player =>
      rw [perform, handle, fst_done]
      exact tracks_removePlayer g f player
    | move session payload =>
      rw [perform, handle, fst_done]
      exact tracks_onDecoded g (fun c => tracks_onMove g f session c) _
    | skill session payload =>
      rw [perform, handle, fst_done]
      exact tracks_onDecoded g (fun c : SkillCommand => tracks_onSkill g hs session c.target) _
    | tick dt =>
      rw [perform, handle, fst_done]
      exact tracks_tick g hs dt
    | viewRadius radius =>
      rw [perform, handle, fst_done]
      exact tracks_setViewRadius g f radius
    | job j => exact (hd trivial).elim

section Several

variable {ι : Type} [DecidableEq ι] {β : ι → Type} {fs : ∀ i, Field (β i)}

def freshAll (ids : ι → FieldId) (configs : ι → FieldConfig) (brains : ∀ i, Brain (β i))
    (minds : ∀ i, β i) (enums : ι → Enumeration) : ∀ i, Field (β i) :=
  fun i => fresh (ids i) (configs i) (brains i) (minds i) (enums i)

def performOne (fs : ∀ i, Field (β i)) (x : Σ i, Deed (β i)) : Effects (∀ i, Field (β i)) :=
  Function.update fs x.1 <$> (fs x.1).perform x.2

def runAll (fs : ∀ i, Field (β i)) (xs : List (Σ i, Deed (β i))) : Effects (∀ i, Field (β i)) :=
  xs.foldlM performOne fs

theorem size_le_performOne {x : Σ i, Deed (β i)} (hx : x.2.IsFair) (i : ι) :
    (fs i).herd.size ≤ ((performOne fs x).value i).herd.size := by
  obtain ⟨j, d⟩ := x
  change _ ≤ (Function.update fs j ((fs j).perform d).value i).herd.size
  by_cases hi : i = j
  · subst hi
    rw [Function.update_self]
    exact size_le_perform _ hx.not_isJob
  · rw [Function.update_of_ne hi]

theorem size_le_runAll {xs : List (Σ i, Deed (β i))} (hx : ∀ x ∈ xs, x.2.IsFair) (i : ι) :
    (fs i).herd.size ≤ ((runAll fs xs).value i).herd.size := by
  induction xs generalizing fs with
  | nil => exact Nat.le_refl _
  | cons x xs ih =>
    obtain ⟨hx, hxs⟩ := List.forall_mem_cons.1 hx
    exact Nat.le_trans (size_le_performOne hx i) (ih hxs)

theorem sound_performOne (hs : ∀ i, (fs i).herd.Sound) {x : Σ i, Deed (β i)} (hx : x.2.IsFair)
    (hr : ((fs x.1).perform x.2).value.herd.size ≤ Herd.room) (i : ι) :
    ((performOne fs x).value i).herd.Sound := by
  obtain ⟨j, d⟩ := x
  change (Function.update fs j ((fs j).perform d).value i).herd.Sound
  by_cases hi : i = j
  · subst hi
    rw [Function.update_self]
    exact sound_perform (hs i) hx hr
  · rw [Function.update_of_ne hi]
    exact hs i

variable [Fintype ι]

theorem total_update (g : Gauge) (fs : ∀ i, Field (β i)) (i : ι) (f : Field (β i)) :
    g.total (Function.update fs i f) + g.read (fs i) = g.total fs + g.read f := by
  have hrest : ∑ j ∈ Finset.univ.erase i, g.read (Function.update fs i f j) =
      ∑ j ∈ Finset.univ.erase i, g.read (fs j) := by
    refine Finset.sum_congr rfl fun j hj => ?_
    rw [Function.update_of_ne (Finset.ne_of_mem_erase hj)]
  rw [Gauge.total, Gauge.total, ← Finset.add_sum_erase _ _ (Finset.mem_univ i), hrest,
    ← Finset.add_sum_erase _ (fun j => g.read (fs j)) (Finset.mem_univ i), Function.update_self]
  omega

theorem tracks_performOne {x : Σ i, Deed (β i)}
    (h : g.Tracks g.read (fs x.1) ((fs x.1).perform x.2)) :
    g.Tracks g.total fs (performOne fs x) := by
  have htotal := total_update g fs x.1 ((fs x.1).perform x.2).value
  have hle : g.read (fs x.1) ≤ g.total fs :=
    Finset.single_le_sum_of_canonicallyOrdered (f := fun j => g.read (fs j)) (Finset.mem_univ x.1)
  have hlog : (performOne fs x).log = ((fs x.1).perform x.2).log := Emit.log_map _ _
  have hvalue : (performOne fs x).value =
    Function.update fs x.1 ((fs x.1).perform x.2).value := rfl
  constructor
  · rw [hlog, hvalue, h.balance_eq]
    omega
  · intro l hl
    have := h.nonneg l (hlog ▸ hl)
    omega

theorem tracks_runAll (g : Gauge) (hs : ∀ i, (fs i).herd.Sound) {xs : List (Σ i, Deed (β i))}
    (hx : ∀ x ∈ xs, x.2.IsFair) (hr : ∀ i, ((runAll fs xs).value i).herd.size ≤ Herd.room) :
    g.Tracks g.total fs (runAll fs xs) := by
  induction xs generalizing fs with
  | nil => exact .of_still still_nil rfl
  | cons x xs ih =>
    obtain ⟨hx, hxs⟩ := List.forall_mem_cons.1 hx
    -- monsters only ever come, so there was room for them before
    have hroom : ((fs x.1).perform x.2).value.herd.size ≤ Herd.room := by
      have hle : ((performOne fs x).value x.1).herd.size ≤ _ := size_le_runAll hxs x.1
      have hone : (performOne fs x).value x.1 = ((fs x.1).perform x.2).value :=
        Function.update_self ..
      rw [hone] at hle
      exact Nat.le_trans hle (hr x.1)
    exact (tracks_performOne (tracks_perform g (hs x.1) hx hroom)).bind
      (ih (sound_performOne hs hx hroom) hxs hr)

/-- Several fields share their counters from the beginning. Whatever they do, in whatever order, the
counters of players and of live monsters show how many of them there are in all fields together;
and after each single effect they show by how much they were raised more than lowered, which is
never less than nothing. -/
theorem gauges_show_populations (ids : ι → FieldId) (configs : ι → FieldConfig)
    (brains : ∀ i, Brain (β i)) (minds : ∀ i, β i) (enums : ι → Enumeration)
    (xs : List (Σ i, Deed (β i))) (hx : ∀ x ∈ xs, x.2.IsFair)
    (hr : ∀ i, ((runAll (freshAll ids configs brains minds enums) xs).value i).herd.size ≤ Herd.room)
    (us : UInt64) :
    let r := runAll (freshAll ids configs brains minds enums) xs
    let shown (l : List Effect) (c : Counter) : UInt64 := (l.foldl (Counters.apply us) {}).get c
    shown r.log .playersActive = (∑ i, (r.value i).players.size).toUInt64 ∧
    shown r.log .npcsAlive = (∑ i, (r.value i).herd.alive).toUInt64 ∧
    ∀ (g : Gauge) (l : List Effect), l <+: r.log →
      ∃ n : Nat, g.balance l = n ∧ shown l g.counter = n.toUInt64 := by
  intro r shown
  have hs : ∀ i, (freshAll ids configs brains minds enums i).herd.Sound := fun i => Herd.sound_empty _
  have htracks : ∀ g : Gauge, g.Tracks g.total _ r := fun g => tracks_runAll g hs hx hr
  have hzero : ∀ g : Gauge, g.total (freshAll ids configs brains minds enums) = 0 := fun g =>
    Finset.sum_eq_zero fun i _ => by cases g <;> rfl
  have hshown : ∀ (g : Gauge) (l : List Effect) (n : Nat), g.balance l = n →
      shown l g.counter = n.toUInt64 := by
    intro g l n hn
    have hnat := toNat_get_foldl g us l {}
    have hstart : ((({} : Counters).get g.counter).toNat : Int) = 0 := by cases g <;> rfl
    rw [hstart, hn, Int.zero_add] at hnat
    rw [← UInt64.toNat_inj, Nat.toUInt64, UInt64.toNat_ofNat']
    exact Int.ofNat.inj hnat
  have hall : ∀ g : Gauge, shown r.log g.counter = (g.total r.value).toUInt64 := by
    intro g
    refine hshown g _ _ ?_
    rw [(htracks g).balance_eq, hzero]
    omega
  refine ⟨hall .players, hall .monsters, fun g l hl => ?_⟩
  have hl := (htracks g).nonneg l hl
  rw [hzero] at hl
  obtain ⟨n, hn⟩ := Int.eq_ofNat_of_zero_le hl
  exact ⟨n, by omega, hshown g l n (by omega)⟩

end Several

/-- Two fields with the same ids: players come and go more often than they are there, and a monster
of one field is killed and then struck again. -/
theorem gauges_show_neighbours :
    let kill : Message Unit := .skill 7 (SkillCommand.encode ⟨0, Npc.idBase + 1⟩)
    let enter : Message Unit := .enter { id := 7, name := "ada", pos := ⟨1, 2⟩ }
    let xs : List (Σ _ : Bool, Deed Unit) :=
      [⟨true, .handle enter⟩, ⟨false, .handle enter⟩, ⟨true, .handle enter⟩,
        ⟨false, .handle (.leave 9)⟩, ⟨true, .spawn (NpcTemplate.nth 0) ⟨3, 4⟩⟩,
        ⟨false, .spawn (NpcTemplate.nth 0) ⟨3, 4⟩⟩, ⟨true, .handle kill⟩, ⟨true, .handle kill⟩,
        ⟨false, .handle (.leave 7)⟩, ⟨false, .handle (.leave 7)⟩, ⟨true, .handle (.tick 0.25)⟩]
    let fs := freshAll (fun _ => 1) (fun _ => { skillDamage := 250 }) (fun _ => Brain.idle)
      (fun _ => ()) fun _ => .byId
    let r := runAll fs xs
    (∑ i, (r.value i).players.size) = 1 ∧ (∑ i, (r.value i).herd.alive) = 1 ∧
      (r.log.foldl (Counters.apply 9) {}).playersActive =
        (∑ i, (r.value i).players.size).toUInt64 ∧
      (r.log.foldl (Counters.apply 9) {}).npcsAlive = (∑ i, (r.value i).herd.alive).toUInt64 := by
  intro kill enter xs fs r
  have hp : ∀ i, 0 < (NpcTemplate.nth i).maxHp := fun i => by rw [Herd.maxHp_nth]; decide
  have hx : ∀ x ∈ xs, x.2.IsFair := by
    simp only [xs, List.forall_mem_cons, Deed.IsFair, Message.IsJob, hp, not_false_eq_true,
      kill, enter, true_and]
    exact fun _ h => nomatch h
  have hr : ∀ i, ((runAll fs xs).value i).herd.size ≤ Herd.room := by decide +kernel
  have hshown := gauges_show_populations (fun _ => 1) (fun _ => { skillDamage := 250 })
    (fun _ => Brain.idle) (fun _ => ()) (fun _ => .byId) xs hx hr 9
  exact ⟨by decide +kernel, by decide +kernel, hshown.1, hshown.2.1⟩

end Field
end Fieldwatch
