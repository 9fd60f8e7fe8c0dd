import Fieldwatch.Proofs.Field.Sending
import Fieldwatch.Proofs.Field.Steering
import Fieldwatch.Proofs.Field.Timeline
import Mathlib.Logic.Function.Iterate
import Mathlib.Order.Bounds.Basic

/-! How a field keeps up with the time. What a catch-up does is settled before it begins: it runs as
many steps as its lag and its cap allow, and no step looks at a lag. So a tick is a number of steps
of the players and then a number of steps of the monsters, and how many there are in a run is a
matter of the settings and of the time that passed, whatever else went on. -/

namespace Fieldwatch

variable {β γ : Type}

def Effect.SparesTicks : Effect → Prop
  | .notify _ => True
  | .raise c _ | .lower c _ => c ≠ .tickCount
  | .stepped => False

namespace Effect

variable {e : Effect} {l : List Effect}

theorem SparesTicks.tickCount_apply (h : e.SparesTicks) (us : UInt64) (m : Counters) :
    (m.apply us e).tickCount = m.tickCount := by
  have hset : ∀ (c : Counter) (v : UInt64), c ≠ .tickCount →
      (m.set c v).tickCount = m.tickCount := fun c v hc => by
    have hget := Counters.get_set m c .tickCount v
    rwa [if_neg hc] at hget
  cases e with
  | notify n => rfl
  | raise c n | lower c n => exact hset c _ h
  | stepped => exact h.elim

theorem tickCount_foldl (h : ∀ e ∈ l, e.SparesTicks) (us : UInt64) (m : Counters) :
    (l.foldl (Counters.apply us) m).tickCount = m.tickCount := by
  induction l generalizing m with
  | nil => rfl
  | cons e l ih =>
    obtain ⟨he, hl⟩ := List.forall_mem_cons.1 h
    rw [List.foldl_cons, ih hl, he.tickCount_apply]

theorem tickCount_apply_stepped (us : UInt64) (m : Counters) :
    (m.apply us .stepped).tickCount = m.tickCount + 1 := by
  rw [Counters.apply, Counters.recordStep]
  dsimp only
  split <;> rfl

theorem sparesTicks_of_sights (h : Sights l) : ∀ e ∈ l, e.SparesTicks := by
  intro e he
  have hq := h e he
  cases e with
  | notify n => trivial
  | stepped => exact hq trivial
  | raise c n | lower c n =>
    have hc : c = .aoiEvents := Decidable.not_not.1 hq
    rw [hc]
    exact Counter.noConfusion

theorem sparesTicks_broadcast (f : Interest.Feed) (subject : EntityId) (event : Event) :
    ∀ e ∈ f.broadcast subject event, e.SparesTicks := by
  intro e he
  rw [Interest.Feed.broadcast] at he
  split at he
  · obtain ⟨p, -, rfl⟩ := List.mem_map.1 he
    trivial
  · cases he

theorem sparesTicks_hit (f : Interest.Feed) (h : Hit) : ∀ e ∈ f.hit h, e.SparesTicks := by
  intro e he
  rw [Interest.Feed.hit] at he
  split at he
  · rw [List.mem_singleton.1 he]
    trivial
  · cases he

end Effect

theorem not_isFinite_iff (x : Float32) : x.isFinite = false ↔ x.isNaN ∨ x.isInf := by
  change x.toModel.unpack.isFinite = false ↔ x.toModel.unpack.isNaN ∨ x.toModel.unpack.isInf
  cases x.toModel.unpack with
  | notANumber => exact iff_of_true rfl (.inl rfl)
  | infinity sign => exact iff_of_true rfl (.inr rfl)
  | zero | finite => exact iff_of_false Bool.noConfusion (by rintro (h | h) <;> cases h)

theorem isVoid_iff {dt : Float32} :
    (!dt.isFinite || dt ≤ 0) = true ↔ dt.isNaN ∨ dt.isInf ∨ dt ≤ 0 := by
  rw [Bool.or_eq_true, Bool.not_eq_true', not_isFinite_iff, decide_eq_true_eq, or_assoc]

namespace Lag

def after (step lag : Float32) (k : Nat) : Float32 := (· - step)^[k] lag

def Ends (cap : Nat) (step lag : Float32) (k : Nat) : Prop := k = cap ∨ ¬ step ≤ after step lag k

def due (step : Float32) : Nat → Float32 → Nat
  | 0, _ => 0
  | cap + 1, lag => if step ≤ lag then due step cap (lag - step) + 1 else 0

variable {step lag : Float32} {cap : Nat}

@[simp] theorem after_zero : after step lag 0 = lag := rfl

theorem after_succ (k : Nat) : after step lag (k + 1) = after step (lag - step) k := rfl

theorem due_of_le (h : step ≤ lag) : due step (cap + 1) lag = due step cap (lag - step) + 1 :=
  if_pos h

theorem due_of_not_le (h : ¬ step ≤ lag) : due step cap lag = 0 := by
  cases cap with
  | zero => rfl
  | succ cap => exact if_neg h

theorem isLeast_due (cap : Nat) (step lag : Float32) :
    IsLeast {k | Ends cap step lag k} (due step cap lag) := by
  induction cap generalizing lag with
  | zero => exact ⟨.inl rfl, fun _ _ => Nat.zero_le _⟩
  | succ cap ih =>
    by_cases h : step ≤ lag
    · obtain ⟨hends, hleast⟩ := ih (lag - step)
      rw [due_of_le h]
      refine ⟨hends.imp (congrArg (· + 1)) id, fun k hk => ?_⟩
      -- the first step has to be run, and from there on it is the same catch-up
      cases k with
      | zero => exact (hk.elim (Nat.succ_ne_zero cap).symm.elim (· h)).elim
      | succ k => exact Nat.succ_le_succ (hleast (hk.imp Nat.succ.inj id))
    · rw [due_of_not_le h]
      exact ⟨.inr h, fun _ _ => Nat.zero_le _⟩

end Lag

namespace Field

def times (op : Field β → Effects (Field β)) : Nat → Field β → Effects (Field β)
  | 0, f => pure f
  | k + 1, f => op f >>= times op k

def withLags (playerLag npcLag : Float32) (f : Field β) : Field β :=
  { f with playerLag := playerLag, npcLag := npcLag }

section Times

variable {op : Field β → Effects (Field β)}

theorem value_times_of {α : Type} (see : Field β → α) (h : ∀ f, see (op f).value = see f) (k : Nat)
    (f : Field β) : see (times op k f).value = see f := by
  induction k generalizing f with
  | zero => rfl
  | succ k ih => exact (ih _).trans (h f)

theorem count_times (count : Field β → Nat) (h : ∀ f, count (op f).value = count f + 1) (k : Nat)
    (f : Field β) : count (times op k f).value = count f + k := by
  induction k generalizing f with
  | zero => rfl
  | succ k ih =>
    refine (ih _).trans ?_
    rw [h, Nat.add_assoc, Nat.add_comm 1 k]

theorem log_times_of {P : Effect → Prop} (h : ∀ f, ∀ e ∈ (op f).log, P e) (k : Nat) (f : Field β) :
    ∀ e ∈ (times op k f).log, P e := by
  induction k generalizing f with
  | zero => exact fun _ he => by cases he
  | succ k ih =>
    intro e he
    rcases List.mem_append.1 he with he | he
    · exact h f e he
    · exact ih _ e he

end Times

theorem exists_settled (f : Field β) (os : List NpcOutcome) : ∃ feed players,
    (os.foldlM settle f).value = { f with feed := feed, players := players } := by
  induction os generalizing f with
  | nil => exact ⟨f.feed, f.players, rfl⟩
  | cons o os ih =>
    obtain ⟨feed, players, ho⟩ : ∃ feed players,
        (f.settle o).value = { f with feed := feed, players := players } := by
      cases o with
      | activity | moved | respawned => exact ⟨_, f.players, rfl⟩
      | attacked npc target damage =>
        rw [settle, strike]
        split
        · exact ⟨f.feed, f.players, rfl⟩
        · exact ⟨f.feed, _, rfl⟩
    obtain ⟨feed', players', hos⟩ := ih (f.settle o).value
    rw [ho] at hos
    exact ⟨feed', players', by rw [List.foldlM_cons, Emit.value_bind, ho, hos]⟩

theorem exists_npcsStep (f : Field β) (step : Float32) : ∃ feed players herd mind,
    (f.npcsStep step).value = { f with
      feed := feed, players := players, herd := herd, mind := mind
      npcSteps := f.npcSteps + 1 } := by
  obtain ⟨feed, players, h⟩ := exists_settled (f.thought step) (f.outcomes step)
  exact ⟨feed, players, _, _, h⟩

section Lags

variable (p n : Float32)

theorem playersStep_withLags (f : Field β) (step : Float32) :
    (f.withLags p n).playersStep step = withLags p n <$> f.playersStep step :=
  Emit.ext rfl (Emit.log_map (withLags p n) (f.playersStep step)).symm

theorem settle_withLags (f : Field β) (o : NpcOutcome) :
    (f.withLags p n).settle o = withLags p n <$> f.settle o := by
  cases o with
  | activity | moved | respawned => exact Emit.ext rfl (Emit.log_map (withLags p n) _).symm
  | attacked npc target damage =>
    rw [settle, settle]
    rcases hq : f.players[target]? with _ | q
    · have hq' : (f.withLags p n).players[target]? = none := hq
      simp only [strike, hq, hq', map_pure]
    · have hq' : (f.withLags p n).players[target]? = some q := hq
      rw [strike_of_some hq, strike_of_some hq']
      exact Emit.ext rfl (Emit.log_map (withLags p n) _).symm

theorem foldlM_settle_withLags (f : Field β) (os : List NpcOutcome) :
    os.foldlM settle (f.withLags p n) = withLags p n <$> os.foldlM settle f := by
  induction os generalizing f with
  | nil => rfl
  | cons o os ih =>
    rw [List.foldlM_cons, List.foldlM_cons, settle_withLags, bind_map_left, map_bind]
    exact Emit.bind_congr (ih _)

theorem npcsStep_withLags (f : Field β) (step : Float32) :
    (f.withLags p n).npcsStep step = withLags p n <$> f.npcsStep step :=
  foldlM_settle_withLags p n (f.thought step) (f.outcomes step)

theorem catchUpPlayers_withLags (cap : Nat) (f : Field β) :
    catchUpPlayers cap (f.withLags p n) =
      withLags (Lag.after f.config.playerStep p (Lag.due f.config.playerStep cap p)) n <$>
        times (·.playersStep f.config.playerStep) (Lag.due f.config.playerStep cap p) f := by
  induction cap generalizing f p with
  | zero => rfl
  | succ cap ih =>
    by_cases h : f.config.playerStep ≤ p
    · rw [Lag.due_of_le h, Lag.after_succ, times, map_bind]
      have hstep : catchUpPlayers (cap + 1) (f.withLags p n) =
          (f.withLags p n).playersStep f.config.playerStep >>= fun g =>
            catchUpPlayers cap { g with playerLag := g.playerLag - f.config.playerStep } := if_pos h
      rw [hstep, playersStep_withLags, bind_map_left]
      exact Emit.bind_congr (ih (p - f.config.playerStep) (f.playersStep f.config.playerStep).value)
    · have hend : catchUpPlayers (cap + 1) (f.withLags p n) = pure (f.withLags p n) := if_neg h
      rw [hend, Lag.due_of_not_le h]
      rfl

theorem config_npcsStep (f : Field β) (step : Float32) :
    (f.npcsStep step).value.config = f.config := by
  obtain ⟨feed, players, herd, mind, h⟩ := exists_npcsStep f step
  rw [h]

theorem catchUpNpcs_withLags (cap : Nat) (f : Field β) :
    catchUpNpcs cap (f.withLags p n) =
      withLags p (Lag.after f.config.npcStep n (Lag.due f.config.npcStep cap n)) <$>
        times (·.npcsStep f.config.npcStep) (Lag.due f.config.npcStep cap n) f := by
  induction cap generalizing f n with
  | zero => rfl
  | succ cap ih =>
    by_cases h : f.config.npcStep ≤ n
    · rw [Lag.due_of_le h, Lag.after_succ, times, map_bind]
      have hstep : catchUpNpcs (cap + 1) (f.withLags p n) =
          (f.withLags p n).npcsStep f.config.npcStep >>= fun g =>
            catchUpNpcs cap { g with npcLag := g.npcLag - f.config.npcStep } := if_pos h
      rw [hstep, npcsStep_withLags, bind_map_left]
      refine Emit.bind_congr ?_
      have hrest := ih (n - f.config.npcStep) (f.npcsStep f.config.npcStep).value
      rw [config_npcsStep] at hrest
      exact hrest
    · have hend : catchUpNpcs (cap + 1) (f.withLags p n) = pure (f.withLags p n) := if_neg h
      rw [hend, Lag.due_of_not_le h]
      rfl

end Lags

def dueWalks (f : Field β) (dt : Float32) : Nat :=
  Lag.due f.config.playerStep f.config.maxPlayerSteps.toNat (f.playerLag + dt)

def dueProwls (f : Field β) (dt : Float32) : Nat :=
  Lag.due f.config.npcStep f.config.maxNpcSteps.toNat (f.npcLag + dt)

variable {f : Field β} {dt : Float32}

theorem tick_of_no_time (h : dt.isNaN ∨ dt.isInf ∨ dt ≤ 0) : f.tick dt = pure f :=
  if_pos (isVoid_iff.2 h)

theorem tick_of_time (h : ¬ (dt.isNaN ∨ dt.isInf ∨ dt ≤ 0)) : f.tick dt =
    (do let g ← times (·.playersStep f.config.playerStep) (f.dueWalks dt)
          { f with time := f.time + Binary.widen dt }
        let g ← times (·.npcsStep f.config.npcStep) (f.dueProwls dt) g
        emit [.stepped]
        pure (g.withLags (Lag.after f.config.playerStep (f.playerLag + dt) (f.dueWalks dt))
          (Lag.after f.config.npcStep (f.npcLag + dt) (f.dueProwls dt)))) := by
  have hwalk : catchUpPlayers f.config.maxPlayerSteps.toNat
      (withLags (f.playerLag + dt) f.npcLag { f with time := f.time + Binary.widen dt }) =
        withLags (Lag.after f.config.playerStep (f.playerLag + dt) (f.dueWalks dt)) f.npcLag <$>
          times (·.playersStep f.config.playerStep) (f.dueWalks dt)
            { f with time := f.time + Binary.widen dt } := catchUpPlayers_withLags ..
  have htick : f.tick dt = catchUpPlayers f.config.maxPlayerSteps.toNat
      (withLags (f.playerLag + dt) f.npcLag { f with time := f.time + Binary.widen dt }) >>=
        fun g => catchUpNpcs g.config.maxNpcSteps.toNat { g with npcLag := g.npcLag + dt } >>=
          fun g => emit [.stepped] >>= fun _ => pure g := if_neg (mt isVoid_iff.1 h)
  rw [htick, hwalk, bind_map_left]
  generalize Lag.after f.config.playerStep (f.playerLag + dt) (f.dueWalks dt) = rest
  refine Emit.bind_congr ?_
  generalize hg : (times (·.playersStep f.config.playerStep) (f.dueWalks dt)
    { f with time := f.time + Binary.widen dt }).value = g
  -- the monsters catch up by the settings that the field had before
  have hconfig : g.config = f.config := hg ▸ value_times_of Field.config (fun _ => rfl) _ _
  have hprowl := catchUpNpcs_withLags rest (f.npcLag + dt) f.config.maxNpcSteps.toNat g
  rw [hconfig] at hprowl
  change catchUpNpcs g.config.maxNpcSteps.toNat (g.withLags rest (f.npcLag + dt)) >>= _ = _
  rw [hconfig, hprowl, bind_map_left]
  rfl

theorem sparesTicks_playersStep (f : Field β) (step : Float32) :
    ∀ e ∈ (f.playersStep step).log, e.SparesTicks :=
  Effect.sparesTicks_of_sights (sights_playersStep f _)

theorem sparesTicks_settle (f : Field β) (o : NpcOutcome) :
    ∀ e ∈ (f.settle o).log, e.SparesTicks := by
  have hbroadcast : ∀ (g : Interest.Feed) (id : EntityId) (event : Event),
      ∀ e ∈ g.broadcast id event ++ [], e.SparesTicks := fun g id event e he =>
    Effect.sparesTicks_broadcast g id event e (by rwa [List.append_nil] at he)
  cases o with
  | activity id a => exact hbroadcast _ _ _
  | moved id pos =>
    exact Effect.sparesTicks_of_sights
      (sights_feeding (·.move id pos) (Interest.Feed.sights_change _ _))
  | attacked npc target damage =>
    rw [settle]
    rcases hq : f.players[target]? with _ | q
    · simp [strike, hq]
    · rw [strike_of_some hq]
      exact List.forall_mem_append.2 ⟨Effect.sparesTicks_hit _ _, hbroadcast _ _ _⟩
  | respawned id pos =>
    refine List.forall_mem_append.2 ⟨List.forall_mem_singleton.2 Counter.noConfusion,
      List.forall_mem_append.2 ⟨?_, hbroadcast _ _ _⟩⟩
    exact Effect.sparesTicks_of_sights (sights_feeding _ (Interest.Feed.sights_add _ _ _ _))

theorem sparesTicks_npcsStep (f : Field β) (step : Float32) :
    ∀ e ∈ (f.npcsStep step).log, e.SparesTicks := by
  rw [npcsStep_eq]
  generalize f.outcomes step = os, f.thought step = g
  induction os generalizing g with
  | nil => exact List.forall_mem_nil _
  | cons o os ih =>
    rw [List.foldlM_cons]
    exact List.forall_mem_append.2 ⟨sparesTicks_settle g o, ih _⟩

theorem tickCount_tick (h : ¬ (dt.isNaN ∨ dt.isInf ∨ dt ≤ 0)) (us : UInt64) (m : Counters) :
    ((f.tick dt).log.foldl (Counters.apply us) m).tickCount = m.tickCount + 1 := by
  have hwalks := Effect.tickCount_foldl
    (log_times_of (sparesTicks_playersStep · f.config.playerStep) (f.dueWalks dt)
      { f with time := f.time + Binary.widen dt })
  have hprowls := fun g : Field β => Effect.tickCount_foldl
    (log_times_of (sparesTicks_npcsStep · f.config.npcStep) (f.dueProwls dt) g)
  rw [tick_of_time h, Emit.log_bind, List.foldl_append, Emit.log_bind, List.foldl_append,
    Emit.log_bind, emit, Emit.log_ofLog, Emit.log_pure, List.append_nil, List.foldl_cons,
    List.foldl_nil, Effect.tickCount_apply_stepped, hprowls, hwalks]

end Field

structure Pace where
  playerLag : Float32
  npcLag : Float32
  playerSteps : Nat
  npcSteps : Nat

def Pace.pass (config : FieldConfig) (p : Pace) (dt : Float32) : Pace :=
  let walks := Lag.due config.playerStep config.maxPlayerSteps.toNat (p.playerLag + dt)
  let prowls := Lag.due config.npcStep config.maxNpcSteps.toNat (p.npcLag + dt)
  { playerLag := Lag.after config.playerStep (p.playerLag + dt) walks
    npcLag := Lag.after config.npcStep (p.npcLag + dt) prowls
    playerSteps := p.playerSteps + walks
    npcSteps := p.npcSteps + prowls }

def Field.pace (f : Field β) : Pace := ⟨f.playerLag, f.npcLag, f.playerSteps, f.npcSteps⟩

def Deed.span? : Deed β → Option Float32
  | .handle (.tick dt) => if !dt.isFinite || dt ≤ 0 then none else some dt
  | _ => none

def spans (ds : List (Deed β)) : List Float32 := ds.filterMap Deed.span?

/-- Lets time pass by a tick if at all: work of its own leaves the pace of the field alone, and of
the settings all but the view radius. -/
def Deed.KeepsTime : Deed β → Prop
  | .handle (.job j) => ∀ f, (j f).value.1.pace = f.pace ∧
      (j f).value.1.config = { f.config with viewRadius := (j f).value.1.config.viewRadius }
  | _ => True

namespace Field

variable {f : Field β} {dt : Float32}

theorem pace_tick (h : ¬ (dt.isNaN ∨ dt.isInf ∨ dt ≤ 0)) :
    (f.tick dt).value.pace = f.pace.pass f.config dt := by
  rw [tick_of_time h]
  generalize hg : (times (·.playersStep f.config.playerStep) (f.dueWalks dt)
    { f with time := f.time + Binary.widen dt }).value = g
  have hwalks : g.playerSteps = f.playerSteps + f.dueWalks dt :=
    hg ▸ count_times Field.playerSteps (fun _ => rfl) _ _
  have hnpcs : g.npcSteps = f.npcSteps := hg ▸ value_times_of Field.npcSteps (fun _ => rfl) _ _
  have hplayers : (times (·.npcsStep f.config.npcStep) (f.dueProwls dt) g).value.playerSteps =
      g.playerSteps := value_times_of Field.playerSteps (fun f => by
    obtain ⟨feed, players, herd, mind, h⟩ := exists_npcsStep f _
    rw [h]) _ _
  have hprowls : (times (·.npcsStep f.config.npcStep) (f.dueProwls dt) g).value.npcSteps =
      g.npcSteps + f.dueProwls dt := count_times Field.npcSteps (fun f => by
    obtain ⟨feed, players, herd, mind, h⟩ := exists_npcsStep f _
    rw [h]) _ _
  rw [hwalks] at hplayers
  rw [hnpcs] at hprowls
  simp only [Emit.value_bind, hg]
  change (⟨_, _, (times (·.npcsStep f.config.npcStep) (f.dueProwls dt) g).value.playerSteps,
    (times (·.npcsStep f.config.npcStep) (f.dueProwls dt) g).value.npcSteps⟩ : Pace) = _
  rw [hplayers, hprowls]
  rfl

theorem time_tick (h : ¬ (dt.isNaN ∨ dt.isInf ∨ dt ≤ 0)) :
    (f.tick dt).value.time = f.time + Binary.widen dt := by
  rw [tick_of_time h]
  refine (value_times_of Field.time (fun f => ?_) _ _).trans
    (value_times_of Field.time (fun _ => rfl) _ _)
  obtain ⟨feed, players, herd, mind, h⟩ := exists_npcsStep f _
  rw [h]

theorem pace_onMove (f : Field β) (session : EntityId) (c : MoveCommand) :
    (f.onMove session c).pace = f.pace := by
  unfold onMove
  split
  · rfl
  · split <;> rfl

theorem pace_onSkill (f : Field β) (attacker target : EntityId) :
    (f.onSkill attacker target).value.pace = f.pace := by
  unfold onSkill
  split
  · rcases f.herd.damage target f.config.skillDamage with _ | ⟨herd, n⟩
    · rfl
    · dsimp only
      split <;> rfl
  · rfl

theorem pace_perform {d : Deed β} (hd : ¬ d.IsJob) (ht : ¬ d.IsTick) :
    (f.perform d).value.pace = f.pace := by
  refine perform_of f (P := fun g => g.pace = f.pace) hd rfl (fun _ _ => rfl) (fun _ => rfl)
    (pace_onMove f) (pace_onSkill f) (fun _ => rfl) (fun dt he => ?_) (fun _ _ => rfl)
    fun g r hr => ?_
  · subst he
    exact (ht trivial).elim
  · obtain ⟨x, -, rfl⟩ := Option.map_eq_some_iff.1 hr
    rfl

theorem pace_deed {d : Deed β} (hd : d.KeepsTime) :
    (f.perform d).value.pace = d.span?.toList.foldl (Pace.pass f.config) f.pace ∧
      (f.perform d).value.config =
        { f.config with viewRadius := (f.perform d).value.config.viewRadius } := by
  by_cases hj : d.IsJob
  · cases d with
    | handle m =>
      cases m with
      | job j => exact hd f
      | _ => exact hj.elim
    | spawn | populate => exact hj.elim
  refine ⟨?_, config_perform hj⟩
  by_cases ht : d.IsTick
  · cases d with
    | handle m =>
      cases m with
      | tick dt =>
        have hv : (f.perform (.handle (.tick dt))).value = (f.tick dt).value := rfl
        rw [hv, Deed.span?]
        split
        · next hvoid =>
          rw [tick_of_no_time (isVoid_iff.1 hvoid)]
          rfl
        · next hvoid => exact pace_tick (mt isVoid_iff.2 hvoid)
      | _ => exact ht.elim
    | spawn | populate => exact ht.elim
  · have hnone : d.span? = none := by
      cases d with
      | handle m =>
        cases m with
        | tick dt => exact (ht trivial).elim
        | _ => rfl
      | spawn | populate => rfl
    rw [pace_perform hj ht, hnone]
    rfl

theorem pace_run (f : Field β) {ds : List (Deed β)} (hd : ∀ d ∈ ds, d.KeepsTime) :
    (f.run ds).value.pace = (spans ds).foldl (Pace.pass f.config) f.pace := by
  induction ds generalizing f with
  | nil => rfl
  | cons d ds ih =>
    obtain ⟨hd, hds⟩ := List.forall_mem_cons.1 hd
    obtain ⟨hpace, hconfig⟩ := pace_deed (f := f) hd
    have hspans : spans (d :: ds) = d.span?.toList ++ spans ds := by
      cases hs : d.span? <;> simp [spans, hs]
    -- the view radius has no say in it
    have hpass : Pace.pass (f.perform d).value.config = Pace.pass f.config := by rw [hconfig]; rfl
    rw [hspans, List.foldl_append, ← hpace, ← hpass]
    exact ih (f.perform d).value hds

/-- A tick of no time does nothing. Any other tick goes on with the time, runs as many steps of the
players as there have to be until they have caught up or have run as many as they may, then the
monsters' likewise, keeps what is left, and is counted once. So two fields with the same settings
and pace keep pace with each other as long as the same times pass for both, whatever their brains,
their players and monsters and all that is done to them in between. -/
theorem tick_runs_due_steps :
    (∀ (f : Field β) (dt : Float32), dt.isNaN ∨ dt.isInf ∨ dt ≤ 0 → f.tick dt = pure f) ∧
    (∀ (f : Field β) (dt : Float32), ¬ (dt.isNaN ∨ dt.isInf ∨ dt ≤ 0) → ∃ n m,
      IsLeast {k | Lag.Ends f.config.maxPlayerSteps.toNat f.config.playerStep (f.playerLag + dt) k}
        n ∧
      IsLeast {k | Lag.Ends f.config.maxNpcSteps.toNat f.config.npcStep (f.npcLag + dt) k} m ∧
      f.tick dt =
        (do let g ← times (·.playersStep f.config.playerStep) n
              { f with time := f.time + Binary.widen dt }
            let g ← times (·.npcsStep f.config.npcStep) m g
            emit [.stepped]
            pure (g.withLags (Lag.after f.config.playerStep (f.playerLag + dt) n)
              (Lag.after f.config.npcStep (f.npcLag + dt) m))) ∧
      (f.tick dt).value.time = f.time + Binary.widen dt ∧
      (f.tick dt).value.playerSteps = f.playerSteps + n ∧
      (f.tick dt).value.npcSteps = f.npcSteps + m ∧
      ∀ us c, ((f.tick dt).log.foldl (Counters.apply us) c).tickCount = c.tickCount + 1) ∧
    ∀ (f : Field β) (g : Field γ) (ds : List (Deed β)) (es : List (Deed γ)),
      (∀ d ∈ ds, d.KeepsTime) → (∀ e ∈ es, e.KeepsTime) → f.config = g.config →
      f.pace = g.pace → spans ds = spans es → (f.run ds).value.pace = (g.run es).value.pace := by
  refine ⟨fun f dt h => tick_of_no_time h, fun f dt h => ?_, fun f g ds es hd he hc hp hs => ?_⟩
  · have hpace := pace_tick (f := f) h
    exact ⟨f.dueWalks dt, f.dueProwls dt, Lag.isLeast_due .., Lag.isLeast_due .., tick_of_time h,
      time_tick h, congrArg Pace.playerSteps hpace, congrArg Pace.npcSteps hpace, tickCount_tick h⟩
  · rw [pace_run f hd, pace_run g he, hc, hp, hs]

def fickle : Brain Bool := ⟨fun b _ _ => (if b then .chase 7 3 else .hold, !b)⟩

theorem tick_runs_due_steps_crowded :
    let empty := fresh 1 {} Brain.idle () .byId
    let crowded := fresh 2 {} fickle true .byId
    let ticks : List (Deed Unit) := [.handle (.tick 0.25), .handle (.tick 0.125)]
    let deeds : List (Deed Bool) :=
      [.handle (.enter { id := 7, name := "ada", pos := ⟨1, 2⟩ }), .spawn (NpcTemplate.nth 0) ⟨3, 4⟩,
        .handle (.tick 0.25), .handle (.tick (-1)),
        .handle (.skill 7 (SkillCommand.encode ⟨0, Npc.idBase + 1⟩)), .handle (.viewRadius 5),
        .handle (.tick 0.125)]
    empty.tick (-1) = pure empty ∧
      (∃ n, IsLeast {k | Lag.Ends 5 0.05 (0 + 0.25) k} n ∧ (empty.tick 0.25).value.playerSteps = 0 + n) ∧
      spans ticks = spans deeds ∧ (empty.run ticks).value.pace = (crowded.run deeds).value.pace ∧
      (empty.run ticks).value.playerSteps = 7 := by
  intro empty crowded ticks deeds
  obtain ⟨hvoid, htime, hruns⟩ := tick_runs_due_steps (β := Unit) (γ := Bool)
  have hspans : spans ticks = spans deeds := by decide +kernel
  obtain ⟨n, m, hn, -, -, -, hwalks, -⟩ := htime empty 0.25 (by decide +kernel)
  refine ⟨hvoid empty (-1) (by decide +kernel), ⟨n, hn, hwalks⟩, hspans,
    hruns empty crowded ticks deeds ?_ ?_ rfl rfl hspans, by decide +kernel⟩
  · simp only [ticks, List.forall_mem_cons, Deed.KeepsTime, true_and]
    exact fun _ h => nomatch h
  · simp only [deeds, List.forall_mem_cons, Deed.KeepsTime, true_and]
    exact fun _ h => nomatch h

end Field
end Fieldwatch
