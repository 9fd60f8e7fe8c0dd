import Fieldwatch.Field.Handling
import Fieldwatch.Proofs.Npc.Stepping
import Mathlib.Data.List.Induction

/-! Runs of a field. A deed is all that can be done to a field from outside, short of work that is
handed to it as code. A tick is taken apart here once and for all: what holds of a step of the
players, of a step of the monsters, and of whatever moves nothing but the clocks, holds of a tick.
Only spawning changes who the monsters are. -/

namespace Fieldwatch

variable {β : Type}

namespace Message

def IsOrdinary : Message β → Prop
  | .envelope session _ | .move session _ | .skill session _ => session ≤ Npc.idBase
  | .enter n => n.id ≤ Npc.idBase
  | .leave player => player ≤ Npc.idBase
  | .tick _ | .viewRadius _ => True
  | .job _ => False

end Message

inductive Deed (β : Type) where
  | handle (m : Message β)
  | spawn (t : NpcTemplate) (pos : Vec2)
  | populate (g : SpawnGrid)

def Deed.IsOrdinary : Deed β → Prop
  | .handle m => m.IsOrdinary
  | .spawn t _ => 0 < t.maxHp
  | .populate _ => True

def Message.IsJob : Message β → Prop
  | .job _ => True
  | _ => False

def Deed.IsJob : Deed β → Prop
  | .handle m => m.IsJob
  | .spawn .. | .populate _ => False

def Deed.IsTick : Deed β → Prop
  | .handle (.tick _) => True
  | _ => False

def Deed.Enters (id : EntityId) : Deed β → Prop
  | .handle (.enter n) => n.id = id
  | _ => False

theorem Deed.IsOrdinary.not_isJob {d : Deed β} (h : d.IsOrdinary) : ¬ d.IsJob := by
  cases d with
  | handle m => cases m <;> first | exact h.elim | exact id
  | spawn t pos => exact id
  | populate g => exact id

theorem Deed.eq_enter_of_enters {d : Deed β} {p : EntityId} (h : d.Enters p) :
    ∃ n, d = .handle (.enter n) ∧ n.id = p := by
  cases d with
  | handle m =>
    cases m with
    | enter n => exact ⟨n, rfl, h⟩
    | _ => exact h.elim
  | _ => exact h.elim

namespace Field

variable (f : Field β)

def perform : Deed β → Effects (Field β)
  | .handle m => Prod.fst <$> f.handle m
  | .spawn t pos => Prod.snd <$> f.spawn t pos
  | .populate g =>
    match f.populate g with
    | none => pure f
    | some r => Prod.snd <$> r

def run (ds : List (Deed β)) : Effects (Field β) := ds.foldlM perform f

@[simp] theorem fst_done (m : Effects (Field β)) : Prod.fst <$> handle.done m = m := by
  rw [handle.done, Functor.map_map]
  exact id_map m

theorem run_append (ds es : List (Deed β)) : f.run (ds ++ es) = f.run ds >>= fun g => g.run es :=
  List.foldlM_append

theorem value_run_append (ds es : List (Deed β)) :
    (f.run (ds ++ es)).value = ((f.run ds).value.run es).value := by
  rw [run_append, Emit.value_bind]

@[simp] theorem value_run_singleton (d : Deed β) : (f.run [d]).value = (f.perform d).value := by
  rw [run, List.foldlM_cons, Emit.value_bind]
  rfl

theorem run_of {Q : Deed β → Prop} {P : Field β → Prop} {f : Field β}
    (h : ∀ (f : Field β) (d : Deed β), Q d → P f → P (f.perform d).value) (hf : P f)
    {ds : List (Deed β)} (hd : ∀ d ∈ ds, Q d) : P (f.run ds).value := by
  induction ds generalizing f with
  | nil => exact hf
  | cons d ds ih =>
    obtain ⟨hd, hds⟩ := List.forall_mem_cons.1 hd
    exact ih (h f d hd hf) hds

/-- What was false at first and can only become true by an entry of `p` is true because there was an
entry, and so a last one. -/
theorem exists_last_entry {f : Field β} {p : EntityId} {P : Field β → Prop} (h0 : ¬ P f)
    (hstep : ∀ (g : Field β) (d : Deed β), ¬ d.IsJob → ¬ d.Enters p → P (g.perform d).value → P g)
    {ds : List (Deed β)} (hd : ∀ d ∈ ds, ¬ d.IsJob) (hP : P (f.run ds).value) :
    ∃ before n after, ds = before ++ .handle (.enter n) :: after ∧ n.id = p ∧
      ∀ d ∈ after, ¬ d.Enters p := by
  induction ds using List.reverseRecOn with
  | nil => exact (h0 hP).elim
  | append_singleton ds d ih =>
    rw [value_run_append, value_run_singleton] at hP
    have hds : ∀ e ∈ ds, ¬ e.IsJob := fun e he => hd e (List.mem_append_left _ he)
    by_cases he : d.Enters p
    · obtain ⟨n, rfl, hn⟩ := Deed.eq_enter_of_enters he
      exact ⟨ds, n, [], rfl, hn, fun _ h => by cases h⟩
    · obtain ⟨before, n, after, rfl, hn, hafter⟩ :=
        ih hds (hstep _ d (hd d (by simp)) he hP)
      refine ⟨before, n, after ++ [d], by simp, hn, fun e hm => ?_⟩
      obtain hm | hm := List.mem_append.1 hm
      · exact hafter e hm
      · rwa [List.mem_singleton.1 hm]

section Tick

variable {R : Field β → Effects (Field β) → Prop}
  (bind : ∀ (f : Field β) (m : Effects (Field β)) (k : Field β → Effects (Field β)),
    R f m → R m.value (k m.value) → R f (m >>= k))
  (clocks : ∀ (f : Field β) (t : Float) (p n : Float32),
    R f (pure { f with time := t, playerLag := p, npcLag := n }))

include bind clocks

theorem catchUpPlayers_of (players : ∀ f : Field β, R f (f.playersStep f.config.playerStep))
    (cap : Nat) : R f (catchUpPlayers cap f) := by
  induction cap generalizing f with
  | zero => exact clocks f f.time f.playerLag f.npcLag
  | succ cap ih =>
    unfold catchUpPlayers
    dsimp only
    split
    · refine bind _ _ _ (players f) ?_
      exact bind _ (pure _) _ (clocks _ _ _ _) (ih _)
    · exact clocks f f.time f.playerLag f.npcLag

theorem catchUpNpcs_of (npcs : ∀ f : Field β, R f (f.npcsStep f.config.npcStep)) (cap : Nat) :
    R f (catchUpNpcs cap f) := by
  induction cap generalizing f with
  | zero => exact clocks f f.time f.playerLag f.npcLag
  | succ cap ih =>
    unfold catchUpNpcs
    dsimp only
    split
    · refine bind _ _ _ (npcs f) ?_
      exact bind _ (pure _) _ (clocks _ _ _ _) (ih _)
    · exact clocks f f.time f.playerLag f.npcLag

theorem tick_of (players : ∀ f : Field β, R f (f.playersStep f.config.playerStep))
    (npcs : ∀ f : Field β, R f (f.npcsStep f.config.npcStep))
    (stepped : ∀ f : Field β, R f (do emit [.stepped]; pure f)) (dt : Float32) :
    R f (f.tick dt) := by
  unfold tick
  split
  · exact clocks f f.time f.playerLag f.npcLag
  · dsimp only
    have hp : R f (catchUpPlayers f.config.maxPlayerSteps.toNat
        { f with time := f.time + Binary.widen dt, playerLag := f.playerLag + dt }) :=
      bind f (pure _) _ (clocks f _ _ _) (catchUpPlayers_of _ bind clocks players _)
    refine bind _ _ _ hp ?_
    have hn : ∀ g : Field β,
        R g (catchUpNpcs g.config.maxNpcSteps.toNat { g with npcLag := g.npcLag + dt }) := fun g =>
      bind g (pure _) _ (clocks g _ _ _) (catchUpNpcs_of _ bind clocks npcs _)
    exact bind _ _ _ (hn _) (stepped _)

end Tick

@[simp] theorem value_feeding (op : Interest.Feed → Effects Interest.Feed) :
    (f.feeding op).value = { f with feed := (op f.feed).value } := rfl

theorem herd_onMove (session : EntityId) (c : MoveCommand) : (f.onMove session c).herd = f.herd := by
  unfold onMove
  split
  · rfl
  · split <;> rfl

theorem herd_strike (npc target : EntityId) (damage : Int) :
    (f.strike npc target damage).value.herd = f.herd := by
  unfold strike
  split <;> rfl

theorem herd_settle (o : NpcOutcome) : (f.settle o).value.herd = f.herd := by
  cases o with
  | activity id a => rfl
  | moved id pos => rfl
  | attacked npc target damage => exact herd_strike f npc target damage
  | respawned id pos => rfl

theorem herd_foldlM_settle (os : List NpcOutcome) : (os.foldlM settle f).value.herd = f.herd := by
  induction os generalizing f with
  | nil => rfl
  | cons o os ih => rw [List.foldlM_cons, Emit.value_bind, ih, herd_settle]

theorem herd_npcsStep (step : Float32) : (f.npcsStep step).value.herd =
    (f.herd.step f.brain f.mind f.playerView step).1 := herd_foldlM_settle _ _

theorem same_onSkill (attacker target : EntityId) :
    f.herd.Same (f.onSkill attacker target).value.herd := by
  unfold onSkill
  split
  · cases hd : f.herd.damage target f.config.skillDamage with
    | none => exact .refl _
    | some r =>
      have hs := Herd.same_damage hd
      dsimp only
      split <;> exact hs
  · exact .refl _

theorem same_tick (dt : Float32) : f.herd.Same (f.tick dt).value.herd := by
  refine tick_of f (R := fun f m => f.herd.Same m.value.herd) ?_ ?_ ?_ ?_ ?_ dt
  · exact fun f m k hm hk => hm.trans hk
  · exact fun f _ _ _ => .refl f.herd
  · exact fun f => .refl f.herd
  · intro f
    rw [herd_npcsStep]
    exact Herd.same_step _ _ _ _ _
  · exact fun f => .refl f.herd

theorem onDecoded_of {γ : Type} (act : γ → Effects (Field β)) {P : Field β → Prop} (hf : P f)
    (hact : ∀ c, P (act c).value) (r : Except DecodeError γ) : P (f.onDecoded act r).value := by
  cases r with
  | ok c => exact hact c
  | error e => exact hf

theorem handle_of {P : Field β → Prop} {m : Message β} (hm : ¬ m.IsJob) (same : P f)
    (enter : ∀ n, m = .enter n → P (f.addPlayer n).value)
    (leave : ∀ id, P (f.removePlayer id).value) (move : ∀ session c, P (f.onMove session c))
    (skill : ∀ attacker target, P (f.onSkill attacker target).value)
    (viewRadius : ∀ radius, P (f.setViewRadius radius).value)
    (tick : ∀ dt, m = .tick dt → P (f.tick dt).value) : P (f.handle m).value.1 := by
  cases m with
  | envelope session payload =>
    refine onDecoded_of f (f.onCommand session) same (fun c => ?_) _
    cases c with
    | move c => exact move session c
    | skill c => exact skill session c.target
    | leave => exact leave session
  | move session payload =>
    exact onDecoded_of f (fun c => pure (f.onMove session c)) same (move session) _
  | skill session payload =>
    exact onDecoded_of f (fun c : SkillCommand => f.onSkill session c.target) same
      (fun c => skill session c.target) _
  | enter n => exact enter n rfl
  | leave player => exact leave player
  | tick dt => exact tick dt rfl
  | viewRadius radius => exact viewRadius radius
  | job j => exact (hm trivial).elim

theorem perform_of {P : Field β → Prop} {d : Deed β} (hd : ¬ d.IsJob) (same : P f)
    (enter : ∀ n, d = .handle (.enter n) → P (f.addPlayer n).value)
    (leave : ∀ id, P (f.removePlayer id).value) (move : ∀ session c, P (f.onMove session c))
    (skill : ∀ attacker target, P (f.onSkill attacker target).value)
    (viewRadius : ∀ radius, P (f.setViewRadius radius).value)
    (tick : ∀ dt, d = .handle (.tick dt) → P (f.tick dt).value)
    (spawn : ∀ t pos, P (f.spawn t pos).value.2)
    (populate : ∀ g r, f.populate g = some r → P r.value.2) : P (f.perform d).value := by
  cases d with
  | handle m =>
    exact handle_of f hd same (fun n h => enter n (congrArg _ h)) leave move skill viewRadius
      fun dt h => tick dt (congrArg _ h)
  | spawn t pos => exact spawn t pos
  | populate g =>
    cases hr : f.populate g with
    | none => simpa [perform, hr] using same
    | some r =>
      have hv : (f.perform (.populate g)).value = r.value.2 := by simp [perform, hr]
      exact hv ▸ populate g r hr

theorem same_handle {m : Message β} (hm : ¬ m.IsJob) :
    f.herd.Same (f.handle m).value.1.herd :=
  handle_of f (P := fun g => f.herd.Same g.herd) hm (.refl _) (fun _ _ => .refl _)
    (fun _ => .refl _) (fun session c => by rw [herd_onMove]; exact .refl _) (same_onSkill f)
    (fun _ => .refl _) fun dt _ => same_tick f dt

theorem herd_populate {g : SpawnGrid} {r : Effects (Nat × Field β)} (hr : f.populate g = some r) :
    r.value.2.herd = f.herd.spawnEach g.cells.zipIdx := by
  obtain ⟨⟨k, sp⟩, hk, rfl⟩ := Option.map_eq_some_iff.1 hr
  exact (Herd.populate_eq_some hk).1

theorem size_le_perform {d : Deed β} (hd : ¬ d.IsJob) :
    f.herd.size ≤ (f.perform d).value.herd.size := by
  refine perform_of f (P := fun g => f.herd.size ≤ g.herd.size) hd (Nat.le_refl _)
    (fun _ _ => Nat.le_refl _) (fun _ => Nat.le_refl _) (fun session c => ?_)
    (fun attacker target => Nat.le_of_eq (same_onSkill f attacker target).size_eq.symm)
    (fun _ => Nat.le_refl _) (fun dt _ => Nat.le_of_eq (same_tick f dt).size_eq.symm)
    (fun t pos => ?_) fun g r hr => ?_
  · rw [herd_onMove]
  · change f.herd.size ≤ (f.herd.spawn t pos).size
    rw [Herd.size_spawn]
    exact Nat.le_succ _
  · rw [herd_populate f hr, Herd.size_spawnEach]
    exact Nat.le_add_right _ _

theorem size_le_run {ds : List (Deed β)} (hd : ∀ d ∈ ds, ¬ d.IsJob) :
    f.herd.size ≤ (f.run ds).value.herd.size :=
  run_of (P := fun g => f.herd.size ≤ g.herd.size)
    (fun g _ hd hg => Nat.le_trans hg (size_le_perform g hd)) (Nat.le_refl _) hd

end Field

/-- The deed is one that `Q` allows, or work that does nothing to a field but what such deeds do. -/
def Deed.DoesOnly (Q : Deed β → Prop) : Deed β → Prop
  | .handle (.job j) =>
    ∀ f, ∃ ds, (∀ d ∈ ds, ¬ d.IsJob ∧ Q d) ∧ (j f).value.1 = (Field.run f ds).value
  | d => Q d

namespace Field

variable {f : Field β} {Q : Deed β → Prop} {P : Field β → Prop}

theorem run_of_doesOnly
    (h : ∀ (f : Field β) (d : Deed β), ¬ d.IsJob → Q d → P f → P (f.perform d).value) (hf : P f)
    {ds : List (Deed β)} (hd : ∀ d ∈ ds, d.DoesOnly Q) : P (f.run ds).value := by
  refine run_of (Q := Deed.DoesOnly Q) (fun f d hd hf => ?_) hf hd
  by_cases hj : d.IsJob
  · rcases d with m | _ | _
    · cases m with
      | job j =>
        obtain ⟨es, hes, he⟩ := hd f
        have hv : (f.perform (.handle (.job j))).value = (f.run es).value := he
        rw [hv]
        exact run_of (fun f d hd => h f d hd.1 hd.2) hf hes
      | _ => exact hj.elim
    · exact hj.elim
    · exact hj.elim
  · have hq : Q d := by
      rcases d with m | _ | _
      · cases m with
        | job j => exact (hj trivial).elim
        | _ => exact hd
      · exact hd
      · exact hd
    exact h f d hj hq hf

end Field
end Fieldwatch
