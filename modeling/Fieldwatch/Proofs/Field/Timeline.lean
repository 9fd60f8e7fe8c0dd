import Fieldwatch.Proofs.Field.Runs

/-! What happens in a run of a field, moment by moment. A deed is an act of its own, except that a
tick is taken apart: into the steps of the players, and for each step of the monsters into their
thinking and, one by one, the outcomes that are made known. -/

namespace Fieldwatch

variable {β : Type}

inductive Act (β : Type) where
  | deed (d : Deed β)
  | clocks (time : Float) (playerLag npcLag : Float32)
  | walk (step : Float32)
  /-- All monsters act, and nobody knows yet. -/
  | think (step : Float32)
  | settle (o : NpcOutcome)
  | stepped

namespace Field

variable (f : Field β)

def outcomes (step : Float32) : List NpcOutcome :=
  (f.herd.step f.brain f.mind f.playerView step).2.2

def thought (step : Float32) : Field β :=
  { f with
    herd := (f.herd.step f.brain f.mind f.playerView step).1
    mind := (f.herd.step f.brain f.mind f.playerView step).2.1
    npcSteps := f.npcSteps + 1 }

def act : Act β → Effects (Field β)
  | .deed d => f.perform d
  | .clocks time playerLag npcLag =>
    pure { f with time := time, playerLag := playerLag, npcLag := npcLag }
  | .walk step => f.playersStep step
  | .think step => pure (f.thought step)
  | .settle o => f.settle o
  | .stepped => do emit [.stepped]; pure f

def after (as : List (Act β)) : Field β := (as.foldlM act f).value

def walkActs : Nat → Field β → List (Act β)
  | 0, _ => []
  | cap + 1, f =>
    let step := f.config.playerStep
    if step ≤ f.playerLag then
      let g := (f.playersStep step).value
      .walk step :: .clocks g.time (g.playerLag - step) g.npcLag ::
        walkActs cap { g with playerLag := g.playerLag - step }
    else []

def npcActs (step : Float32) : List (Act β) := .think step :: (f.outcomes step).map .settle

def prowlActs : Nat → Field β → List (Act β)
  | 0, _ => []
  | cap + 1, f =>
    let step := f.config.npcStep
    if step ≤ f.npcLag then
      let g := (f.npcsStep step).value
      f.npcActs step ++ .clocks g.time g.playerLag (g.npcLag - step) ::
        prowlActs cap { g with npcLag := g.npcLag - step }
    else []

def nightActs (dt : Float32) : List (Act β) :=
  let f := { f with npcLag := f.npcLag + dt }
  .clocks f.time f.playerLag f.npcLag :: (prowlActs f.config.maxNpcSteps.toNat f ++ [.stepped])

def tickActs (dt : Float32) : List (Act β) :=
  if !dt.isFinite || dt ≤ 0 then []
  else
    let f := { f with time := f.time + Binary.widen dt, playerLag := f.playerLag + dt }
    let walks := walkActs f.config.maxPlayerSteps.toNat f
    .clocks f.time f.playerLag f.npcLag :: (walks ++ (f.after walks).nightActs dt)

def acts : Deed β → List (Act β)
  | .handle (.tick dt) => f.tickActs dt
  | d => [.deed d]

def course : Field β → List (Deed β) → List (Act β)
  | _, [] => []
  | f, d :: ds => f.acts d ++ course (f.perform d).value ds

end Field

structure Moment (β : Type) where
  field : Field β
  act : Act β

namespace Moment

variable (m : Moment β)

def next : Field β := (m.field.act m.act).value

def log : List Effect := (m.field.act m.act).log

end Moment

namespace Field

def moments : Field β → List (Act β) → List (Moment β)
  | _, [] => []
  | f, a :: as => ⟨f, a⟩ :: moments (f.act a).value as

def timeline (f : Field β) (ds : List (Deed β)) : List (Moment β) := f.moments (f.course ds)

variable (f : Field β)

theorem foldlM_act_append (as bs : List (Act β)) : (as ++ bs).foldlM act f =
    as.foldlM act f >>= fun g => bs.foldlM act g := List.foldlM_append

theorem after_append (as bs : List (Act β)) : f.after (as ++ bs) = (f.after as).after bs := by
  rw [after, foldlM_act_append]
  rfl

theorem moments_append (as bs : List (Act β)) :
    f.moments (as ++ bs) = f.moments as ++ (f.after as).moments bs := by
  induction as generalizing f with
  | nil => rfl
  | cons a as ih => exact congrArg (_ :: ·) (ih _)

theorem log_foldlM_act (as : List (Act β)) :
    (as.foldlM act f).log = (f.moments as).flatMap Moment.log := by
  induction as generalizing f with
  | nil => rfl
  | cons a as ih =>
    rw [List.foldlM_cons, Emit.log_bind, ih]
    rfl

theorem npcsStep_eq (step : Float32) :
    f.npcsStep step = (f.outcomes step).foldlM settle (f.thought step) := rfl

theorem foldlM_act_settle (os : List NpcOutcome) :
    (os.map Act.settle).foldlM act f = os.foldlM settle f := List.foldlM_map

theorem foldlM_npcActs (step : Float32) : (f.npcActs step).foldlM act f = f.npcsStep step := by
  rw [npcActs, List.foldlM_cons, npcsStep_eq]
  exact foldlM_act_settle _ _

theorem foldlM_walkActs (cap : Nat) : (walkActs cap f).foldlM act f = catchUpPlayers cap f := by
  induction cap generalizing f with
  | zero => rfl
  | succ cap ih =>
    unfold walkActs catchUpPlayers
    dsimp only
    split
    · exact Emit.bind_congr (ih _)
    · rfl

theorem foldlM_prowlActs (cap : Nat) : (prowlActs cap f).foldlM act f = catchUpNpcs cap f := by
  induction cap generalizing f with
  | zero => rfl
  | succ cap ih =>
    unfold prowlActs catchUpNpcs
    dsimp only
    split
    · rw [foldlM_act_append, foldlM_npcActs]
      exact Emit.bind_congr (ih _)
    · rfl

theorem foldlM_nightActs (dt : Float32) : (f.nightActs dt).foldlM act f =
    (do let f ← catchUpNpcs f.config.maxNpcSteps.toNat { f with npcLag := f.npcLag + dt }
        emit [.stepped]
        pure f) := by
  have hprowl := foldlM_prowlActs { f with npcLag := f.npcLag + dt } f.config.maxNpcSteps.toNat
  rw [nightActs, List.foldlM_cons, ← hprowl]
  exact foldlM_act_append _ _ _

theorem foldlM_tickActs (dt : Float32) : (f.tickActs dt).foldlM act f = f.tick dt := by
  unfold tickActs tick
  split
  · rfl
  · have hwalk := foldlM_walkActs
      { f with time := f.time + Binary.widen dt, playerLag := f.playerLag + dt }
      f.config.maxPlayerSteps.toNat
    dsimp only
    rw [List.foldlM_cons, ← hwalk]
    refine (foldlM_act_append _ _ _).trans ?_
    exact Emit.bind_congr (foldlM_nightActs _ dt)

theorem foldlM_acts (d : Deed β) : (f.acts d).foldlM act f = f.perform d := by
  cases d with
  | spawn | populate => exact bind_pure _
  | handle m =>
    cases m with
    | tick dt => exact (foldlM_tickActs f dt).trans (fst_done _).symm
    | _ => exact bind_pure _

theorem foldlM_course (ds : List (Deed β)) : (f.course ds).foldlM act f = f.run ds := by
  induction ds generalizing f with
  | nil => rfl
  | cons d ds ih =>
    rw [course, foldlM_act_append, foldlM_acts]
    exact Emit.bind_congr (ih _)

theorem log_run (ds : List (Deed β)) : (f.run ds).log = (f.timeline ds).flatMap Moment.log := by
  rw [← foldlM_course, log_foldlM_act]
  rfl

end Field
end Fieldwatch
