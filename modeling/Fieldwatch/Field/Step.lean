import Fieldwatch.Field.Basic

/-! The passing of time in a field. Players and monsters move in steps of fixed length of their
own; a tick runs as many steps of each as fit into the time that has passed, up to a cap, and
keeps what is left for the next tick. -/

namespace Fieldwatch.Field

open Interest

variable {β : Type} (f : Field β)

/-- The players in the order in which this step comes upon them. Steps are told apart by their
number. -/
def order : List EntityId := f.enumeration.order (f.playerSteps + f.npcSteps) f.players

def visit (step : Float32) (walked : IdMap Player × List (EntityId × Vec2)) (id : EntityId) :
    IdMap Player × List (EntityId × Vec2) :=
  match walked.1[id]? with
  | none => walked
  | some p =>
    let r := p.tick f.time (Binary.widen f.config.idleTimeout) step
    (walked.1.insert id r.1, walked.2 ++ (r.2.map fun pos => (id, pos)).toList)

/-- One step of the players: a walk over their table, after which the moves are forwarded in the
order in which they were noted. -/
def walkPlayers (order : List EntityId) (step : Float32) : Effects (Field β) :=
  let walked := order.foldl (f.visit step) (f.players, [])
  feeding { f with players := walked.1, playerSteps := f.playerSteps + 1 }
    fun feed => walked.2.foldlM (fun feed (id, pos) => feed.move id pos) feed

def playersStep (step : Float32) : Effects (Field β) := f.walkPlayers f.order step

/-- The player of least distance to `pos`; of equally distant ones the first. -/
def closestOf (pos : Vec2) (within : Float32) (players : List (EntityId × Vec2)) :
    Option (EntityId × Vec2) :=
  (players.filter fun p => p.2.distanceSq pos ≤ within * within).foldl
    (fun best p =>
      match best with
      | none => some p
      | some b => if p.2.distanceSq pos < b.2.distanceSq pos then some p else some b)
    none

def viewOf (players : List (EntityId × Vec2)) : PlayerView :=
  { position := fun id => (players.find? (·.1 = id)).map (·.2)
    closest := fun pos range => closestOf pos range players }

def whereabouts : List (EntityId × Vec2) :=
  f.order.filterMap fun id => f.players[id]?.map fun p => (id, p.pos)

def playerView : PlayerView := viewOf f.whereabouts

def strike (npc target : EntityId) (damage : Int) : Effects (Field β) :=
  match f.players[target]? with
  | none => pure f
  | some p => do
    let p := p.takeDamage damage
    let f := { f with players := f.players.insert target p }
    emit (f.feed.hit ⟨npc, target, damage, p.vitals.hp⟩)
    emit (f.feed.vitals target p.vitals)
    pure f

def settle : NpcOutcome → Effects (Field β)
  | .activity id a => do emit (f.feed.activity id a); pure f
  | .moved id pos => f.feeding (·.move id pos)
  | .attacked npc target damage => f.strike npc target damage
  | .respawned id pos => do
    emit [.raise .npcsAlive 1]
    let f ← f.feeding (·.add id false pos)
    emit (f.feed.activity id .idle)
    pure f

/-- One step of the monsters: all of them act on what they see, then it is made known. -/
def npcsStep (step : Float32) : Effects (Field β) :=
  let (herd, mind, outcomes) := f.herd.step f.brain f.mind f.playerView step
  outcomes.foldlM settle { f with herd := herd, mind := mind, npcSteps := f.npcSteps + 1 }

def catchUpPlayers : Nat → Field β → Effects (Field β)
  | 0, f => pure f
  | cap + 1, f =>
    let step := f.config.playerStep
    if step ≤ f.playerLag then do
      let f ← f.playersStep step
      catchUpPlayers cap { f with playerLag := f.playerLag - step }
    else pure f

def catchUpNpcs : Nat → Field β → Effects (Field β)
  | 0, f => pure f
  | cap + 1, f =>
    let step := f.config.npcStep
    if step ≤ f.npcLag then do
      let f ← f.npcsStep step
      catchUpNpcs cap { f with npcLag := f.npcLag - step }
    else pure f

/-- Lets `dt` seconds pass. Anything that is no positive number of seconds changes nothing. -/
def tick (dt : Float32) : Effects (Field β) :=
  if !dt.isFinite || dt ≤ 0 then pure f
  else do
    let f := { f with time := f.time + Binary.widen dt }
    let f ← catchUpPlayers f.config.maxPlayerSteps.toNat { f with playerLag := f.playerLag + dt }
    let f ← catchUpNpcs f.config.maxNpcSteps.toNat { f with npcLag := f.npcLag + dt }
    emit [.stepped]
    pure f

end Fieldwatch.Field
