import Fieldwatch.Npc.Basic

/-! One step of one monster. A dead one waits for its respawn. A live one does what it wants as far
as it can: it changes its activity, moves, and attacks whenever it has been attacking for a whole
cooldown; each of these is an outcome. -/

namespace Fieldwatch.Npc

structure Action where
  target : Option EntityId := none
  activity : Activity := .idle
  dir : Vec2 := .zero
  speed : Float32 := 0

variable (n : Npc) (view : PlayerView) (step : Float32)

/-- What comes of an intent. Wandering needs a direction and a speed, chasing a player that is
there; otherwise the monster stands idle. -/
def act : Intent → Action
  | .hold => {}
  | .wander dir speed =>
    if !dir.isFinite || dir.lengthSq < minLengthSq || speed ≤ 0 then {}
    else { activity := .moving, dir := dir.normalize, speed := speed }
  | .chase target speed =>
    match view.position target with
    | none => {}
    | some goal =>
      let way := goal - n.pos
      if way.lengthSq < minLengthSq then { target := some target, activity := .chase }
      else
        { target := some target, activity := .chase, dir := way.normalize
          speed := if 0 < speed then speed else chaseSpeed }
  | .attack target => { target := some target, activity := .attack }

def perform (a : Action) : Npc :=
  { n with
    target := a.target, activity := a.activity, dir := a.dir, speed := a.speed
    pos := if 0 < a.speed then n.pos + a.dir.scale (a.speed * step) else n.pos }

def strikes : Option EntityId :=
  if n.activity = .attack && attackCooldown ≤ n.attackTimer + step then
    n.target.filter fun t => (view.position t).isSome
  else none

/-- Lets time pass for the next attack. Only uninterrupted attacking counts. -/
def windUp : Npc :=
  if n.activity = .attack then
    { n with attackTimer := if (n.strikes view step).isSome then 0 else n.attackTimer + step }
  else { n with attackTimer := 0 }

def liveStep (a : Action) : Npc × List NpcOutcome :=
  let m := n.perform step a
  (m.windUp view step,
    (if m.activity = n.activity then [] else [.activity n.id m.activity]) ++
      (if 0 < a.speed then [.moved n.id m.pos] else []) ++
      (m.strikes view step).toList.map (.attacked n.id · n.template.atk))

/-- The step of a dead monster. It comes back where it was spawned, once its delay has passed; with
no delay it never does. -/
def deadStep : Npc × List NpcOutcome :=
  if n.respawn.pending && !(n.respawn.delay ≤ 0) then
    let elapsed := n.respawn.elapsed + step
    if elapsed < n.respawn.delay then
      ({ n with respawn := { n.respawn with elapsed := elapsed } }, [])
    else
      (spawn n.id n.template n.spawnPoint n.respawn.delay, [.respawned n.id n.spawnPoint])
  else (n, [])

end Fieldwatch.Npc
