import Fieldwatch.Command
import Fieldwatch.Interest.Feed
import Fieldwatch.Npc.Herd
import Fieldwatch.Player

/-! A field: its players, its monsters, who sees whom, and how far its time has come. -/

namespace Fieldwatch

open Interest

structure FieldConfig where
  sectorSize : Float32 := 10
  viewRadius : Int := 2
  playerStep : Float32 := 0.05
  npcStep : Float32 := 0.1
  maxPlayerSteps : UInt32 := 5
  maxNpcSteps : UInt32 := 3
  queueCapacity : Nat := 4096
  idleTimeout : Float32 := 0.5
  playerSpeed : Float32 := 10
  skillDamage : Int := 10
  npcRespawn : Float32 := 5
deriving Inhabited

/-- The order in which the table of the players is gone through the `n`-th time. Nothing is known of
it but that it has everybody once: it may be another one each time. -/
structure Enumeration where
  order : Nat → IdMap Player → List EntityId
  perm (n : Nat) (players : IdMap Player) : (order n players).Perm players.keys

def Enumeration.byId : Enumeration := ⟨fun _ players => players.keys, fun _ _ => .refl _⟩

def Enumeration.backwards : Enumeration :=
  ⟨fun _ players => players.keys.reverse, fun _ _ => List.reverse_perm _⟩

structure Field (β : Type) where
  id : FieldId
  config : FieldConfig
  feed : Feed
  players : IdMap Player := ∅
  enumeration : Enumeration := .byId
  herd : Herd
  brain : Brain β
  mind : β
  /-- Seconds since the field began. -/
  time : Float := 0
  /-- Time that the players' steps have yet to catch up with. -/
  playerLag : Float32 := 0
  npcLag : Float32 := 0
  playerSteps : Nat := 0
  npcSteps : Nat := 0

structure Newcomer where
  id : EntityId
  name : String
  pos : Vec2
  vitals : Vitals := Player.defaultVitals

namespace Field

variable {α β : Type}

def fresh (id : FieldId) (config : FieldConfig) (brain : Brain β) (mind : β)
    (e : Enumeration := .byId) : Field β :=
  { id := id, config := config, feed := Feed.empty config.sectorSize config.viewRadius
    enumeration := e, herd := { respawnDelay := config.npcRespawn }, brain := brain, mind := mind }

def idle (id : FieldId) (config : FieldConfig) (e : Enumeration := .byId) : Field Unit :=
  fresh id config Brain.idle () e

def feeding (f : Field β) (op : Feed → Effects Feed) : Effects (Field β) := do
  return { f with feed := ← op f.feed }

/-- Brings a player in, in place of what the field knew under its id. It is shown all that it sees
from where it stands, and last itself. -/
def addPlayer (f : Field β) (n : Newcomer) : Effects (Field β) := do
  let player : Player := { id := n.id, name := n.name, pos := n.pos, vitals := n.vitals }
  emit (if n.id ∈ f.players then [] else [.raise .playersActive 1])
  let f := { f with players := f.players.insert n.id player, feed := { f.feed with live := true } }
  f.feeding fun feed => do
    let feed ← feed.add n.id true n.pos
    feed.tellSelf n.id ⟨.snapshot, n.id, n.pos⟩

def removePlayer (f : Field β) (id : EntityId) : Effects (Field β) := do
  let f ← f.feeding (·.remove id)
  emit (if id ∈ f.players then [.lower .playersActive 1] else [])
  pure { f with players := f.players.erase id }

/-- A wish of session `session` to move. Only its own player listens. -/
def onMove (f : Field β) (session : EntityId) (c : MoveCommand) : Field β :=
  if session ≠ c.entity then f
  else
    match f.players[c.entity]? with
    | none => f
    | some p =>
      { f with players := f.players.insert c.entity (p.steer c.dir f.config.playerSpeed f.time) }

/-- A blow of a player of this field at a live monster. All that see the monster learn what the
blow left of it; a killed one goes out of sight. -/
def onSkill (f : Field β) (attacker target : EntityId) : Effects (Field β) :=
  if attacker ∈ f.players then
    match f.herd.damage target f.config.skillDamage with
    | none => pure f
    | some (herd, n) => do
      let f := { f with herd := herd }
      if n.hp = 0 then
        emit (.lower .npcsAlive 1 :: f.feed.activity target .dead)
        f.feeding (·.remove target)
      else
        emit (f.feed.vitals target n.vitals)
        pure f
  else pure f

def setViewRadius (f : Field β) (radius : Int) : Effects (Field β) :=
  feeding { f with config := { f.config with viewRadius := max radius 1 } } (·.setRadius radius)

def spawn (f : Field β) (t : NpcTemplate) (pos : Vec2) : Effects (EntityId × Field β) := do
  let id := f.herd.nextId
  let f ← feeding { f with herd := f.herd.spawn t pos } (·.add id false pos)
  emit [.raise .npcsAlive 1]
  pure (id, f)

/-- Populates a grid, all or nothing. Yields the number of new monsters too. -/
def populate (f : Field β) (g : SpawnGrid) : Option (Effects (Nat × Field β)) :=
  (f.herd.populate g).map fun (herd, spawned) => do
    let f ← feeding { f with herd := herd } fun feed =>
      spawned.foldlM (fun feed (id, pos) => feed.add id false pos) feed
    emit [.raise .npcsAlive spawned.length.toUInt64]
    pure (spawned.length, f)

end Field
end Fieldwatch
