import Fieldwatch.Geometry
import Fieldwatch.Identity

/-! What a field tells its players. A notice is an event together with the player it is for. -/

namespace Fieldwatch

inductive SightingKind where
  | enter
  | leave
  | move
  /-- The subject stood in a sector that came into view. -/
  | snapshot
deriving DecidableEq, Inhabited

def SightingKind.name : SightingKind → String
  | .enter => "enter"
  | .leave => "leave"
  | .move => "move"
  | .snapshot => "snapshot"

structure Sighting where
  kind : SightingKind
  subject : EntityId
  pos : Vec2

inductive Activity where
  | idle
  | moving
  | chase
  | attack
  | dead
deriving DecidableEq, Inhabited

def Activity.name : Activity → String
  | .idle => "idle"
  | .moving => "moving"
  | .chase => "chase"
  | .attack => "attack"
  | .dead => "dead"

structure Vitals where
  hp : Int
  maxHp : Int
deriving DecidableEq, Inhabited

structure Hit where
  attacker : EntityId
  target : EntityId
  damage : Int
  remaining : Int
deriving DecidableEq, Inhabited

inductive Event where
  | sighting (s : Sighting)
  | activity (subject : EntityId) (a : Activity)
  | vitals (subject : EntityId) (v : Vitals)
  | hit (h : Hit)

structure Notice where
  receiver : EntityId
  event : Event

end Fieldwatch
