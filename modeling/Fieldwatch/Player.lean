import Fieldwatch.Notice
import Fieldwatch.Number.Binary

/-! A player as its field knows it. Where it is, how fast it goes and how much damage it takes are
the field's to say; the player only says which way it wants to go. -/

namespace Fieldwatch

structure Player where
  id : EntityId
  name : String
  pos : Vec2
  vitals : Vitals
  dir : Vec2 := .zero
  moving : Bool := false
  speed : Float32 := 0
  lastInput : Float := 0

namespace Player

def defaultVitals : Vitals := ⟨100, 100⟩

def minInputLengthSq : Float32 := 1e-4

variable (p : Player)

def stop : Player := { p with moving := false, dir := .zero, speed := 0 }

def isHeading (dir : Vec2) : Bool := dir.isFinite && !(dir.lengthSq < minInputLengthSq)

def steer (dir : Vec2) (speed : Float32) (now : Float) : Player :=
  let p := { p with lastInput := now }
  if isHeading dir then { p with dir := dir.normalize, speed := speed, moving := true } else p.stop

def hasTimedOut (now timeout : Float) : Bool := p.moving && timeout < now - p.lastInput

def next (step : Float32) : Vec2 := p.pos + p.dir.scale (p.speed * step)

/-- One step. A player without recent input stops; one that moves goes to its next position if
that is a position at all. Yields the new position of a player that has moved. -/
def tick (now timeout : Float) (step : Float32) : Player × Option Vec2 :=
  if p.hasTimedOut now timeout then (p.stop, none)
  else if p.moving && (p.next step).isFinite then ({ p with pos := p.next step }, some (p.next step))
  else (p, none)

def setHp (hp : Int) : Player :=
  { p with vitals := { p.vitals with hp := max 0 (min hp (max p.vitals.maxHp 0)) } }

def takeDamage (damage : Int) : Player := p.setHp (p.vitals.hp - damage)

end Player
end Fieldwatch
