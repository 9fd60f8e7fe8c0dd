import Fieldwatch.Notice

/-! The monsters of a field: what they are made of, what they may want, and what has to be told of
what they do. -/

namespace Fieldwatch

structure NpcTemplate where
  name : String
  maxHp : Int
  maxSp : Int
  atk : Int
  defence : Int
deriving DecidableEq, Inhabited

namespace NpcTemplate

def common (name : String) : NpcTemplate := ⟨name, 200, 100, 7, 3⟩

def all : List NpcTemplate :=
  ["BowAndArrow1", "BowAndArrow2", "BowAndArrow3", "DoubleSwords1", "DoubleSwords2",
    "DoubleSwords3", "MagicWand1", "MagicWand2", "MagicWand3"].map common

def nth (i : Nat) : NpcTemplate := all.getD (i % all.length) default

end NpcTemplate

structure Respawn where
  delay : Float32
  elapsed : Float32 := 0
  pending : Bool := false

structure Npc where
  id : EntityId
  template : NpcTemplate
  pos : Vec2
  spawnPoint : Vec2
  hp : Int
  activity : Activity := .idle
  target : Option EntityId := none
  dir : Vec2 := .zero
  speed : Float32 := 0
  attackTimer : Float32 := 0
  respawn : Respawn

namespace Npc

def idBase : EntityId := 281474976710656

def chaseSpeed : Float32 := 6

def attackCooldown : Float32 := 1

def minLengthSq : Float32 := 1e-6

def spawn (id : EntityId) (template : NpcTemplate) (pos : Vec2) (delay : Float32) : Npc :=
  { id := id, template := template, pos := pos, spawnPoint := pos, hp := template.maxHp,
    respawn := { delay := delay } }

variable (n : Npc)

def isAlive : Bool := 0 < n.hp

def vitals : Vitals := ⟨n.hp, n.template.maxHp⟩

def takeDamage (damage : Int) : Npc :=
  let hp := max (n.hp - max damage 0) 0
  if hp = 0 then
    { n with
      hp := hp, activity := .dead, target := none, speed := 0, attackTimer := 0
      respawn := { n.respawn with pending := true, elapsed := 0 } }
  else { n with hp := hp }

end Npc

inductive Intent where
  | hold
  | wander (dir : Vec2) (speed : Float32)
  | chase (target : EntityId) (speed : Float32)
  | attack (target : EntityId)

structure PlayerView where
  position : EntityId → Option Vec2
  closest : Vec2 → Float32 → Option (EntityId × Vec2)

/-- Decides what monsters want, one at a time, and remembers a `β` from one decision to the
next. -/
structure Brain (β : Type) where
  think : β → Npc → PlayerView → Intent × β

def Brain.idle : Brain Unit := ⟨fun _ _ _ => (.hold, ())⟩

inductive NpcOutcome where
  | activity (id : EntityId) (a : Activity)
  | moved (id : EntityId) (pos : Vec2)
  | attacked (npc target : EntityId) (damage : Int)
  | respawned (id : EntityId) (pos : Vec2)

end Fieldwatch
