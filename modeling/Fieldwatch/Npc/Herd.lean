import Fieldwatch.Npc.Step

/-! All monsters of a field, in the order in which they were spawned. The `k`-th of them, counted
from one, has the id `Npc.idBase + k`; none is ever taken out. -/

namespace Fieldwatch

structure Herd where
  members : List Npc := []
  respawnDelay : Float32

structure SpawnGrid where
  cols : UInt32 := 10
  rows : UInt32 := 10
  min : Vec2 := .zero
  max : Vec2 := ⟨500, 500⟩

namespace SpawnGrid

variable (g : SpawnGrid)

def isOrdered : Bool := g.min.x ≤ g.max.x && g.min.y ≤ g.max.y

def columns : UInt32 := if g.cols = 0 then 1 else g.cols

def lines : UInt32 := if g.rows = 0 then 1 else g.rows

def clamp (t lo hi : Float32) : Float32 := if t < lo then lo else if hi < t then hi else t

def middle (lo hi : Float32) (n i : UInt32) : Float32 :=
  clamp (lo + (i.toFloat32 + 0.5) * ((hi - lo) / n.toFloat32)) lo hi

def cell (i : UInt32) : Vec2 :=
  ⟨middle g.min.x g.max.x g.columns (i % g.columns),
    middle g.min.y g.max.y g.lines (i / g.columns)⟩

def cells : List Vec2 :=
  (List.range (g.columns * g.lines).toNat).map fun i => g.cell i.toUInt32

end SpawnGrid

namespace Herd

variable (h : Herd) {β : Type}

def get? (id : EntityId) : Option Npc := h.members.find? (·.id = id)

def size : Nat := h.members.length

def alive : Nat := h.members.countP (·.isAlive)

def nextId : EntityId := Npc.idBase + (h.size + 1).toUInt64

def spawn (t : NpcTemplate) (pos : Vec2) : Herd :=
  { h with members := h.members ++ [Npc.spawn h.nextId t pos h.respawnDelay] }

def spawnAll (points : List Vec2) : Herd :=
  (points.zipIdx).foldl (fun h (pos, i) => h.spawn (NpcTemplate.nth i) pos) h

def populate (g : SpawnGrid) : Option (Herd × List (EntityId × Vec2)) :=
  if g.isOrdered then
    let h' := h.spawnAll g.cells
    some (h', (h'.members.drop h.size).map fun n => (n.id, n.pos))
  else none

def damage (id : EntityId) (amount : Int) : Option (Herd × Npc) :=
  match h.get? id with
  | none => none
  | some n =>
    if n.isAlive then
      let n' := n.takeDamage amount
      some ({ h with members := h.members.map fun m => if m.id = id then n' else m }, n')
    else none

def stepAll (brain : Brain β) (view : PlayerView) (step : Float32) :
    β → List Npc → β × List Npc × List NpcOutcome
  | mind, [] => (mind, [], [])
  | mind, n :: rest =>
    let (mind, moved) :=
      if n.isAlive then
        let (intent, mind) := brain.think mind n view
        (mind, n.liveStep view step (n.act view intent))
      else (mind, n.deadStep step)
    let (mind, others, outcomes) := stepAll brain view step mind rest
    (mind, moved.1 :: others, moved.2 ++ outcomes)

def step (brain : Brain β) (mind : β) (view : PlayerView) (step : Float32) :
    Herd × β × List NpcOutcome :=
  let (mind, members, outcomes) := stepAll brain view step mind h.members
  ({ h with members := members }, mind, outcomes)

end Herd
end Fieldwatch
