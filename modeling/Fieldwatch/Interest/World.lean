import Fieldwatch.Emit
import Fieldwatch.Notice
import Fieldwatch.Interest.Cells

/-! Who stands where and who sees it. A player sees exactly the entities that stand in the sectors
of its view, the neighbourhood of its own sector. Every change of the world announces the changes
of sight that it makes, each to the one player it concerns. -/

namespace Fieldwatch.Interest

structure Entity where
  isPlayer : Bool
  pos : Vec2
  sector : Sector
  radius : Int
  /-- The sectors a player sees; empty for anything else. -/
  view : SectorSet

structure World where
  grid : Grid
  radius : Int
  entities : IdMap Entity := ∅
  cells : Cells := {}

structure Delivery where
  watcher : EntityId
  sighting : Sighting

namespace World

def empty (size : Float32) (radius : Int) : World :=
  { grid := Grid.ofSize size, radius := max radius 1 }

def neighbourhood (w : World) (s : Sector) : List Sector := s.neighbourhood w.radius

def announce (w : World) (s : Sector) (about : Sighting) : List Delivery :=
  ((w.cells.watchers s).toList.filter (· ≠ about.subject)).map (⟨·, about⟩)

def survey (w : World) (id : EntityId) (kind : SightingKind) (s : Sector) : List Delivery :=
  ((w.cells.residents s).toList.filter (· ≠ id)).filterMap fun other =>
    w.entities[other]?.map fun e => ⟨id, kind, other, e.pos⟩

/-- Brings the view of player `id` in line with its sector and radius. The residents of every
sector that drops out of view leave its sight, in the order of the sectors; those of every sector
that comes into view are shown to it as they stand, in the order of the neighbourhood. -/
def refresh (w : World) (id : EntityId) : Emit Delivery World :=
  match w.entities[id]? with
  | none => pure w
  | some e =>
    if e.isPlayer then
      let order := e.sector.neighbourhood e.radius
      let view : SectorSet := Std.ExtTreeSet.ofList order
      let lost := e.view.toList.filter (· ∉ view)
      let gained := order.filter (· ∉ e.view)
      { value :=
          { w with
            entities := w.entities.insert id { e with view := view }
            cells := gained.foldl (·.enrol id ·) (lost.foldl (·.dismiss id ·) w.cells) }
        log := lost.flatMap (w.survey id .leave) ++ gained.flatMap (w.survey id .snapshot) }
    else pure w

def remove (w : World) (id : EntityId) : Emit Delivery World :=
  match w.entities[id]? with
  | none => pure w
  | some e =>
    { value :=
        { w with
          entities := w.entities.erase id
          cells := e.view.toList.foldl (·.dismiss id ·) (w.cells.evict id e.sector) }
      log := w.announce e.sector ⟨.leave, id, e.pos⟩ }

def add (w : World) (id : EntityId) (isPlayer : Bool) (pos : Vec2) : Emit Delivery World := do
  let w ← w.remove id
  let s := w.grid.locate pos
  let newcomer : Entity :=
    { isPlayer := isPlayer, pos := pos, sector := s, radius := w.radius, view := ∅ }
  let w ← refresh
    { w with entities := w.entities.insert id newcomer, cells := w.cells.place id s } id
  Emit.ofLog (w.announce s ⟨.enter, id, pos⟩)
  pure w

/-- The sightings of `id` by those who see only one of two sectors between which it moved: it
left the sight of those who see only the first, and came into the sight of those who see only the
second. -/
def crossing (w : World) (id : EntityId) (pos : Vec2) (old new : Sector) : List Delivery :=
  (w.announce old ⟨.leave, id, pos⟩).filter (·.watcher ∉ w.cells.watchers new) ++
    (w.announce new ⟨.enter, id, pos⟩).filter (·.watcher ∉ w.cells.watchers old)

/-- Moves `id` to `pos`. An unknown id changes nothing. A player hears of its own move last. -/
def move (w : World) (id : EntityId) (pos : Vec2) : Emit Delivery World :=
  match w.entities[id]? with
  | none => pure w
  | some e => do
    let s := w.grid.locate pos
    let w := { w with entities := w.entities.insert id { e with pos := pos, sector := s } }
    let w ← if e.sector = s then pure w else do
      let w ← refresh { w with cells := (w.cells.evict id e.sector).place id s } id
      Emit.ofLog (w.crossing id pos e.sector s)
      pure w
    Emit.ofLog (w.announce s ⟨.move, id, pos⟩)
    Emit.ofLog (if e.isPlayer then [⟨id, .move, id, pos⟩] else [])
    pure w

def setRadiusOf (w : World) (id : EntityId) (radius : Int) : Emit Delivery World :=
  match w.entities[id]? with
  | none => pure w
  | some e =>
    if e.isPlayer then
      refresh { w with entities := w.entities.insert id { e with radius := max radius 1 } } id
    else pure w

def players (w : World) : List EntityId :=
  (w.entities.toList.filter (·.2.isPlayer)).map (·.1)

/-- Changes how far players see, those in the world and those to come. -/
def setRadius (w : World) (radius : Int) : Emit Delivery World :=
  w.players.foldlM (fun w id => w.setRadiusOf id radius) { w with radius := max radius 1 }

end World
end Fieldwatch.Interest
