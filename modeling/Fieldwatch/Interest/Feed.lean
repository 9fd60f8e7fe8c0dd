import Fieldwatch.Effect
import Fieldwatch.Interest.Audience
import Fieldwatch.Interest.World

/-! The world of a field together with the index of who sees whom, which is fed by nothing but the
world's announcements. Until the feed goes live nothing is sent to players. -/

namespace Fieldwatch.Interest

structure Feed where
  world : World
  index : Audience := {}
  live : Bool := false

namespace Feed

def empty (size : Float32) (radius : Int) : Feed := { world := World.empty size radius }

/-- Counts the deliveries, notes them in the index and, on a live feed, sends them. -/
def deliver (f : Feed) (ds : List Delivery) : Effects Feed :=
  let counted := if ds.isEmpty then [] else [Effect.raise .aoiEvents ds.length.toUInt64]
  { value :=
      { f with index := ds.foldl (fun x d => x.observe d.watcher d.sighting) f.index }
    log := counted ++ if f.live then ds.map fun d => send d.watcher (.sighting d.sighting) else [] }

def change (f : Feed) (op : World → Emit Delivery World) : Effects Feed :=
  let r := op f.world
  deliver { f with world := r.value } r.log

def remove (f : Feed) (id : EntityId) : Effects Feed := do
  let f ← f.change (·.remove id)
  pure { f with index := f.index.forget id }

/-- Puts `id` into the world. What stood there under that id is taken out first, and with it all
that the index knows about it. -/
def add (f : Feed) (id : EntityId) (isPlayer : Bool) (pos : Vec2) : Effects Feed := do
  let f ← if id ∈ f.world.entities then f.remove id else pure f
  f.change (·.add id isPlayer pos)

def move (f : Feed) (id : EntityId) (pos : Vec2) : Effects Feed := f.change (·.move id pos)

def refresh (f : Feed) (id : EntityId) : Effects Feed := f.change (·.refresh id)

def setRadiusOf (f : Feed) (id : EntityId) (radius : Int) : Effects Feed :=
  f.change (·.setRadiusOf id radius)

def setRadius (f : Feed) (radius : Int) : Effects Feed := f.change (·.setRadius radius)

def tellSelf (f : Feed) (id : EntityId) (s : Sighting) : Effects Feed := f.deliver [⟨id, s⟩]

def broadcast (f : Feed) (subject : EntityId) (event : Event) : List Effect :=
  if f.live then (f.index.of subject).map (send · event) else []

def activity (f : Feed) (subject : EntityId) (a : Activity) : List Effect :=
  f.broadcast subject (.activity subject a)

def vitals (f : Feed) (subject : EntityId) (v : Vitals) : List Effect :=
  f.broadcast subject (.vitals subject v)

def hit (f : Feed) (h : Hit) : List Effect := if f.live then [send h.target (.hit h)] else []

end Feed
end Fieldwatch.Interest
