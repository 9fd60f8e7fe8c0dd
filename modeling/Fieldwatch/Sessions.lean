import Fieldwatch.Effect

/-! The connections of players. Each session has a queue of bounded length for the events on their
way to its player; a directory says which session is the current one of a player. -/

namespace Fieldwatch

/-- Sessions are numbered in the order in which they were opened. -/
abbrev SessionId := Nat

structure Session where
  player : EntityId
  capacity : Nat
  queue : List Event := []
  connected : Bool := true

inductive DeliveryError where
  | notFound
  | full
  | closed
deriving DecidableEq, Inhabited

def DeliveryError.message : DeliveryError → String
  | .notFound => "no session for player"
  | .full => "session outbound queue is full"
  | .closed => "session is closed"

namespace Session

variable (s : Session)

def pending : Nat := s.queue.length

def deliver (e : Event) : Except DeliveryError Session :=
  if !s.connected then .error .closed
  else if s.capacity ≤ s.queue.length then .error .full
  else .ok { s with queue := s.queue ++ [e] }

def drain (n : Nat) : List Event × Session :=
  if s.connected then (s.queue.take n, { s with queue := s.queue.drop n }) else ([], s)

end Session

structure Sessions where
  opened : Std.ExtTreeMap SessionId Session := ∅
  current : IdMap SessionId := ∅

namespace Sessions

variable (d : Sessions)

def connect (player : EntityId) (capacity : Nat) : SessionId × Sessions :=
  let id := d.opened.size
  (id, { d with opened := d.opened.insert id { player := player, capacity := max capacity 1 } })

def size : Nat := d.current.size

def find? (player : EntityId) : Option Session := do d.opened[← d.current[player]?]?

def register (id : SessionId) : Sessions :=
  match d.opened[id]? with
  | none => d
  | some s => { d with current := d.current.insert s.player id }

def unregister (player : EntityId) : Sessions := { d with current := d.current.erase player }

def disconnect (id : SessionId) : Sessions :=
  { d with opened := d.opened.modify id fun s => { s with connected := false } }

def drain (id : SessionId) (n : Nat) : List Event × Sessions :=
  match d.opened[id]? with
  | none => ([], d)
  | some s =>
    let (events, s) := s.drain n
    (events, { d with opened := d.opened.insert id s })

def deliverTo (id : SessionId) (e : Event) : Except DeliveryError Sessions :=
  match d.opened[id]? with
  | none => .error .notFound
  | some s => (s.deliver e).map fun s => { d with opened := d.opened.insert id s }

def deliver (player : EntityId) (e : Event) : Except DeliveryError Sessions :=
  match d.current[player]? with
  | none => .error .notFound
  | some id => d.deliverTo id e

/-- Queues an event for a player and counts what became of it. A player without a session is
nothing unusual. -/
def send (player : EntityId) (e : Event) : Effects Sessions :=
  match d.deliver player e with
  | .ok d' => do Fieldwatch.emit [.raise .eventsDelivered 1]; pure d'
  | .error .notFound => pure d
  | .error _ => do Fieldwatch.emit [.raise .eventsDropped 1]; pure d

end Sessions
end Fieldwatch
