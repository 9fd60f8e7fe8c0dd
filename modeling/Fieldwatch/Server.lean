import Fieldwatch.Schedule
import Fieldwatch.Sessions

/-! A server: its fields, the connections of its players, its counters and its schedule. What the
fields do outside of themselves is carried out here. -/

namespace Fieldwatch

inductive Outlet where
  | sessions
  | nowhere
deriving DecidableEq, Inhabited

structure Server where
  roster : Roster
  provide : FieldId → Outlet := fun _ => .sessions
  outlets : Std.ExtTreeMap FieldId Outlet := ∅
  sessions : Sessions := {}
  counters : Counters := {}
  schedule : Option Schedule := none
  /-- How far time has come, in nanoseconds. -/
  clock : Nat := 0

namespace Server

def create (config : FieldConfig) (npcField : FieldId) (provide : FieldId → Outlet) : Server :=
  { roster := { config := config, npcField := npcField }, provide := provide }

def deliver (s : Server) (n : Notice) : Server :=
  let sent := s.sessions.send n.receiver n.event
  { s with sessions := sent.value, counters := sent.log.foldl (Counters.apply 0) s.counters }

def perform (s : Server) : Happening → Server
  | .opened field => { s with outlets := s.outlets.insert field (s.provide field) }
  | .effect field (.notify n) =>
    match s.outlets[field]? with
    | some .sessions => s.deliver n
    | _ => s
  | .effect _ e => { s with counters := s.counters.apply 0 e }

def changing {α : Type} (s : Server) (op : Roster → Happenings (α × Roster)) : α × Server :=
  let r := op s.roster
  (r.value.1, r.log.foldl perform { s with roster := r.value.2 })

def change (s : Server) (op : Roster → Happenings Roster) : Server :=
  let r := op s.roster
  r.log.foldl perform { s with roster := r.value }

def createField (s : Server) (id : FieldId) (enum : Enumeration := .byId) : Server :=
  s.change (·.create id enum)

def post (s : Server) (id : FieldId) (m : Message Unit) : Bool × Server := s.changing (·.post id m)

def run (s : Server) : Server := s.change (·.run)

def stopField (s : Server) (id : FieldId) : Server := s.change (·.stopField id)

def stopAll (s : Server) : Server := s.change (·.stopAll)

def reschedule (s : Server) (threads period : Nat) : Server :=
  { s with schedule := some (Schedule.create threads period) }

def isTicking (s : Server) : Bool := s.schedule.any (·.isRunning)

def startSchedule (s : Server) : Server :=
  { s with schedule := s.schedule.map (·.start s.clock) }

def stopSchedule (s : Server) : Server := { s with schedule := s.schedule.map (·.stop) }

def waitPeriod (s : Server) : Server :=
  match s.schedule with
  | none => s
  | some schedule =>
    let now := s.clock + schedule.period
    let (schedule, s) := s.changing (schedule.wakeAll now)
    { s with schedule := some schedule, clock := now }

end Server
end Fieldwatch
