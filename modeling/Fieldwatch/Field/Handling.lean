import Fieldwatch.Field.Step
import Fieldwatch.Number.Shortest

/-! The messages a field handles, one at a time. A payload that is no command is counted and
dropped. -/

namespace Fieldwatch

inductive Ending where
  | completed
  | panicked (reason : String)
deriving DecidableEq, Inhabited

/-- Work done on a field in place of a message of its own. -/
abbrev Job (β : Type) := Field β → Effects (Field β × Ending)

inductive Message (β : Type) where
  | envelope (session : EntityId) (payload : Bytes)
  | enter (newcomer : Newcomer)
  | leave (player : EntityId)
  | move (session : EntityId) (payload : Bytes)
  | skill (session : EntityId) (payload : Bytes)
  | tick (dt : Float32)
  | viewRadius (radius : Int)
  | job (job : Job β)

namespace Message

variable {β : Type}

def kind : Message β → String
  | .envelope .. => "net_envelope"
  | .enter .. => "enter_field"
  | .leave .. => "leave_field"
  | .move .. => "move_input"
  | .skill .. => "skill_cmd"
  | .tick .. => "tick"
  | .viewRadius .. => "set_view_radius"
  | .job .. => "exec"

def record (name : String) (fields : List (String × String)) : String :=
  name ++ " \x7b " ++ ", ".intercalate (fields.map fun (k, v) => k ++ ": " ++ v) ++ " \x7d"

def describe (m : Message β) : String :=
  match m with
  | .envelope session payload | .move session payload | .skill session payload =>
    record m.kind [("player_id", toString session), ("payload_len", toString payload.length)]
  | .enter n => record m.kind [("player_id", toString n.id)]
  | .leave player => record m.kind [("player_id", toString player)]
  | .tick dt => record m.kind [("dt", Shortest.text dt)]
  | .viewRadius radius => record m.kind [("radius", toString radius)]
  | .job _ => m.kind

end Message

namespace Field

variable {β : Type}

def onDecoded {γ : Type} (f : Field β) (act : γ → Effects (Field β)) :
    Except DecodeError γ → Effects (Field β)
  | .ok c => act c
  | .error _ => do emit [.raise .messagesMalformed 1]; pure f

def onCommand (f : Field β) (session : EntityId) : Envelope → Effects (Field β)
  | .move c => pure (f.onMove session c)
  | .skill c => f.onSkill session c.target
  | .leave => f.removePlayer session

def handle (f : Field β) : Message β → Effects (Field β × Ending)
  | .envelope session payload => done (f.onDecoded (f.onCommand session) (Envelope.decode payload))
  | .enter n => done (f.addPlayer n)
  | .leave player => done (f.removePlayer player)
  | .move session payload =>
    done (f.onDecoded (fun c => pure (f.onMove session c)) (MoveCommand.decode payload))
  | .skill session payload =>
    done (f.onDecoded (fun c => f.onSkill session c.target) (SkillCommand.decode payload))
  | .tick dt => done (f.tick dt)
  | .viewRadius radius => done (f.setViewRadius radius)
  | .job job => job f
where
  done (r : Effects (Field β)) : Effects (Field β × Ending) := (·, .completed) <$> r

end Field
end Fieldwatch
