import Fieldwatch.Geometry
import Fieldwatch.Identity

/-! What a client can ask of its field, as bytes. Every number has a fixed size and is written with
its low byte first; a kind is a number of four bytes. What follows a complete command is ignored. -/

namespace Fieldwatch

abbrev Bytes := List UInt8

/-- A wish to go into a direction. The direction is kept as the two single-precision bit patterns
that were sent. -/
structure MoveCommand where
  entity : EntityId
  dirX : UInt32
  dirY : UInt32
deriving DecidableEq, Inhabited

def MoveCommand.dir (c : MoveCommand) : Vec2 := ⟨.ofBits c.dirX, .ofBits c.dirY⟩

structure SkillCommand where
  skill : UInt8
  target : EntityId
deriving DecidableEq, Inhabited

inductive Envelope where
  | move (c : MoveCommand)
  | skill (c : SkillCommand)
  | leave
deriving DecidableEq, Inhabited

inductive DecodeError where
  | unexpectedEnd (missing : Nat)
  | unknownKind (kind : Nat)
deriving DecidableEq, Inhabited

def DecodeError.message : DecodeError → String
  | .unexpectedEnd missing => s!"Codec error: UnexpectedEnd \x7b additional: {missing} \x7d"
  | .unknownKind kind =>
    s!"Codec error: OtherString(\"invalid value: integer `{kind}`, expected variant index 0 <= i < 3\")"

namespace Bytes

/-- The low `n` bytes of a number, lowest first. -/
def ofNat : (n : Nat) → Nat → Bytes
  | 0, _ => []
  | n + 1, v => UInt8.ofNat v :: ofNat n (v / 256)

def toNat : Bytes → Nat
  | [] => 0
  | b :: rest => b.toNat + 256 * toNat rest

def read (n : Nat) (bs : Bytes) : Except DecodeError (Nat × Bytes) :=
  if bs.length < n then .error (.unexpectedEnd (n - bs.length))
  else .ok (toNat (bs.take n), bs.drop n)

end Bytes

namespace MoveCommand

def encode (c : MoveCommand) : Bytes :=
  Bytes.ofNat 8 c.entity.toNat ++ Bytes.ofNat 4 c.dirX.toNat ++ Bytes.ofNat 4 c.dirY.toNat

def decode (bs : Bytes) : Except DecodeError MoveCommand := do
  let (entity, bs) ← bs.read 8
  let (dirX, bs) ← bs.read 4
  let (dirY, _) ← bs.read 4
  return ⟨entity.toUInt64, dirX.toUInt32, dirY.toUInt32⟩

end MoveCommand

namespace SkillCommand

def encode (c : SkillCommand) : Bytes := Bytes.ofNat 1 c.skill.toNat ++ Bytes.ofNat 8 c.target.toNat

def decode (bs : Bytes) : Except DecodeError SkillCommand := do
  let (skill, bs) ← bs.read 1
  let (target, _) ← bs.read 8
  return ⟨skill.toUInt8, target.toUInt64⟩

end SkillCommand

namespace Envelope

def encode : Envelope → Bytes
  | .move c => Bytes.ofNat 4 0 ++ c.encode
  | .skill c => Bytes.ofNat 4 1 ++ c.encode
  | .leave => Bytes.ofNat 4 2

def decode (bs : Bytes) : Except DecodeError Envelope := do
  let (kind, bs) ← bs.read 4
  match kind with
  | 0 => return .move (← MoveCommand.decode bs)
  | 1 => return .skill (← SkillCommand.decode bs)
  | 2 => return .leave
  | kind => throw (.unknownKind kind)

end Envelope
end Fieldwatch
