import Fieldwatch.Json.Reader
import Fieldwatch.Number.Binary
import Fieldwatch.Settings.Environment

/-! Settings taken from a JSON document: an object with some of the settings under their names, or
an array with the first of them in the order of this module. What is not given keeps its default. -/

namespace Fieldwatch.Settings

namespace Document

def float? : Json → Option Float32
  | .number n => do
    match ← n.quantity? with
    | .natural n => some n.toFloat32
    | .negative n => some (-n.toFloat32)
    | .real x => some (Binary.narrow x)
  | _ => none

def natural? (bound : Nat) : Json → Option Nat
  | .number n => do
    match ← n.quantity? with
    | .natural n => if n.toNat < bound then some n.toNat else none
    | _ => none
  | _ => none

def integer? (bound : Nat) : Json → Option Int
  | .number n => do
    match ← n.quantity? with
    | .natural n => if n.toNat < bound then some n.toNat else none
    | .negative n => if n.toNat ≤ bound then some (-n.toNat) else none
    | _ => none
  | _ => none

def fieldIds? : Json → Option (List FieldId)
  | .array items => (items.mapM (natural? UInt32.size)).map (·.map (·.toUInt32))
  | _ => none

end Document

open Document

structure Slot where
  key : String
  put : Settings → Json → Option Settings

/-- All settings, in the order in which an array gives them. -/
def slots : List Slot :=
  [⟨"sector_size", fun s j => (float? j).map ({ s with sectorSize := · })⟩,
    ⟨"view_radius", fun s j => (integer? (UInt32.size / 2) j).map ({ s with viewRadius := · })⟩,
    ⟨"player_step_secs", fun s j => (float? j).map ({ s with playerStep := · })⟩,
    ⟨"npc_step_secs", fun s j => (float? j).map ({ s with npcStep := · })⟩,
    ⟨"max_player_steps", fun s j =>
      (natural? UInt32.size j).map ({ s with maxPlayerSteps := ·.toUInt32 })⟩,
    ⟨"max_npc_steps", fun s j => (natural? UInt32.size j).map ({ s with maxNpcSteps := ·.toUInt32 })⟩,
    ⟨"tick_threads", fun s j => (natural? UInt64.size j).map ({ s with tickThreads := · })⟩,
    ⟨"tick_period_ms", fun s j =>
      (natural? UInt64.size j).map ({ s with tickPeriodMs := ·.toUInt64 })⟩,
    ⟨"queue_capacity", fun s j => (natural? UInt64.size j).map ({ s with queueCapacity := · })⟩,
    ⟨"session_queue_capacity", fun s j =>
      (natural? UInt64.size j).map ({ s with sessionQueueCapacity := · })⟩,
    ⟨"idle_input_timeout_secs", fun s j => (float? j).map ({ s with idleTimeout := · })⟩,
    ⟨"player_speed", fun s j => (float? j).map ({ s with playerSpeed := · })⟩,
    ⟨"skill_damage", fun s j => (integer? (UInt32.size / 2) j).map ({ s with skillDamage := · })⟩,
    ⟨"npc_respawn_secs", fun s j => (float? j).map ({ s with npcRespawn := · })⟩,
    ⟨"field_ids", fun s j => (fieldIds? j).map ({ s with fieldIds := · })⟩,
    ⟨"npc_field_id", fun s j => (natural? UInt32.size j).map ({ s with npcFieldId := ·.toUInt32 })⟩,
    ⟨"metrics_port", fun s j => (natural? UInt16.size j).map ({ s with metricsPort := ·.toUInt16 })⟩,
    ⟨"monitor_interval_secs", fun s j =>
      (natural? UInt64.size j).map ({ s with monitorInterval := ·.toUInt64 })⟩]

/-- Takes over the members of an object. Members under other names are passed over; a setting that
is given twice, or under `used` already, is refused. -/
def ofMembers (s : Settings) (used : List String) :
    List (Option String × Json) → Option Settings
  | [] => some s
  | (none, _) :: _ => none
  | (some key, j) :: rest =>
    match slots.find? (·.key = key) with
    | none => ofMembers s used rest
    | some slot =>
      if key ∈ used then none
      else do ofMembers (← slot.put s j) (key :: used) rest

def ofItems (s : Settings) : List Slot → List Json → Option Settings
  | _, [] => some s
  | [], _ :: _ => none
  | slot :: slots, j :: rest => do ofItems (← slot.put s j) slots rest

def ofJson? : Json → Option Settings
  | .object members => ofMembers {} [] members
  | .array items => ofItems {} slots items
  | _ => none

inductive Source where
  | nothing
  | directory
  | file (contents : ByteArray)

inductive SourceError where
  | notFound
  | isDirectory
  | notText
  | malformed
deriving DecidableEq, Inhabited

def SourceError.reason? : SourceError → Option String
  | .notFound => some "No such file or directory (os error 2)"
  | .isDirectory => some "Is a directory (os error 21)"
  | .notText => some "stream did not contain valid UTF-8"
  | .malformed => none

def ofSource : Source → Except SourceError Settings
  | .nothing => .error .notFound
  | .directory => .error .isDirectory
  | .file contents =>
    match String.fromUTF8? contents with
    | none => .error .notText
    | some text =>
      match (Json.read? text).bind ofJson? with
      | none => .error .malformed
      | some s => .ok s

/-- The settings of a server: those of the source, if one is given and holds any, or else the
defaults, and over them those of the environment. -/
def load (source : Option Source) (env : Environment) : Settings :=
  let base := match source.map ofSource with
    | some (.ok s) => s
    | _ => {}
  base.override env

end Fieldwatch.Settings
