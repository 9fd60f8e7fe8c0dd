import Fieldwatch.Number.Reading
import Fieldwatch.Settings.Basic

/-! Settings taken from environment variables. A variable whose text is no acceptable value is left
out of account, and so is one that is not set. -/

namespace Fieldwatch.Settings

abbrev Environment := String → Option String

namespace Environment

variable {α : Type} (env : Environment)

/-- The value of a variable: what `read` makes of its text without the blanks around it, if that
passes the test `accept`. -/
def value? (name : String) (read : List Char → Option α) (accept : α → Bool) : Option α := do
  ((← env name) |> String.toList |> Reading.trim |> read).filter accept

def positive? (name : String) : Option Float32 := env.value? name Reading.float? isPositive

def natural? (name : String) (low bound : Nat) : Option Nat :=
  env.value? name (Reading.natural? bound) (low ≤ ·)

def items : List Char → List (List Char)
  | [] => [[]]
  | ',' :: cs => [] :: items cs
  | c :: cs =>
    match items cs with
    | [] => [[c]]
    | i :: is => (c :: i) :: is

/-- A list of field ids, at least one. Items of nothing but blanks do not count; any other that is
no field id makes the whole list unacceptable. -/
def fieldIds? (name : String) : Option (List FieldId) := do
  let texts := ((items (← env name).toList).map Reading.trim).filter (!·.isEmpty)
  let ids ← texts.mapM (Reading.natural? UInt32.size)
  if ids.isEmpty then none else some (ids.map (·.toUInt32))

end Environment

def override (s : Settings) (env : Environment) : Settings :=
  { s with
    sectorSize := (env.positive? "SECTOR_SIZE").getD s.sectorSize
    viewRadius :=
      (env.value? "VIEW_RADIUS" (Reading.integer? (UInt32.size / 2)) (1 ≤ ·)).getD s.viewRadius
    playerStep := (env.positive? "PLAYER_STEP_SECS").getD s.playerStep
    npcStep := (env.positive? "NPC_STEP_SECS").getD s.npcStep
    tickThreads := (env.natural? "TICK_THREADS" 1 65).getD s.tickThreads
    tickPeriodMs :=
      ((env.natural? "TICK_PERIOD_MS" 1 UInt64.size).map (·.toUInt64)).getD s.tickPeriodMs
    queueCapacity := (env.natural? "FIELD_QUEUE_CAPACITY" 1 UInt64.size).getD s.queueCapacity
    sessionQueueCapacity :=
      (env.natural? "SESSION_QUEUE_CAPACITY" 1 UInt64.size).getD s.sessionQueueCapacity
    npcFieldId := ((env.natural? "NPC_FIELD_ID" 0 UInt32.size).map (·.toUInt32)).getD s.npcFieldId
    metricsPort := ((env.natural? "METRICS_PORT" 1 UInt16.size).map (·.toUInt16)).getD s.metricsPort
    monitorInterval :=
      ((env.natural? "MONITOR_INTERVAL_SECS" 0 UInt64.size).map (·.toUInt64)).getD s.monitorInterval
    fieldIds := (env.fieldIds? "FIELD_IDS").getD s.fieldIds }

end Fieldwatch.Settings
