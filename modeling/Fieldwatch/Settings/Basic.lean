import Fieldwatch.Field.Basic

/-! The settings of a server, and which of them can be worked with. -/

namespace Fieldwatch

structure Settings where
  sectorSize : Float32 := 10
  viewRadius : Int := 2
  playerStep : Float32 := 0.05
  npcStep : Float32 := 0.1
  maxPlayerSteps : UInt32 := 5
  maxNpcSteps : UInt32 := 3
  tickThreads : Nat := 3
  tickPeriodMs : UInt64 := 50
  queueCapacity : Nat := 4096
  sessionQueueCapacity : Nat := 256
  idleTimeout : Float32 := 0.5
  playerSpeed : Float32 := 10
  skillDamage : Int := 10
  npcRespawn : Float32 := 5
  fieldIds : List FieldId := [1000]
  npcFieldId : FieldId := 1000
  metricsPort : UInt16 := 9090
  monitorInterval : UInt64 := 5
deriving Inhabited

namespace Settings

variable (s : Settings)

def fieldConfig : FieldConfig :=
  { sectorSize := s.sectorSize, viewRadius := s.viewRadius, playerStep := s.playerStep
    npcStep := s.npcStep, maxPlayerSteps := s.maxPlayerSteps, maxNpcSteps := s.maxNpcSteps
    queueCapacity := s.queueCapacity, idleTimeout := s.idleTimeout, playerSpeed := s.playerSpeed
    skillDamage := s.skillDamage, npcRespawn := s.npcRespawn }

inductive Fault where
  | sectorSize
  | viewRadius
  | stepPeriods
  | stepCaps
  | playerSpeed
  | idleTimeout
  | npcRespawn
  | skillDamage
  | tickThreads
  | tickPeriod
  | queueCapacities
  | metricsPort
deriving DecidableEq, Inhabited

def Fault.text : Fault → String
  | .sectorSize => "sector_size must be > 0"
  | .viewRadius => "view_radius must be at least 1"
  | .stepPeriods => "step periods must be > 0"
  | .stepCaps => "catch-up step caps must be at least 1"
  | .playerSpeed => "player_speed must be > 0"
  | .idleTimeout => "idle_input_timeout_secs must be > 0"
  | .npcRespawn => "npc_respawn_secs must be > 0"
  | .skillDamage => "skill_damage cannot be negative"
  | .tickThreads => "tick_threads must be at least 1"
  | .tickPeriod => "tick_period_ms must be > 0"
  | .queueCapacities => "queue capacities must be at least 1"
  | .metricsPort => "metrics_port cannot be 0"

def isPositive (x : Float32) : Bool := x.isFinite && 0 < x

def checks : List (Bool × Fault) :=
  [(isPositive s.sectorSize, .sectorSize),
    (1 ≤ s.viewRadius, .viewRadius),
    (0 < s.playerStep && 0 < s.npcStep, .stepPeriods),
    (s.maxPlayerSteps ≠ 0 && s.maxNpcSteps ≠ 0, .stepCaps),
    (isPositive s.playerSpeed, .playerSpeed),
    (isPositive s.idleTimeout, .idleTimeout),
    (isPositive s.npcRespawn, .npcRespawn),
    (0 ≤ s.skillDamage, .skillDamage),
    (s.tickThreads ≠ 0, .tickThreads),
    (s.tickPeriodMs ≠ 0, .tickPeriod),
    (s.queueCapacity ≠ 0 && s.sessionQueueCapacity ≠ 0, .queueCapacities),
    (s.metricsPort ≠ 0, .metricsPort)]

def fault? : Option Fault := (s.checks.find? (!·.1)).map (·.2)

end Settings
end Fieldwatch
