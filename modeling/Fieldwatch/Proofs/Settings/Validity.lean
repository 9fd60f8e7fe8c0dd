import Fieldwatch.Settings.Document
import Mathlib.Tactic.Common

/-! Which settings can be worked with. -/

namespace Fieldwatch.Settings

variable {s : Settings}

theorem isPositive_iff {x : Float32} : isPositive x ↔ x.isFinite ∧ 0 < x := by
  rw [isPositive, Bool.and_eq_true, decide_eq_true_iff]

structure IsValid (s : Settings) : Prop where
  sectorSize : isPositive s.sectorSize
  viewRadius : 1 ≤ s.viewRadius
  playerStep : 0 < s.playerStep
  npcStep : 0 < s.npcStep
  maxPlayerSteps : s.maxPlayerSteps ≠ 0
  maxNpcSteps : s.maxNpcSteps ≠ 0
  playerSpeed : isPositive s.playerSpeed
  idleTimeout : isPositive s.idleTimeout
  npcRespawn : isPositive s.npcRespawn
  skillDamage : 0 ≤ s.skillDamage
  tickThreads : s.tickThreads ≠ 0
  tickPeriodMs : s.tickPeriodMs ≠ 0
  queueCapacity : s.queueCapacity ≠ 0
  sessionQueueCapacity : s.sessionQueueCapacity ≠ 0
  metricsPort : s.metricsPort ≠ 0

theorem fault?_eq_none_iff : s.fault? = none ↔ s.IsValid := by
  have hall : s.fault? = none ↔ ∀ c ∈ s.checks, c.1 = true := by
    rw [fault?, Option.map_eq_none_iff, List.find?_eq_none]
    exact forall₂_congr fun c _ => by rw [Bool.not_eq_true', Bool.not_eq_false]
  rw [hall]
  unfold checks
  simp only [List.forall_mem_cons, Bool.and_eq_true, decide_eq_true_iff]
  constructor
  · rintro ⟨h1, h2, ⟨h3, h4⟩, ⟨h5, h6⟩, h7, h8, h9, h10, h11, h12, ⟨h13, h14⟩, h15, -⟩
    exact ⟨h1, h2, h3, h4, h5, h6, h7, h8, h9, h10, h11, h12, h13, h14, h15⟩
  · rintro ⟨h1, h2, h3, h4, h5, h6, h7, h8, h9, h10, h11, h12, h13, h14, h15⟩
    exact ⟨h1, h2, ⟨h3, h4⟩, ⟨h5, h6⟩, h7, h8, h9, h10, h11, h12, ⟨h13, h14⟩, h15,
      List.forall_mem_nil _⟩

end Fieldwatch.Settings
