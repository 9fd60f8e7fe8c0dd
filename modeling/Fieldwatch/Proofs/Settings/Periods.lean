import Fieldwatch.Proofs.Field.Pacing
import Fieldwatch.Proofs.Number.Order
import Fieldwatch.Proofs.Settings.Variables

/-! The numbers of settings without a fault. All are finite and above zero but the periods of the
steps, which a document can make infinite; fields with such settings do not step. -/

namespace Fieldwatch

open Single

namespace Lag

variable {step lag : Float32} {cap : Nat}

theorem due_of_infinite (hstep : IsInfinite .positive step) (hlag : lag.isFinite) :
    due step cap lag = 0 := due_of_not_le (hstep.not_le hlag)

end Lag

namespace Pace

variable {config : FieldConfig} {dts : List Float32}

theorem finite_of_foldl_add {lag : Float32} (h : (dts.foldl (· + ·) lag).isFinite) :
    lag.isFinite := by
  induction dts generalizing lag with
  | nil => exact h
  | cons dt dts ih => exact (finite_of_add (ih h)).1

theorem steps_foldl {lag : Pace → Float32} {steps : Pace → Nat}
    (hpass : ∀ p dt, (lag p + dt).isFinite →
      lag (pass config p dt) = lag p + dt ∧ steps (pass config p dt) = steps p)
    (p : Pace) (h : (dts.foldl (· + ·) (lag p)).isFinite) :
    steps (dts.foldl (pass config) p) = steps p := by
  induction dts generalizing p with
  | nil => rfl
  | cons dt dts ih =>
    obtain ⟨hlag, hsteps⟩ := hpass p dt (finite_of_foldl_add h)
    rw [List.foldl_cons, ih _ (by rwa [hlag]), hsteps]

theorem playerSteps_foldl (hstep : IsInfinite .positive config.playerStep) (p : Pace)
    (h : (dts.foldl (· + ·) p.playerLag).isFinite) :
    (dts.foldl (pass config) p).playerSteps = p.playerSteps := by
  refine steps_foldl (fun p dt hfin => ?_) p h
  rw [pass, Lag.due_of_infinite hstep hfin]
  exact ⟨rfl, rfl⟩

theorem npcSteps_foldl (hstep : IsInfinite .positive config.npcStep) (p : Pace)
    (h : (dts.foldl (· + ·) p.npcLag).isFinite) :
    (dts.foldl (pass config) p).npcSteps = p.npcSteps := by
  refine steps_foldl (fun p dt hfin => ?_) p h
  rw [pass, Lag.due_of_infinite hstep hfin]
  exact ⟨rfl, rfl⟩

end Pace

namespace Settings

variable {s : Settings}

def IsPeriod (p : Float32) : Prop := isPositive p ∨ IsInfinite .positive p

theorem isPeriod_iff {p : Float32} : IsPeriod p ↔ 0 < p := by
  rw [IsPeriod, isPositive_iff]
  constructor
  · rintro (⟨-, h⟩ | h)
    · exact h
    · exact h.zero_lt
  · exact fun h => (finite_or_infinite_of_pos h).imp_left fun hp => ⟨hp, h⟩

theorem fault?_periods (h : s.fault? = none) (p q : Float32) :
    ({ s with playerStep := p, npcStep := q } : Settings).fault? = none ↔
      IsPeriod p ∧ IsPeriod q := by
  have hs := fault?_eq_none_iff.1 h
  rw [fault?_eq_none_iff, isPeriod_iff, isPeriod_iff]
  exact ⟨fun hpq => ⟨hpq.playerStep, hpq.npcStep⟩,
    fun hpq => { hs with playerStep := hpq.1, npcStep := hpq.2 }⟩

/-- The numbers of settings without a fault can be worked with, but for periods that may be infinite
as well. No environment brings such a period about. With it, a field runs no step as long as the
time that has passed for it is finite. -/
theorem numbers_without_fault (h : s.fault? = none) :
    (isPositive s.sectorSize ∧ isPositive s.idleTimeout ∧ isPositive s.playerSpeed ∧
      isPositive s.npcRespawn) ∧
    (IsPeriod s.playerStep ∧ IsPeriod s.npcStep) ∧
    (∀ p q, ({ s with playerStep := p, npcStep := q } : Settings).fault? = none ↔
      IsPeriod p ∧ IsPeriod q) ∧
    (∀ env, ((s.override env).playerStep = s.playerStep ∨
        isPositive (s.override env).playerStep) ∧
      ((s.override env).npcStep = s.npcStep ∨ isPositive (s.override env).npcStep)) ∧
    ∀ (β : Type) (f : Field β) (ds : List (Deed β)), f.config = s.fieldConfig →
      (∀ d ∈ ds, d.KeepsTime) →
      (IsInfinite .positive s.playerStep → ((spans ds).foldl (· + ·) f.playerLag).isFinite →
        (f.run ds).value.playerSteps = f.playerSteps) ∧
      (IsInfinite .positive s.npcStep → ((spans ds).foldl (· + ·) f.npcLag).isFinite →
        (f.run ds).value.npcSteps = f.npcSteps) := by
  have hs := fault?_eq_none_iff.1 h
  refine ⟨⟨hs.sectorSize, hs.idleTimeout, hs.playerSpeed, hs.npcRespawn⟩,
    ⟨isPeriod_iff.2 hs.playerStep, isPeriod_iff.2 hs.npcStep⟩, fault?_periods h, fun env =>
      ⟨Variable.of_override_cases .playerStep s env, Variable.of_override_cases .npcStep s env⟩,
    fun β f ds hf hd => ?_⟩
  have hpace := Field.pace_run f hd
  rw [hf] at hpace
  refine ⟨fun hstep hlag => ?_, fun hstep hlag => ?_⟩
  · have hstep' : IsInfinite .positive s.fieldConfig.playerStep := hstep
    have hsteps := Pace.playerSteps_foldl hstep' f.pace hlag
    rwa [← hpace] at hsteps
  · have hstep' : IsInfinite .positive s.fieldConfig.npcStep := hstep
    have hsteps := Pace.npcSteps_foldl hstep' f.pace hlag
    rwa [← hpace] at hsteps

theorem numbers_without_fault_endless :
    let s : Settings := { playerStep := 1 / 0 }
    let empty := Field.fresh 1 s.fieldConfig Brain.idle () .byId
    let ticks : List (Deed Unit) := [.handle (.tick 0.25), .handle (.tick 1e30)]
    s.fault? = none ∧ IsPeriod s.playerStep ∧ IsInfinite .positive s.playerStep ∧
      (empty.run ticks).value.playerSteps = 0 ∧ isPositive s.npcStep := by
  intro s empty ticks
  have hfault : s.fault? = none := by decide +kernel
  have hstep : IsInfinite .positive s.playerStep := written_infinity.infinite
  obtain ⟨-, ⟨hplayer, -⟩, -, -, hruns⟩ := numbers_without_fault hfault
  refine ⟨hfault, hplayer, hstep, (hruns Unit empty ticks rfl ?_).1 hstep ?_, by decide +kernel⟩
  · simp only [ticks, List.forall_mem_cons, Deed.KeepsTime, true_and]
    exact List.forall_mem_nil _
  · decide +kernel

/-- A document can give a period that is no number, and nothing is said against it. -/
theorem document_gives_endless_period :
    ∃ s, ofSource (.file "\x7b\"player_step_secs\": 1e39\x7d".toUTF8) = .ok s ∧
      s.fault? = none ∧ ¬ s.playerStep.isFinite := by
  have h : (ofSource (.file "\x7b\"player_step_secs\": 1e39\x7d".toUTF8)).toOption.any
      (fun s => decide (s.fault? = none) && !s.playerStep.isFinite) = true := by decide +kernel
  rcases hs : ofSource (.file "\x7b\"player_step_secs\": 1e39\x7d".toUTF8) with e | s
  · rw [hs] at h
    cases h
  · rw [hs] at h
    obtain ⟨hfault, hinfinite⟩ := Bool.and_eq_true_iff.1 h
    refine ⟨s, rfl, of_decide_eq_true hfault, fun hfin => ?_⟩
    rw [hfin] at hinfinite
    cases hinfinite

end Settings
end Fieldwatch
