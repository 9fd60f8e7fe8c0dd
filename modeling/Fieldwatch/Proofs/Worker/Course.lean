import Fieldwatch.Proofs.Worker.Tenure

/-! The course that a worker takes: what a step leaves as it is, and what is final. A stop that has
begun never gives way to anything else, and the worker takes no message from then on. -/

namespace Fieldwatch

variable {κ β : Type}

namespace Tenure

variable [DecidableEq κ] {P : Message β → Prop} {inside : κ → Prop} {s t : Tenure κ β}
  {l : List Effect}

theorem Sound.started (h : s.Sound P) (hs : s.spawned ≠ 0) : s.worker.loop ≠ .unstarted := by
  intro hu
  rcases h.begun with ⟨-, hzero⟩ | ⟨hne, -⟩
  · exact hs hzero
  · exact hne hu

theorem Step.spawned_le (hst : Step P inside s l t) : s.spawned ≤ t.spawned := by
  cases hst with
  | start => exact Nat.le_add_right _ _
  | push | callStart | callStop | close | post | postWithin | join | retire | settle | receive
  | finish => exact Nat.le_refl _

theorem Step.id_eq (hst : Step P inside s l t) : t.id = s.id := by
  cases hst with
  | push | callStart | callStop | start | close | post | postWithin | join | retire | settle
  | receive | finish => rfl

theorem Sound.spawned_le (h : s.Sound P) : s.spawned ≤ 1 := by
  rcases h.begun with ⟨-, hs⟩ | ⟨-, hs⟩ <;> omega

theorem Reaches.spawned_le (hst : Reaches P inside s t) : s.spawned ≤ t.spawned := by
  induction hst with
  | refl => exact Nat.le_refl _
  | tail _ hst ih =>
    obtain ⟨l, hst⟩ := hst
    exact Nat.le_trans ih hst.spawned_le

theorem Step.stage_eq_or_next (hst : Step P inside s l t) :
    t.worker.stage = s.worker.stage ∨ Stage.Next s.worker.stage t.worker.stage := by
  cases hst with
  | start => exact s.worker.stage_start
  | close => exact s.worker.stage_close
  | retire => exact s.worker.stage_retire
  | push => exact .inl (s.worker.stage_push _)
  | post | postWithin => exact .inl s.worker.stage_postShutdown
  | receive => exact .inl s.worker.stage_receive
  | finish => exact .inl s.worker.stage_finish
  | callStart | callStop | join | settle => exact .inl rfl

/-- A stop that has begun is final, and no loop is spawned after it. -/
theorem Step.late (hst : Step P inside s l t)
    (hs : s.worker.stage = .stopping ∨ s.worker.stage = .stopped) :
    (t.worker.stage = .stopping ∨ t.worker.stage = .stopped) ∧ t.spawned = s.spawned := by
  constructor
  · rcases hst.stage_eq_or_next with heq | hnext
    · rwa [heq]
    · exact .inr (hnext.eq_stopped hs)
  · cases hst with
    | start =>
      have hne : s.worker.stage ≠ .created := fun hc => by
        rcases hs with hs | hs <;> cases hc.symm.trans hs
      rw [start_of_ne hne]
      rfl
    | push | callStart | callStop | close | post | postWithin | join | retire | settle | receive
    | finish => rfl

theorem Reaches.late (hst : Reaches P inside s t)
    (hs : s.worker.stage = .stopping ∨ s.worker.stage = .stopped) :
    (t.worker.stage = .stopping ∨ t.worker.stage = .stopped) ∧ t.spawned = s.spawned := by
  induction hst with
  | refl => exact ⟨hs, rfl⟩
  | tail _ hst ih =>
    obtain ⟨l, hst⟩ := hst
    obtain ⟨hlate, hspawned⟩ := hst.late ih.1
    exact ⟨hlate, hspawned.trans ih.2⟩

theorem Sound.push_of_late (h : s.Sound P)
    (hs : s.worker.stage = .stopping ∨ s.worker.stage = .stopped) (m : Message β) :
    (s.worker.push m).value = (.error .stopped, s.worker) :=
  Worker.push_of_closed (h.coherent.closed_iff.2 hs) m

theorem Sound.settled_of_quiet (h : s.Sound P) (hq : ∀ k, s.calls k = none) :
    s.worker.stage ≠ .stopping ∧ (s.worker.stage = .stopped ↔ s.asked = true) ∧
      ∀ m, ((s.worker.push m).value.1 = .error .stopped ↔ s.worker.stage = .stopped) := by
  have hstopping : s.worker.stage ≠ .stopping := by
    intro hs
    have horderly := h.ruled.orderly
    rw [hs] at horderly
    obtain ⟨k, hk⟩ := horderly.exists_of_stopping
    rw [Function.comp_apply, hq k] at hk
    cases hk
  refine ⟨hstopping, ⟨fun hs => ?_, fun ha => ?_⟩, fun m => ?_⟩
  · rw [← Bool.not_eq_false]
    intro ha
    rcases (h.ruled.unasked ha).1 with hg | hg <;> cases hg.symm.trans hs
  · rcases h.ruled.answered ha with hs | ⟨k, c, hk, -⟩
    · exact hs
    · cases (hq k).symm.trans hk
  · have hclosed : s.worker.closed = true ↔ s.worker.stage = .stopped := by
      rw [h.coherent.closed_iff, or_iff_right hstopping]
    rw [← hclosed]
    rcases hc : s.worker.closed with _ | _
    · rcases hf : s.worker.isFull with _ | _
      · simp [Worker.push_of_room hc hf]
      · simp [Worker.push_of_full hc hf]
    · simp [Worker.push_of_closed hc]

theorem Step.asked_eq (hst : Step P inside s l t) (hd : ∀ k, s.calls k = none → t.calls k = none) :
    t.asked = s.asked := by
  cases hst with
  | @callStop k hk =>
    have hcall : Function.update s.calls k (some Call.stop) k = none := hd k hk
    rw [Function.update_self] at hcall
    cases hcall
  | push | callStart | start | close | post | postWithin | join | retire | settle | receive
  | finish => rfl

theorem Sound.running_of_unasked (h : s.Sound P) (ha : s.asked = false) (hs : s.spawned ≠ 0) :
    s.worker.stage = .running := by
  rcases (h.ruled.unasked ha).1 with hg | hg
  · exact (h.started hs (h.coherent.unstarted hg)).elim
  · exact hg

end Tenure
end Fieldwatch
