import Fieldwatch.Proofs.Npc.Numbering
import Mathlib.Data.List.Forall2

/-! A step of a whole herd. What the brain decides for one monster and remembers for the next is of
no concern here: each live monster follows some intent, each dead one waits, and the outcomes come
monster by monster. -/

namespace Fieldwatch

def NpcOutcome.subject : NpcOutcome → EntityId
  | .activity id _ | .moved id _ | .attacked id _ _ | .respawned id _ => id

namespace Npc

variable {n : Npc} {m : Npc × List NpcOutcome} {view : PlayerView} {step : Float32}

def Stepped (view : PlayerView) (step : Float32) (n : Npc) (m : Npc × List NpcOutcome) : Prop :=
  (n.isAlive ∧ ∃ i : Intent, m = n.liveStep view step (n.act view i)) ∨
    (¬ n.isAlive ∧ m = n.deadStep step)

theorem Stepped.id_eq (h : n.Stepped view step m) : m.1.id = n.id := by
  rcases h with ⟨-, i, rfl⟩ | ⟨-, rfl⟩
  · exact id_liveStep _ _ _ _
  · exact id_deadStep _ _

theorem Stepped.template_eq (h : n.Stepped view step m) : m.1.template = n.template := by
  rcases h with ⟨-, i, rfl⟩ | ⟨-, rfl⟩
  · exact template_liveStep _ _ _ _
  · exact template_deadStep _ _

theorem subject_liveStep (a : Action) :
    ∀ o ∈ (n.liveStep view step a).2, o.subject = n.id := by
  intro o ho
  simp only [liveStep, List.mem_append, List.mem_map] at ho
  rcases ho with (ho | ho) | ⟨t, -, rfl⟩
  · split at ho
    · cases ho
    · rw [List.mem_singleton.1 ho]
      rfl
  · split at ho
    · rw [List.mem_singleton.1 ho]
      rfl
    · cases ho
  · rfl

theorem subject_deadStep : ∀ o ∈ (n.deadStep step).2, o.subject = n.id := by
  intro o ho
  unfold deadStep at ho
  split at ho
  · dsimp only at ho
    split at ho
    · cases ho
    · rw [List.mem_singleton.1 ho]
      rfl
  · cases ho

theorem Stepped.subject_eq (h : n.Stepped view step m) : ∀ o ∈ m.2, o.subject = n.id := by
  rcases h with ⟨-, i, rfl⟩ | ⟨-, rfl⟩
  · exact subject_liveStep _
  · exact subject_deadStep

end Npc

namespace Herd

variable {β : Type} (brain : Brain β) (view : PlayerView) (step : Float32)

theorem stepAll_spec (mind : β) (l : List Npc) :
    ∃ ms, List.Forall₂ (Npc.Stepped view step) l ms ∧
      (stepAll brain view step mind l).2 = (ms.map Prod.fst, ms.flatMap Prod.snd) := by
  induction l generalizing mind with
  | nil => exact ⟨[], .nil, rfl⟩
  | cons n l ih =>
    by_cases ha : n.isAlive
    · obtain ⟨ms, hms, he⟩ := ih (brain.think mind n view).2
      refine ⟨_ :: ms, .cons (.inl ⟨ha, (brain.think mind n view).1, rfl⟩) hms, ?_⟩
      simp [stepAll, ha, he]
    · obtain ⟨ms, hms, he⟩ := ih mind
      refine ⟨_ :: ms, .cons (.inr ⟨ha, rfl⟩) hms, ?_⟩
      simp [stepAll, ha, he]

theorem ids_of_stepped {l : List Npc} {ms : List (Npc × List NpcOutcome)}
    (h : List.Forall₂ (Npc.Stepped view step) l ms) :
    (ms.map Prod.fst).map Npc.id = l.map Npc.id := by
  induction h with
  | nil => rfl
  | cons hn _ ih => rw [List.map_cons, List.map_cons, List.map_cons, ih, hn.id_eq]

theorem exists_of_stepped {l : List Npc} {ms : List (Npc × List NpcOutcome)}
    (h : List.Forall₂ (Npc.Stepped view step) l ms) {m : Npc × List NpcOutcome} (hm : m ∈ ms) :
    ∃ n ∈ l, n.Stepped view step m := by
  induction h with
  | nil => cases hm
  | cons hn _ ih =>
    rcases List.mem_cons.1 hm with rfl | hm
    · exact ⟨_, List.mem_cons_self, hn⟩
    · obtain ⟨n, hl, hs⟩ := ih hm
      exact ⟨n, List.mem_cons_of_mem _ hl, hs⟩

theorem subject_stepped {l : List Npc} {ms : List (Npc × List NpcOutcome)}
    (h : List.Forall₂ (Npc.Stepped view step) l ms) {o : NpcOutcome}
    (ho : o ∈ ms.flatMap Prod.snd) : o.subject ∈ l.map Npc.id := by
  obtain ⟨m, hm, ho⟩ := List.mem_flatMap.1 ho
  obtain ⟨n, hn, hs⟩ := exists_of_stepped view step h hm
  rw [hs.subject_eq o ho]
  exact List.mem_map_of_mem hn

theorem stepped_at {l : List Npc} {ms : List (Npc × List NpcOutcome)}
    (h : List.Forall₂ (Npc.Stepped view step) l ms) (hd : (l.map Npc.id).Nodup) (j : EntityId) :
    (l.find? (·.id = j) = none ∧ (ms.map Prod.fst).find? (·.id = j) = none ∧
        (ms.flatMap Prod.snd).filter (·.subject = j) = []) ∨
      ∃ n m, n.Stepped view step m ∧ l.find? (·.id = j) = some n ∧
        (ms.map Prod.fst).find? (·.id = j) = some m.1 ∧
        (ms.flatMap Prod.snd).filter (·.subject = j) = m.2 := by
  -- by induction over the herd: `j` is its first monster or one of the others
  induction h with
  | nil => exact .inl ⟨rfl, rfl, rfl⟩
  | @cons n m l ms hn hms ih =>
    rw [List.map_cons, List.nodup_cons] at hd
    rw [List.flatMap_cons, List.filter_append, List.map_cons]
    by_cases hj : n.id = j
    · subst hj
      have hm : m.2.filter (·.subject = n.id) = m.2 :=
        List.filter_eq_self.2 fun o ho => by simpa using hn.subject_eq o ho
      have hrest : (ms.flatMap Prod.snd).filter (·.subject = n.id) = [] := by
        refine List.filter_eq_nil_iff.2 fun o ho he => hd.1 ?_
        rw [← of_decide_eq_true he]
        exact subject_stepped view step hms ho
      rw [hm, hrest, List.append_nil, List.find?_cons_of_pos (by simp),
        List.find?_cons_of_pos (by simpa using hn.id_eq)]
      exact .inr ⟨n, m, hn, rfl, rfl, rfl⟩
    · have hm : m.2.filter (·.subject = j) = [] :=
        List.filter_eq_nil_iff.2 fun o ho => by simpa [hn.subject_eq o ho] using hj
      rw [hm, List.nil_append, List.find?_cons_of_neg (by simpa using hj),
        List.find?_cons_of_neg (by simpa [hn.id_eq] using hj)]
      exact ih hd.2

theorem step_spec (h : Herd) (mind : β) :
    ∃ ms, List.Forall₂ (Npc.Stepped view step) h.members ms ∧
      (h.step brain mind view step).1.members = ms.map Prod.fst ∧
      (h.step brain mind view step).2.2 = ms.flatMap Prod.snd := by
  obtain ⟨ms, hms, he⟩ := stepAll_spec brain view step mind h.members
  exact ⟨ms, hms, congrArg Prod.fst he, congrArg Prod.snd he⟩

theorem step_at (h : Herd) (hd : (h.members.map Npc.id).Nodup) (mind : β) (j : EntityId) :
    (h.get? j = none ∧ (h.step brain mind view step).1.get? j = none ∧
        (h.step brain mind view step).2.2.filter (·.subject = j) = []) ∨
      ∃ n m, n.Stepped view step m ∧ h.get? j = some n ∧
        (h.step brain mind view step).1.get? j = some m.1 ∧
        (h.step brain mind view step).2.2.filter (·.subject = j) = m.2 := by
  obtain ⟨ms, hms, hg, ho⟩ := step_spec brain view step h mind
  rw [get?, get?, hg, ho]
  exact stepped_at view step hms hd j

theorem same_step (h : Herd) (mind : β) : h.Same (h.step brain mind view step).1 := by
  obtain ⟨ms, hms, he, -⟩ := step_spec brain view step h mind
  refine ⟨by rw [he, ids_of_stepped view step hms], ?_⟩
  intro k hk
  rw [he] at hk
  obtain ⟨m, hm, rfl⟩ := List.mem_map.1 hk
  obtain ⟨n, hn, hs⟩ := exists_of_stepped view step hms hm
  exact ⟨n, hn, hs.template_eq⟩

end Herd
end Fieldwatch
