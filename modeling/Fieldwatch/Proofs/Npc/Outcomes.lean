import Fieldwatch.Proofs.Npc.Lifecycle

/-! What the outcomes of a step tell of the monsters they come from. Dead ones have nothing to tell
but their comeback, and that once; live ones have everything else to tell. -/

namespace Fieldwatch

namespace Npc

variable {n : Npc} {m : Npc × List NpcOutcome} {view : PlayerView} {step : Float32} {o : NpcOutcome}

theorem mem_deadStep (ho : o ∈ (n.deadStep step).2) :
    n.deadStep step = (spawn n.id n.template n.spawnPoint n.respawn.delay,
      [.respawned n.id n.spawnPoint]) ∧ o = .respawned n.id n.spawnPoint := by
  unfold deadStep at ho ⊢
  split at ho
  · dsimp only at ho ⊢
    split at ho
    · cases ho
    · next hp he =>
      rw [if_pos hp, if_neg he]
      exact ⟨rfl, List.mem_singleton.1 ho⟩
  · cases ho

theorem Stepped.isAlive_iff_of_mem (h : n.Stepped view step m) (ho : o ∈ m.2) :
    n.isAlive ↔ o.passage? = none := by
  rcases h with ⟨ha, i, rfl⟩ | ⟨ha, rfl⟩
  · exact iff_of_true ha (List.filterMap_eq_nil_iff.1 (passage?_liveStep ..) o ho)
  · obtain ⟨-, rfl⟩ := mem_deadStep ho
    exact iff_of_false ha (Option.some_ne_none _)

theorem Stepped.eq_of_respawned {id : EntityId} {pos : Vec2} (h : n.Stepped view step m)
    (ho : .respawned id pos ∈ m.2) : n.id = id ∧ n.spawnPoint = pos ∧
      m = (spawn n.id n.template n.spawnPoint n.respawn.delay, [.respawned id pos]) := by
  rcases h with ⟨ha, i, rfl⟩ | ⟨-, rfl⟩
  · cases List.filterMap_eq_nil_iff.1 (passage?_liveStep ..) _ ho
  · obtain ⟨hm, he⟩ := mem_deadStep ho
    cases he
    exact ⟨rfl, rfl, hm⟩

theorem Stepped.of_attacked {npc target : EntityId} {damage : Int} (h : n.Stepped view step m)
    (ho : .attacked npc target damage ∈ m.2) :
    n.isAlive ∧ m.1.activity = .attack ∧ m.1.target = some target ∧ damage = n.template.atk ∧
      (view.position target).isSome ∧ attackCooldown ≤ n.attackTimer + step := by
  rcases h with ⟨ha, i, rfl⟩ | ⟨-, rfl⟩
  · simp only [liveStep, List.mem_append, List.mem_map] at ho
    rcases ho with (ho | ho) | ⟨t, ht, he⟩
    · split at ho
      · cases ho
      · cases List.mem_singleton.1 ho
    · split at ho
      · cases List.mem_singleton.1 ho
      · cases ho
    · cases he
      rw [Option.mem_toList, strikes] at ht
      split at ht
      · next hs =>
        obtain ⟨hact, hcool⟩ := Bool.and_eq_true_iff.1 hs
        obtain ⟨htarget, hview⟩ := Option.filter_eq_some_iff.1 ht
        have hact : (n.act view i).activity = .attack := of_decide_eq_true hact
        refine ⟨ha, (activity_liveStep ..).trans hact, ?_, rfl, hview, of_decide_eq_true hcool⟩
        exact (target_liveStep ..).trans htarget
      · cases ht
  · cases (mem_deadStep ho).2

end Npc

namespace Herd

variable {β : Type} {brain : Brain β} {mind : β} {view : PlayerView} {step : Float32} {h : Herd}

theorem exists_of_mem_outcomes {o : NpcOutcome} (ho : o ∈ (h.step brain mind view step).2.2) :
    ∃ n ∈ h.members, ∃ m, n.Stepped view step m ∧ o ∈ m.2 ∧ n.id = o.subject ∧
      m.1 ∈ (h.step brain mind view step).1.members := by
  obtain ⟨ms, hms, hg, he⟩ := step_spec brain view step h mind
  rw [he] at ho
  obtain ⟨m, hm, ho⟩ := List.mem_flatMap.1 ho
  obtain ⟨n, hn, hs⟩ := exists_of_stepped view step hms hm
  exact ⟨n, hn, m, hs, ho, (hs.subject_eq o ho).symm, hg ▸ List.mem_map_of_mem hm⟩

theorem Sound.respawned_once (hs : h.Sound) {id : EntityId} {pos : Vec2}
    {told rest : List NpcOutcome}
    (ho : (h.step brain mind view step).2.2 = told ++ .respawned id pos :: rest) (pos' : Vec2) :
    .respawned id pos' ∉ told := by
  intro hm
  have hm : .respawned id pos' ∈ told.filter (·.subject = id) :=
    List.mem_filter.2 ⟨hm, decide_eq_true rfl⟩
  have hat := step_at brain view step h hs.nodup mind id
  rw [ho, List.filter_append, List.filter_cons_of_pos (by simp [NpcOutcome.subject])] at hat
  rcases hat with ⟨-, -, he⟩ | ⟨n, m, hn, -, -, he⟩
  · simp at he
  · -- what comes from a monster that comes back is its comeback alone
    obtain ⟨-, -, hm'⟩ := hn.eq_of_respawned (he ▸ List.mem_append_left _ hm)
    have hlen := congrArg List.length (he.trans (congrArg Prod.snd hm'))
    have := List.length_pos_of_mem hm
    simp only [List.length_append, List.length_cons, List.length_nil] at hlen
    omega

end Herd
end Fieldwatch
