import Fieldwatch.Proofs.Npc.Stepping
import Fieldwatch.Proofs.Number.Reach

/-! How far monsters roam. What a brain remembers decides what it asks for next; if that is never
more than short steps, no monster gets out of reach, be it sent somewhere, be it after a player, be
it back where it came to life. -/

namespace Fieldwatch

open Single Vec2

variable {β : Type} {view : PlayerView} {step : Float32}

def Intent.pace : Intent → Float32
  | .hold | .attack _ => 0
  | .wander _ speed => speed
  | .chase _ speed => if 0 < speed then speed else Npc.chaseSpeed

def Intent.IsModerate (step : Float32) (i : Intent) : Prop :=
  0 < i.pace → (i.pace * step).abs ≤ stride

/-- While it remembers what `I` says, the brain wants short steps of all monsters. -/
structure Brain.Moderate (brain : Brain β) (step : Float32) (I : β → Prop) : Prop where
  keeps : ∀ mind n view, I mind → I (brain.think mind n view).2
  paces : ∀ mind n view, I mind → (brain.think mind n view).1.IsModerate step

def PlayerView.InReach (view : PlayerView) : Prop :=
  ∀ id pos, view.position id = some pos → pos.InReach

def NpcOutcome.InReach : NpcOutcome → Prop
  | .moved _ pos | .respawned _ pos => pos.InReach
  | .activity .. | .attacked .. => True

namespace Npc

variable {n : Npc} {m : Npc × List NpcOutcome}

structure InReach (n : Npc) : Prop where
  pos : n.pos.InReach
  spawnPoint : n.spawnPoint.InReach

theorem threshold_le_minLengthSq : minLengthSq.isFinite ∧ threshold ≤ value minLengthSq := by
  have hbits : minLengthSq.toBits = 0x358637bd := by decide +kernel
  obtain ⟨hf, hv⟩ := value_of_toBits (s := .positive) (m := 8796093) (e := -43) hbits rfl
  refine ⟨hf, ?_⟩
  rw [hv, threshold]
  norm_num

theorem not_zero_lt_zero : ¬ (0 : Float32) < 0 := by
  rw [lt_iff isFinite_zero isFinite_zero]
  exact lt_irrefl _

theorem dir_act (hn : n.pos.InReach) (hv : view.InReach) (i : Intent)
    (hs : 0 < (n.act view i).speed) :
    (n.act view i).dir.IsModest ∧ (n.act view i).speed = i.pace := by
  cases i with
  | hold => exact absurd hs not_zero_lt_zero
  | attack target => exact absurd hs not_zero_lt_zero
  | wander dir speed =>
    have ha : n.act view (.wander dir speed) =
        if !dir.isFinite || dir.lengthSq < minLengthSq || speed ≤ 0 then {}
        else { activity := .moving, dir := dir.normalize, speed := speed } := rfl
    rw [ha] at hs ⊢
    split at hs
    · exact absurd hs not_zero_lt_zero
    · next hw =>
      rw [if_neg hw]
      rw [Bool.not_eq_true, Bool.or_eq_false_iff, Bool.or_eq_false_iff] at hw
      obtain ⟨⟨hdir, hlen⟩, -⟩ := hw
      have hd : dir.isFinite := by rwa [Bool.not_eq_false'] at hdir
      exact ⟨isModest_normalize hd threshold_le_minLengthSq (of_decide_eq_false hlen), rfl⟩
  | chase target speed =>
    rcases hp : view.position target with _ | goal
    · have ha : n.act view (.chase target speed) = {} := by rw [act, hp]
      rw [ha] at hs
      exact absurd hs not_zero_lt_zero
    · have ha : n.act view (.chase target speed) =
          if (goal - n.pos).lengthSq < minLengthSq then
            { target := some target, activity := .chase }
          else
            { target := some target, activity := .chase, dir := (goal - n.pos).normalize
              speed := if 0 < speed then speed else chaseSpeed } := by rw [act, hp]
      rw [ha] at hs ⊢
      split at hs
      · exact absurd hs not_zero_lt_zero
      · next hw =>
        rw [if_neg hw]
        have hd := (hv target goal hp).isFinite_sub hn
        exact ⟨isModest_normalize hd threshold_le_minLengthSq hw, rfl⟩

theorem InReach.perform (hn : n.InReach) (hv : view.InReach) {i : Intent}
    (hi : i.IsModerate step) : (n.perform step (n.act view i)).pos.InReach := by
  unfold Npc.perform
  dsimp only
  split
  · next hs =>
    obtain ⟨hdir, hspeed⟩ := dir_act hn.pos hv i hs
    rw [hspeed] at hs ⊢
    exact hn.pos.step hdir (hi hs)
  · exact hn.pos

theorem InReach.liveStep (hn : n.InReach) (hv : view.InReach) {i : Intent}
    (hi : i.IsModerate step) : (n.liveStep view step (n.act view i)).1.InReach ∧
      ∀ o ∈ (n.liveStep view step (n.act view i)).2, o.InReach := by
  have hpos := hn.perform hv hi
  refine ⟨⟨by rwa [pos_liveStep], ?_⟩, fun o ho => ?_⟩
  · unfold Npc.liveStep windUp
    dsimp only
    split <;> exact hn.spawnPoint
  · rcases List.mem_append.1 ho with ho | ho
    · rcases List.mem_append.1 ho with ho | ho
      · split at ho
        · cases ho
        · rw [List.mem_singleton.1 ho]
          trivial
      · split at ho
        · rw [List.mem_singleton.1 ho]
          exact hpos
        · cases ho
    · obtain ⟨t, -, rfl⟩ := List.mem_map.1 ho
      trivial

theorem InReach.deadStep (hn : n.InReach) (step : Float32) :
    (n.deadStep step).1.InReach ∧ ∀ o ∈ (n.deadStep step).2, o.InReach := by
  unfold Npc.deadStep
  split
  · dsimp only
    split
    · exact ⟨⟨hn.pos, hn.spawnPoint⟩, fun _ ho => by cases ho⟩
    · refine ⟨⟨hn.spawnPoint, hn.spawnPoint⟩, fun o ho => ?_⟩
      rw [List.mem_singleton.1 ho]
      exact hn.spawnPoint
  · exact ⟨hn, fun _ ho => by cases ho⟩

theorem InReach.takeDamage (hn : n.InReach) (damage : Int) : (n.takeDamage damage).InReach := by
  unfold Npc.takeDamage
  dsimp only
  split <;> exact ⟨hn.pos, hn.spawnPoint⟩

/-- A monster that has left the plane does not come back to it on its own feet. -/
theorem not_isFinite_liveStep (hn : ¬ n.pos.isFinite) (a : Action) :
    ¬ (n.liveStep view step a).1.pos.isFinite := by
  rw [pos_liveStep]
  unfold Npc.perform
  dsimp only
  split
  · intro hsum
    obtain ⟨hx, hy⟩ := isFinite_iff.1 hsum
    exact hn (isFinite_iff.2 ⟨(finite_of_add hx).1, (finite_of_add hy).1⟩)
  · exact hn

end Npc

namespace Herd

variable {brain : Brain β} {I : β → Prop}

def InReach (h : Herd) : Prop := ∀ n ∈ h.members, n.InReach

theorem inReach_stepAll (hb : brain.Moderate step I) (hv : view.InReach) {mind : β} (hm : I mind)
    {l : List Npc} (hl : ∀ n ∈ l, n.InReach) :
    I (stepAll brain view step mind l).1 ∧
      (∀ n ∈ (stepAll brain view step mind l).2.1, n.InReach) ∧
      ∀ o ∈ (stepAll brain view step mind l).2.2, o.InReach := by
  induction l generalizing mind with
  | nil =>
    have hnil : stepAll brain view step mind [] = (mind, [], []) := rfl
    rw [hnil]
    exact ⟨hm, List.forall_mem_nil _, List.forall_mem_nil _⟩
  | cons n l ih =>
    obtain ⟨hn, hl⟩ := List.forall_mem_cons.1 hl
    by_cases ha : n.isAlive
    · obtain ⟨hmind, hmembers, hout⟩ := ih (hb.keeps mind n view hm) hl
      obtain ⟨hmoved, htold⟩ := hn.liveStep hv (hb.paces mind n view hm)
      simp only [stepAll, ha, if_true]
      exact ⟨hmind, List.forall_mem_cons.2 ⟨hmoved, hmembers⟩,
        fun o ho => (List.mem_append.1 ho).elim (htold o) (hout o)⟩
    · obtain ⟨hmind, hmembers, hout⟩ := ih hm hl
      obtain ⟨hmoved, htold⟩ := hn.deadStep step
      simp only [stepAll, ha]
      exact ⟨hmind, List.forall_mem_cons.2 ⟨hmoved, hmembers⟩,
        fun o ho => (List.mem_append.1 ho).elim (htold o) (hout o)⟩

theorem InReach.stepped {h : Herd} (hh : h.InReach) (hb : brain.Moderate step I) (hv : view.InReach)
    {mind : β} (hm : I mind) : (h.step brain mind view step).1.InReach ∧
      I (h.step brain mind view step).2.1 ∧
      ∀ o ∈ (h.step brain mind view step).2.2, o.InReach := by
  obtain ⟨hmind, hmembers, hout⟩ := inReach_stepAll hb hv hm hh
  exact ⟨hmembers, hmind, hout⟩

theorem InReach.spawn {h : Herd} (hh : h.InReach) (t : NpcTemplate) {pos : Vec2}
    (hpos : pos.InReach) : (h.spawn t pos).InReach := by
  intro n hn
  rcases List.mem_append.1 hn with hn | hn
  · exact hh n hn
  · rw [List.mem_singleton.1 hn]
    exact ⟨hpos, hpos⟩

theorem InReach.damage {h g : Herd} (hh : h.InReach) {id : EntityId} {amount : Int} {m : Npc}
    (hd : h.damage id amount = some (g, m)) : g.InReach := by
  obtain ⟨n, hn, -, rfl, hg⟩ := damage_eq_some hd
  intro k hk
  rw [hg] at hk
  obtain ⟨l, hl, rfl⟩ := List.mem_map.1 hk
  split
  · exact (hh n (mem_of_get? hn)).takeDamage amount
  · exact hh l hl

end Herd
end Fieldwatch
