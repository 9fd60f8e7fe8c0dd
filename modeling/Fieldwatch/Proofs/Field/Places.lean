import Fieldwatch.Field.Handling
import Fieldwatch.Proofs.Interest.Record
import Fieldwatch.Proofs.Npc.Stepping

/-! Where everything is by the tables of a field: its players are where their records say, its live
monsters too, and its dead ones are nowhere. -/

namespace Fieldwatch

open Interest

def Npc.record (n : Npc) : Option Entry := if n.isAlive then some (n.pos, none) else none

namespace NpcOutcome

def tell (j : EntityId) (r : Option Entry) : NpcOutcome → Option Entry
  | .moved id pos => if j = id then r.map fun x => (pos, x.2) else r
  | .respawned id pos => if j = id then some (pos, none) else r
  | .activity .. | .attacked .. => r

theorem tell_of_ne {j : EntityId} {o : NpcOutcome} (h : j ≠ o.subject) (r : Option Entry) :
    o.tell j r = r := by
  cases o with
  | activity id a => rfl
  | attacked id t d => rfl
  | moved id pos => exact if_neg h
  | respawned id pos => exact if_neg h

theorem foldl_tell_filter (j : EntityId) (os : List NpcOutcome) (r : Option Entry) :
    (os.filter (·.subject = j)).foldl (tell j) r = os.foldl (tell j) r := by
  induction os generalizing r with
  | nil => rfl
  | cons o os ih =>
    by_cases ho : o.subject = j
    · rw [List.filter_cons_of_pos (by simpa using ho), List.foldl_cons, List.foldl_cons, ih]
    · rw [List.filter_cons_of_neg (by simpa using ho), List.foldl_cons, tell_of_ne (Ne.symm ho), ih]

theorem foldl_tell_of_ne {j : EntityId} {os : List NpcOutcome} (h : ∀ o ∈ os, j ≠ o.subject)
    (r : Option Entry) : os.foldl (tell j) r = r := by
  rw [← foldl_tell_filter, List.filter_eq_nil_iff.2 fun o ho => by simpa using Ne.symm (h o ho),
    List.foldl_nil]

theorem isSome_tell {j : EntityId} {o : NpcOutcome} {r : Option Entry} :
    (o.tell j r).isSome ↔ r.isSome ∨ ∃ pos, o = .respawned j pos := by
  cases o with
  | activity | attacked => simp [tell]
  | moved id pos =>
    rw [tell]
    split <;> simp
  | respawned id pos =>
    rw [tell]
    split
    · next hj => simp [hj]
    · next hj => simp [Ne.symm hj]

theorem isSome_foldl_tell {j : EntityId} {os : List NpcOutcome} {r : Option Entry} :
    (os.foldl (tell j) r).isSome ↔ r.isSome ∨ ∃ pos, .respawned j pos ∈ os := by
  induction os generalizing r with
  | nil => simp
  | cons o os ih =>
    rw [List.foldl_cons, ih, isSome_tell]
    simp only [List.mem_cons, exists_or, or_assoc, eq_comm (a := o)]

theorem foldl_tell_attacked (j : EntityId) (ts : List EntityId) (id : EntityId) (damage : Int)
    (r : Option Entry) : (ts.map (attacked id · damage)).foldl (tell j) r = r := by
  induction ts with
  | nil => rfl
  | cons t ts ih => exact ih

end NpcOutcome

namespace Npc

variable {n : Npc} {m : Npc × List NpcOutcome} {view : PlayerView} {step : Float32}

theorem record_liveStep (ha : n.isAlive) (a : Action) :
    (n.liveStep view step a).2.foldl (NpcOutcome.tell n.id) n.record =
      (n.liveStep view step a).1.record := by
  have hm : (n.liveStep view step a).1.record = some ((n.perform step a).pos, none) := by
    rw [record, if_pos (by simpa [isAlive] using ha), pos_liveStep]
  rw [hm]
  simp only [liveStep, List.foldl_append, NpcOutcome.foldl_tell_attacked, record, if_pos ha]
  -- a change of activity tells nothing of the place
  have hact : (if (n.perform step a).activity = n.activity then []
      else [NpcOutcome.activity n.id (n.perform step a).activity]).foldl
        (NpcOutcome.tell n.id) (some (n.pos, none)) = some (n.pos, none) := by
    split <;> rfl
  rw [hact]
  by_cases hs : 0 < a.speed
  · simp [hs, NpcOutcome.tell]
  · simp [hs, perform]

theorem record_deadStep (ha : ¬ n.isAlive) (hp : 0 < n.template.maxHp) :
    (n.deadStep step).2.foldl (NpcOutcome.tell n.id) n.record = (n.deadStep step).1.record := by
  have hn : n.record = none := if_neg ha
  unfold deadStep
  split
  · dsimp only
    split
    · exact hn.trans (if_neg ha).symm
    · simp [NpcOutcome.tell, record, isAlive, spawn, hp]
  · rfl

theorem Stepped.record_eq (h : n.Stepped view step m) (hp : 0 < n.template.maxHp) :
    m.2.foldl (NpcOutcome.tell n.id) n.record = m.1.record := by
  rcases h with ⟨ha, i, rfl⟩ | ⟨ha, rfl⟩
  · exact record_liveStep ha _
  · exact record_deadStep ha hp

end Npc

namespace Herd

def record (h : Herd) (j : EntityId) : Option Entry := (h.get? j).bind Npc.record

variable {h : Herd} {j : EntityId} {view : PlayerView} {step : Float32}

theorem record_of_mem (hs : h.Sound) {n : Npc} (hn : n ∈ h.members) :
    h.record n.id = n.record := by rw [record, hs.get?_of_mem hn, Option.bind_some]

theorem record_of_le (hs : h.Sound) (hj : j ≤ Npc.idBase) : h.record j = none := by
  rw [record, get?_eq_none, Option.bind_none]
  intro hm
  obtain ⟨n, hn, rfl⟩ := List.mem_map.1 hm
  exact UInt64.not_lt.2 hj (hs.idBase_lt hn)

theorem isSome_record (hs : h.Sound) :
    (h.record j).isSome ↔ ∃ n ∈ h.members, n.id = j ∧ n.isAlive := by
  have hn : ∀ n : Npc, n.record.isSome = n.isAlive := fun n => by
    unfold Npc.record
    cases n.isAlive <;> rfl
  constructor
  · intro hr
    obtain ⟨r, hr⟩ := Option.isSome_iff_exists.1 hr
    obtain ⟨n, hg, hnr⟩ := Option.bind_eq_some_iff.1 hr
    exact ⟨n, mem_of_get? hg, id_of_get? hg, by rw [← hn, hnr, Option.isSome_some]⟩
  · rintro ⟨n, hm, rfl, ha⟩
    rw [record_of_mem hs hm, hn, ha]

theorem snd_of_record {r : Entry} (hr : h.record j = some r) : r.2 = none := by
  obtain ⟨n, -, hn⟩ := Option.bind_eq_some_iff.1 hr
  unfold Npc.record at hn
  split at hn
  · cases hn
    rfl
  · cases hn

theorem record_damage {id : EntityId} {amount : Int} {g : Herd} {m : Npc}
    (hd : h.damage id amount = some (g, m)) (j : EntityId) :
    g.record j = if j = id ∧ m.hp = 0 then none else h.record j := by
  rw [record, get?_damage hd, record]
  by_cases hj : j = id
  · obtain ⟨n, hn, ha, rfl, -⟩ := damage_eq_some hd
    by_cases h0 : (n.takeDamage amount).hp = 0
    · simp [hj, h0, Npc.record, n.isAlive_takeDamage]
    · simp [hj, h0, Npc.record, n.isAlive_takeDamage, hn, ha]
  · simp [hj]

theorem record_spawn (hs : h.Sound) {t : NpcTemplate} (ht : 0 < t.maxHp) (pos : Vec2)
    (hr : h.size < room) (j : EntityId) :
    (h.spawn t pos).record j = if j = h.nextId then some (pos, none) else h.record j := by
  rw [record, hs.numbered.get?_spawn hr]
  split
  · simp [Npc.record, Npc.isAlive, Npc.spawn, ht]
  · rfl

theorem record_step {β : Type} (hs : h.Sound) (brain : Brain β) (mind : β) (j : EntityId) :
    (h.step brain mind view step).2.2.foldl (NpcOutcome.tell j) (h.record j) =
      (h.step brain mind view step).1.record j := by
  rw [← NpcOutcome.foldl_tell_filter, record, record]
  rcases step_at brain view step h hs.nodup mind j with ⟨hn, hg, ho⟩ | ⟨n, m, hm, hn, hg, ho⟩
  · rw [hn, hg, ho]
    rfl
  · rw [hn, hg, ho, ← id_of_get? hn]
    exact hm.record_eq (hs.maxHp_pos n (mem_of_get? hn))

theorem subject_step {β : Type} (brain : Brain β) (mind : β) {o : NpcOutcome}
    (ho : o ∈ (h.step brain mind view step).2.2) : o.subject ∈ h.members.map Npc.id := by
  obtain ⟨ms, hms, -, he⟩ := step_spec brain view step h mind
  exact subject_stepped view step hms (he ▸ ho)

end Herd
end Fieldwatch
