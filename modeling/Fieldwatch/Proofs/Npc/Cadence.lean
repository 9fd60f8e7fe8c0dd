import Fieldwatch.Proofs.Npc.Tidings

/-! How often monsters hit. Whatever befalls a monster and whatever else it does in between, it has
been attacking for a whole cooldown without a break before it hits. -/

namespace Fieldwatch

def Report.EndsSpell : Report → Prop
  | .spawned .. | .died _ | .outcome (.attacked ..) | .outcome (.respawned ..) => True
  | .outcome (.activity ..) | .outcome (.moved ..) => False

def Turn.span? : Turn → Option Float32
  | .step _ _ _ span => some span
  | .spawn .. | .populate _ | .damage .. => none

namespace Episode

variable (e : Episode)

def next : Herd := (e.herd.turn e.turn).value

/-- No spell of attacking of `id` outlasts the turn: it comes, dies, hits or comes back, or a step
leaves it at something else. -/
def Interrupts (id : EntityId) : Prop :=
  (∃ r ∈ e.herd.reports e.turn, r.about = id ∧ r.EndsSpell) ∨
    (e.turn.span?.isSome ∧ ∀ n, e.next.get? id = some n → n.activity ≠ .attack)

def windUp? (id : EntityId) : Option Float32 :=
  if (e.herd.get? id).any (·.isAlive) && (e.next.get? id).any (·.activity = .attack) then
    e.turn.span?
  else none

end Episode

/-- Since the last interruption of `id`, it has been attacking in every step, and these are the
steps. -/
def Spell (id : EntityId) (l : List Episode) (steps : List Float32) : Prop :=
  ∃ before e after, l = before ++ e :: after ∧ e.Interrupts id ∧
    (∀ x ∈ after, ¬ x.Interrupts id ∧ x.windUp? id = x.turn.span?) ∧
    steps = after.filterMap (·.windUp? id)

variable {id : EntityId} {l : List Episode} {e : Episode} {steps : List Float32}

theorem Spell.of_interrupts (l : List Episode) (he : e.Interrupts id) : Spell id (l ++ [e]) [] :=
  ⟨l, e, [], rfl, he, fun _ hx => (List.not_mem_nil hx).elim, rfl⟩

theorem Spell.concat (h : Spell id l steps) (he : ¬ e.Interrupts id)
    (hw : e.windUp? id = e.turn.span?) : Spell id (l ++ [e]) (steps ++ e.turn.span?.toList) := by
  obtain ⟨before, x, after, rfl, hx, hafter, rfl⟩ := h
  refine ⟨before, x, after ++ [e], by simp, hx, fun y hy => ?_, ?_⟩
  · rcases List.mem_append.1 hy with hy | hy
    · exact hafter y hy
    · rw [List.mem_singleton.1 hy]
      exact ⟨he, hw⟩
  · rw [List.filterMap_append, ← hw]
    cases hx : e.windUp? id <;> simp [hx]

namespace Npc

variable {n : Npc} {m : Npc × List NpcOutcome} {view : PlayerView} {step : Float32}

theorem attackTimer_liveStep (n : Npc) (view : PlayerView) (step : Float32) (a : Action) :
    (n.liveStep view step a).1.attackTimer =
      if a.activity = .attack then
        if ((n.perform step a).strikes view step).isSome then 0 else n.attackTimer + step
      else 0 := by
  simp only [liveStep, windUp]
  split <;> rename_i ha
  · exact (if_pos ha).symm
  · exact (if_neg ha).symm

structure Paced (l : List Episode) (n : Npc) : Prop where
  rested : n.activity ≠ .attack → n.attackTimer = 0
  alive : n.activity = .attack → n.isAlive
  wound : ∃ steps, Spell n.id l steps ∧ n.attackTimer = steps.foldl (· + ·) 0

theorem Paced.of_interrupts (l : List Episode) (he : e.Interrupts n.id)
    (ha : n.activity = .attack → n.isAlive) (h0 : n.attackTimer = 0) : n.Paced (l ++ [e]) :=
  ⟨fun _ => h0, ha, [], .of_interrupts l he, h0⟩

theorem Paced.of_same {k : Npc} (h : n.Paced l) (hid : k.id = n.id)
    (hact : k.activity = n.activity) (htimer : k.attackTimer = n.attackTimer)
    (ha : n.isAlive → k.isAlive) (hspan : e.turn.span? = none)
    (he : ∀ r ∈ e.herd.reports e.turn, r.about = n.id → ¬ r.EndsSpell) : k.Paced (l ++ [e]) := by
  obtain ⟨steps, hs, hsum⟩ := h.wound
  have hquiet : ¬ e.Interrupts n.id := by
    rintro (⟨r, hr, habout, hends⟩ | ⟨hsome, -⟩)
    · exact he r hr habout hends
    · simp [hspan] at hsome
  have hwind : e.windUp? n.id = e.turn.span? := by
    rw [Episode.windUp?, hspan, ite_self]
  refine ⟨fun h' => ?_, fun h' => ha (h.alive (hact ▸ h')), steps, ?_, htimer.trans hsum⟩
  · rw [htimer]
    exact h.rested (hact ▸ h')
  · have := hs.concat hquiet hwind
    rw [hspan, Option.toList_none, List.append_nil] at this
    exact hid ▸ this

theorem Stepped.winds (h : n.Stepped view step m)
    (hrested : n.activity ≠ .attack → n.attackTimer = 0)
    (halive : n.activity = .attack → n.isAlive) :
    (m.1.activity = .attack → m.1.isAlive) ∧
      ((m.1.attackTimer = 0 ∧
          (m.1.activity ≠ .attack ∨ ∃ o ∈ m.2, (Report.outcome o).EndsSpell)) ∨
        (n.isAlive ∧ m.1.activity = .attack ∧ m.1.attackTimer = n.attackTimer + step ∧
          ∀ o ∈ m.2, ¬ (Report.outcome o).EndsSpell)) := by
  rcases h with ⟨ha, i, rfl⟩ | ⟨ha, rfl⟩
  · have halive : (n.liveStep view step (n.act view i)).1.isAlive := by
      rw [isAlive, hp_liveStep]
      exact ha
    refine ⟨fun _ => halive, ?_⟩
    rw [activity_liveStep, attackTimer_liveStep]
    by_cases hact : (n.act view i).activity = .attack
    · rw [if_pos hact]
      cases hs : (n.perform step (n.act view i)).strikes view step with
      | some t =>
        refine .inl ⟨rfl, .inr ⟨.attacked n.id t n.template.atk, ?_, trivial⟩⟩
        simp [liveStep, hs]
      | none =>
        refine .inr ⟨ha, hact, rfl, fun o ho => ?_⟩
        simp only [liveStep, hs, Option.toList_none, List.map_nil, List.append_nil,
          List.mem_append] at ho
        rcases ho with ho | ho
        · split at ho
          · cases ho
          · rw [List.mem_singleton.1 ho]
            exact not_false
        · split at ho
          · rw [List.mem_singleton.1 ho]
            exact not_false
          · cases ho
    · rw [if_neg hact]
      exact .inl ⟨rfl, .inl hact⟩
  · -- a dead monster is not attacking, and has not begun to
    have hact : n.activity ≠ .attack := fun h => ha (halive h)
    unfold deadStep
    split
    · dsimp only
      split
      · exact ⟨fun h => absurd h hact, .inl ⟨hrested hact, .inl hact⟩⟩
      · exact ⟨fun h => Activity.noConfusion h, .inl ⟨rfl, .inl Activity.noConfusion⟩⟩
    · exact ⟨fun h => absurd h hact, .inl ⟨hrested hact, .inl hact⟩⟩

end Npc

namespace Herd

variable {h : Herd}

def Paced (l : List Episode) (h : Herd) : Prop := ∀ n ∈ h.members, n.Paced l

theorem Paced.of_append (hp : h.Paced l) {t : Turn} {new : List Npc}
    (hm : (h.turn t).value.members = h.members ++ new)
    (hr : h.reports t = new.map fun n => .spawned n.id n.pos) (hspan : t.span? = none)
    (hd : ((h.turn t).value.members.map Npc.id).Nodup)
    (hnew : ∀ n ∈ new, n.activity = .idle ∧ n.attackTimer = 0) :
    (h.turn t).value.Paced (l ++ [⟨h, t⟩]) := by
  rw [hm, List.map_append] at hd
  intro n hn
  rw [hm] at hn
  rcases List.mem_append.1 hn with hn | hn
  · refine (hp n hn).of_same rfl rfl rfl id hspan fun r hreport habout _ => ?_
    obtain ⟨k, hk, rfl⟩ := List.mem_map.1 (hr ▸ hreport)
    exact (List.nodup_append.1 hd).2.2 n.id (List.mem_map_of_mem hn) k.id (List.mem_map_of_mem hk)
      habout.symm
  · obtain ⟨hact, h0⟩ := hnew n hn
    refine .of_interrupts l (.inl ⟨.spawned n.id n.pos, ?_, rfl, trivial⟩) (fun h' => ?_) h0
    · exact hr ▸ List.mem_map.2 ⟨n, hn, rfl⟩
    · rw [hact] at h'
      cases h'

theorem Paced.damage (hp : h.Paced l) {id : EntityId} {amount : Int} {g : Herd} {m : Npc}
    (hd : h.damage id amount = some (g, m)) : g.Paced (l ++ [⟨h, .damage id amount⟩]) := by
  have hreports : h.reports (.damage id amount) = if m.hp = 0 then [.died id] else [] := by
    simp only [reports, hd]
  obtain ⟨n, hn, ha, rfl, hg⟩ := damage_eq_some hd
  have hid := id_of_get? hn
  intro k hk
  rw [hg] at hk
  obtain ⟨j, hj, rfl⟩ := List.mem_map.1 hk
  by_cases hjd : j.id = id
  · rw [if_pos hjd]
    have hact := n.activity_takeDamage amount
    have htimer := n.attackTimer_takeDamage amount
    by_cases h0 : (n.takeDamage amount).hp = 0
    · rw [if_pos h0] at hact htimer hreports
      refine .of_interrupts l (.inl ⟨.died id, ?_, ?_, trivial⟩) (fun h' => ?_) htimer
      · rw [hreports]
        exact List.mem_singleton_self _
      · rw [Npc.id_takeDamage, hid]
        rfl
      · rw [hact] at h'
        cases h'
    · rw [if_neg h0] at hact htimer hreports
      refine (hp n (mem_of_get? hn)).of_same (n.id_takeDamage amount) hact htimer (fun _ => ?_) rfl
        fun r hreport _ => ?_
      · rw [Npc.isAlive_takeDamage]
        simpa using h0
      · rw [hreports] at hreport
        cases hreport
  · rw [if_neg hjd]
    refine (hp j hj).of_same rfl rfl rfl (fun h => h) rfl fun r hreport habout _ => hjd ?_
    rw [hreports] at hreport
    split at hreport
    · rw [← habout, List.mem_singleton.1 hreport]
      rfl
    · cases hreport

theorem Paced.step {β : Type} (hp : h.Paced l) (hh : h.Numbered) (hr : h.size ≤ room)
    (brain : Brain β) (mind : β) (view : PlayerView) (step : Float32) :
    (h.step brain mind view step).1.Paced (l ++ [⟨h, .step brain mind view step⟩]) := by
  have hsame := same_step brain view step h mind
  intro k hk
  have hget := (hh.of_same hsame).get?_of_mem (hsame.size_eq ▸ hr) hk
  rcases step_at brain view step h (hh.nodup hr) mind k.id with
    ⟨-, hg, -⟩ | ⟨n, m, hm, hn, hg, ho⟩
  · cases hg ▸ hget
  · obtain rfl : m.1 = k := Option.some.inj (hg.symm.trans hget)
    have hid : n.id = m.1.id := id_of_get? hn
    have hpaced := hp n (mem_of_get? hn)
    -- what is reported of this monster is what its own step tells
    have htold : ∀ o, o ∈ m.2 ↔ o ∈ (h.step brain mind view step).2.2 ∧ o.subject = m.1.id := by
      intro o
      rw [← ho, List.mem_filter, decide_eq_true_eq]
    obtain ⟨halive, ⟨h0, hends⟩ | ⟨ha, hact, htimer, hquiet⟩⟩ :=
      hm.winds hpaced.rested hpaced.alive
    · refine .of_interrupts l ?_ halive h0
      rcases hends with hact | ⟨o, hom, hends⟩
      · refine .inr ⟨rfl, fun k hk => ?_⟩
        cases hg ▸ hk
        exact hact
      · obtain ⟨hmem, hsubject⟩ := (htold o).1 hom
        exact .inl ⟨.outcome o, List.mem_map_of_mem hmem, hsubject, hends⟩
    · obtain ⟨steps, hs, hsum⟩ := hpaced.wound
      have hcounted : Episode.windUp? ⟨h, .step brain mind view step⟩ m.1.id = some step := by
        have hnext : Episode.next ⟨h, .step brain mind view step⟩ =
          (h.step brain mind view step).1 := rfl
        rw [Episode.windUp?, hnext, hn, hg, Option.any_some, Option.any_some, ha, hact]
        rfl
      refine ⟨fun h' => absurd hact h', halive, steps ++ [step], ?_, ?_⟩
      · refine (hid ▸ hs).concat ?_ hcounted
        rintro (⟨r, hr, habout, hends⟩ | ⟨-, hleft⟩)
        · obtain ⟨o, hmem, rfl⟩ := List.mem_map.1 hr
          exact hquiet o ((htold o).2 ⟨hmem, habout⟩) hends
        · exact hleft m.1 hg hact
      · rw [htimer, hsum, List.foldl_concat]

theorem Paced.turn (hp : h.Paced l) (hh : h.Numbered) {t : Turn}
    (hr : (h.turn t).value.size ≤ room) : (h.turn t).value.Paced (l ++ [⟨h, t⟩]) := by
  have hd := (hh.turn t).nodup hr
  have hsize := Nat.le_trans (size_le_turn h t) hr
  cases t with
  | spawn t pos =>
    have hm : (h.turn (.spawn t pos)).value.members =
        h.members ++ [Npc.spawn h.nextId t pos h.respawnDelay] := rfl
    refine hp.of_append hm rfl rfl hd fun n hn => ?_
    rw [List.mem_singleton.1 hn]
    exact ⟨rfl, rfl⟩
  | populate g =>
    rcases hg : h.populate g with _ | ⟨k, sp⟩
    · have hm : (h.turn (.populate g)).value.members = h.members ++ [] := by simp [Herd.turn, hg]
      exact hp.of_append hm (by simp [reports, hg]) rfl hd fun n hn => (List.not_mem_nil hn).elim
    · obtain ⟨rfl, rfl⟩ := populate_eq_some hg
      have hm : (h.turn (.populate g)).value.members = h.members ++ h.spawned g.cells.zipIdx := by
        simp [Herd.turn, hg, members_spawnEach]
      refine hp.of_append hm (by simp [reports, hg]) rfl hd fun n hn => ?_
      obtain ⟨x, -, rfl⟩ := List.mem_map.1 hn
      exact ⟨rfl, rfl⟩
  | damage id amount =>
    rcases hg : h.damage id amount with _ | ⟨g, n⟩
    · have hm : (h.turn (.damage id amount)).value.members = h.members ++ [] := by
        simp [Herd.turn, hg]
      exact hp.of_append hm (by simp [reports, hg]) rfl hd fun n hn => (List.not_mem_nil hn).elim
    · have := hp.damage hg
      simpa [Herd.turn, hg] using this
  | step brain mind view step => exact hp.step hh hsize brain mind view step

theorem Paced.undergo (hp : h.Paced l) (hh : h.Numbered) {ts : List Turn}
    (hr : (h.undergo ts).value.size ≤ room) :
    (h.undergo ts).value.Paced (l ++ h.episodes ts) := by
  induction ts generalizing h l with
  | nil => simpa [Herd.undergo, episodes] using hp
  | cons t ts ih =>
    rw [episodes, List.append_cons]
    exact ih (hp.turn hh (Nat.le_trans (size_le_undergo _ ts) hr)) (hh.turn t) hr

/-- In any history of a herd, a monster that hits is alive and attacking its target, which is in
view, and since it came, died, came back, hit or was at anything else it has been attacking for at
least a whole cooldown. -/
theorem attacks_keep_cadence (delay : Float32) (ts : List Turn)
    (hr : (undergo { respawnDelay := delay } ts).value.size ≤ room)
    {β : Type} (brain : Brain β) (mind : β) (view : PlayerView) (step : Float32)
    {id target : EntityId} {damage : Int}
    (ho : .attacked id target damage ∈
      ((undergo { respawnDelay := delay } ts).value.step brain mind view step).2.2) :
    let h := (undergo { respawnDelay := delay } ts).value
    ∃ n m, h.get? id = some n ∧ (h.step brain mind view step).1.get? id = some m ∧
      n.isAlive ∧ m.isAlive ∧ m.activity = .attack ∧ m.target = some target ∧
      (view.position target).isSome ∧ damage = m.template.atk ∧
      ∃ steps, Spell id (episodes { respawnDelay := delay } ts) steps ∧
        Npc.attackCooldown ≤ (steps ++ [step]).foldl (· + ·) 0 := by
  intro h
  have hh : h.Numbered := (numbered_empty delay).undergo ts
  have hpaced : h.Paced (episodes { respawnDelay := delay } ts) := by
    have hempty : Paced [] { respawnDelay := delay } := fun n hn => (List.not_mem_nil hn).elim
    simpa using hempty.undergo (numbered_empty delay) hr
  obtain ⟨n, hn, m, hm, hom, hid, hmem⟩ := exists_of_mem_outcomes ho
  obtain rfl : n.id = id := hid
  obtain ⟨ha, hact, htarget, rfl, hview, hcool⟩ := hm.of_attacked hom
  obtain ⟨steps, hspell, hsum⟩ := (hpaced n hn).wound
  have hsame := same_step brain view step h mind
  have hnext := (hh.of_same hsame).get?_of_mem (hsame.size_eq ▸ hr) hmem
  rw [hm.id_eq] at hnext
  refine ⟨n, m.1, hh.get?_of_mem hr hn, hnext, ha, ?_, hact, htarget, hview, ?_, steps, hspell, ?_⟩
  · exact (hm.winds (hpaced n hn).rested (hpaced n hn).alive).1 hact
  · rw [hm.template_eq]
  · rw [List.foldl_concat, ← hsum]
    exact hcool

/-- A monster attacks, breaks off for a step, and hits in the second step after that. -/
theorem attacks_keep_cadence_feint :
    let view : PlayerView := ⟨fun _ => some ⟨1, 2⟩, fun _ _ => none⟩
    let attack : Brain Unit := ⟨fun _ _ _ => (.attack 7, ())⟩
    let ts : List Turn := [.spawn (NpcTemplate.nth 0) ⟨1, 2⟩, .step attack () view 0.75,
      .step Brain.idle () view 0.75, .step attack () view 0.5]
    let h := (undergo { respawnDelay := 5 } ts).value
    h.size ≤ room ∧ .attacked (Npc.idBase + 1) 7 7 ∈ (h.step attack () view 0.5).2.2 ∧
      ∃ steps, Spell (Npc.idBase + 1) (episodes { respawnDelay := 5 } ts) steps ∧
        Npc.attackCooldown ≤ (steps ++ [0.5]).foldl (· + ·) 0 := by
  intro view attack ts h
  have hr : h.size ≤ room := by decide +kernel
  let hit (o : NpcOutcome) : Option (EntityId × EntityId × Int) :=
    match o with
    | .attacked npc target damage => some (npc, target, damage)
    | _ => none
  have hhit : some (Npc.idBase + 1, 7, 7) ∈ (h.step attack () view 0.5).2.2.map hit := by
    decide +kernel
  have ho : .attacked (Npc.idBase + 1) 7 7 ∈ (h.step attack () view 0.5).2.2 := by
    obtain ⟨o, ho, he⟩ := List.mem_map.1 hhit
    dsimp only [hit] at he
    split at he
    · cases he
      exact ho
    · cases he
  obtain ⟨-, -, -, -, -, -, -, -, -, -, hspell⟩ :=
    attacks_keep_cadence 5 ts hr attack () view 0.5 ho
  exact ⟨hr, ho, hspell⟩

end Herd
end Fieldwatch
