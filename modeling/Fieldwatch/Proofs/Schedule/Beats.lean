import Fieldwatch.Proofs.Schedule.Rounds
import Mathlib.Data.List.Sort

/-! How often a field ticks. Every field belongs to one driver, and its worker has one tick for each
time that this driver woke and found the worker registered. The times that a driver measures add up
to the time since it was started. -/

namespace Fieldwatch

variable {κ : Type}

namespace Office

variable [DecidableEq κ]

theorem Sound.ids_roster {o : Office κ} (h : o.Sound) :
    o.roster.ids = o.table.toList.map Prod.fst := by
  rw [Std.ExtTreeMap.map_fst_toList_eq_keys]
  refine o.roster.ids_pairwise.eq_of_mem_iff
    (o.table.ordered_keys.imp fun hlt => Std.compare_eq_lt.1 hlt) fun id => ?_
  exact Std.ExtTreeMap.mem_keys.trans ((h.mem_roster id).trans Std.ExtTreeMap.mem_keys.symm)

end Office

def Wake.serve (s : Schedule) (w : Wake) (q : Roster) (id : FieldId) : Roster :=
  if s.driverOf id = w.driver then (q.post id (.tick (Driver.seconds w.elapsed))).value.2 else q

theorem Driver.value_wake (d : Driver) (s : Schedule) (now : Nat) (q : Roster)
    (roll : Std.ExtTreeMap FieldId Nat) : (d.wake s now q).value =
      ({ d with last := now },
        q.ids.foldl (Wake.serve s ⟨d.index, now, d.elapsed now, roll⟩) q) := by
  unfold wake Roster.forEach
  rw [Emit.value_bind, Emit.value_pure, Emit.value_foldlM]
  congr 3
  funext q id
  unfold Wake.serve
  dsimp only
  split <;> rfl

theorem countP_flatMap_add {α γ : Type} {f : α → List γ} {p : γ → Bool} {q r : α → Bool}
    {l : List α}
    (h : ∀ a ∈ l, (f a).countP p + (if q a then 1 else 0) = if r a then 1 else 0) :
    (l.flatMap f).countP p + l.countP q = l.countP r := by
  induction l with
  | nil => rfl
  | cons a l ih =>
    obtain ⟨ha, hl⟩ := List.forall_mem_cons.1 h
    have htail := ih hl
    rw [List.flatMap_cons, List.countP_append, List.countP_cons, List.countP_cons]
    omega

namespace Clockwork

variable [DecidableEq κ] {direct : Prop} {inside : Nat → κ → Prop} {threads : Nat}
  {starts : Nat → Nat} {s t : Clockwork κ} {n : Nat} {r : Round} {b : Nat} {todo : List Nat}
  {u : Tenure κ Unit} {id : FieldId}

theorem Sound.existsUnique_driver (h : s.Sound threads starts) (id : FieldId) :
    ∃! d, d ∈ s.schedule.drivers ∧ d.index = id.toNat % max threads 1 := by
  have hlt : id.toNat % max threads 1 < s.schedule.threads := by
    rw [h.threads_eq]
    exact Nat.mod_lt _ (Nat.le_max_right threads 1)
  have hnodup : (s.schedule.drivers.map Driver.index).Nodup := h.indices ▸ List.nodup_range
  have hmem := List.mem_range.2 hlt
  rw [← h.indices] at hmem
  obtain ⟨d, hd, hindex⟩ := List.mem_map.1 hmem
  refine ⟨d, ⟨hd, hindex⟩, fun e he => ?_⟩
  exact List.inj_on_of_nodup_map hnodup he.1 hd (he.2.trans hindex.symm)

theorem Sound.driverOf_eq (h : s.Sound threads starts) (id : FieldId) :
    s.schedule.driverOf id = id.toNat % max threads 1 := by
  rw [Schedule.driverOf, h.threads_eq]

theorem Sound.countP_beats (h : s.Sound threads starts) (hu : s.office.hired[b]? = some u) :
    s.beats.countP (·.badge = b) +
        s.rounds.countP (fun r => r.wake.driver = s.schedule.driverOf u.id ∧ b ∈ r.todo) =
      s.rounds.countP fun r =>
        r.wake.driver = s.schedule.driverOf u.id ∧ r.wake.roll[u.id]? = some b := by
  refine countP_flatMap_add fun r hr => ?_
  have hfits := h.fits r hr
  by_cases hroll : r.wake.roll[u.id]? = some b
  · have hseen := hfits.mem_seen_iff hroll
    rw [hfits.ticks u.id b hroll]
    by_cases hd : s.schedule.driverOf u.id = r.wake.driver
    · by_cases hb : b ∈ r.todo <;> simp [hd, hb, hroll, hseen]
    · simp [hd, Ne.symm hd]
  · -- a worker that was not registered is neither ticked nor to be visited
    have hnone : r.beats.countP (·.badge = b) = 0 := by
      refine List.countP_eq_zero.2 fun x hx hb => ?_
      obtain ⟨-, id, hid, -⟩ := hfits.source x hx
      rw [of_decide_eq_true hb] at hid
      obtain ⟨u', hu', rfl⟩ := hfits.exists_hired h.office hid
      cases hu.symm.trans hu'
      exact hroll hid
    have htodo : b ∉ r.todo := fun hb =>
      hroll (hfits.roll_of_mem h.office hu (List.mem_append_right _ hb))
    simp [hnone, htodo, hroll]

theorem Reaches.exists_wake (hst : Reaches direct inside s t) (hs : s.rounds = [])
    (hr : t.rounds[n]? = some r) : ∃ v d now, Reaches direct inside s v ∧
      v.rounds.length = n ∧ d ∈ v.schedule.drivers ∧ d.last ≤ now ∧
      r.wake = ⟨d.index, now, d.elapsed now, v.office.table⟩ := by
  induction hst generalizing r with
  | refl => simp [hs] at hr
  | @tail v w hsv hvw ih =>
    cases hvw with
    | work => exact ih hr
    | @wake d now l hd _ ht _ =>
      rcases getElem?_concat_iff.1 hr with hr | ⟨rfl, rfl⟩
      · exact ih hr
      · exact ⟨v, d, now, hsv, rfl, hd, ht, rfl⟩
    | visit hr' =>
      -- a visit leaves the wake of its round as it is
      rcases rounds_visited_cases hr' hr with ⟨rfl, rfl⟩ | ⟨-, hold⟩
      · obtain ⟨v', d, now, hv⟩ := ih hr'
        exact ⟨v', d, now, hv⟩
      · exact ih hold

theorem roster_visited (hs : s.office.Sound) (hu : s.office.hired[b]? = some u)
    (hb : s.office.table[u.id]? = some b) : (s.visited n r b todo u).office.roster =
      r.wake.serve s.schedule s.office.roster u.id := by
  unfold visited Wake.serve
  dsimp only
  split
  · exact (hs.roster_deliver hb hu _).1
  · rfl

theorem exists_reaches_round (direct : Prop) (inside : Nat → κ → Prop) (hs : s.office.Sound)
    (hr : s.rounds[n]? = some r) {l : List (FieldId × Nat)}
    (hl : ∀ x ∈ l, s.office.table[x.1]? = some x.2) (ht : r.todo = l.map Prod.snd) :
    ∃ t r', Reaches direct inside s t ∧ t.schedule = s.schedule ∧
      t.rounds = s.rounds.set n r' ∧ r'.wake = r.wake ∧ r'.todo = [] ∧
      t.office.roster =
        (l.map Prod.fst).foldl (r.wake.serve s.schedule) s.office.roster := by
  induction l generalizing s r with
  | nil =>
    obtain ⟨hlt, hget⟩ := List.getElem?_eq_some_iff.1 hr
    refine ⟨s, r, .refl, rfl, ?_, rfl, ht, rfl⟩
    rw [← hget, List.set_getElem_self]
  | cons x l ih =>
    obtain ⟨id, b⟩ := x
    have hb := hl _ List.mem_cons_self
    obtain ⟨u, hu, rfl, -⟩ := hs.get?_of_registered hb
    have hstep : Step direct inside s (s.visited n r b (l.map Prod.snd) u) := .visit s hr ht hu
    have hlen := (List.getElem?_eq_some_iff.1 hr).1
    obtain ⟨t, r', hreaches, hschedule, hrounds, hwake, htodo, hroster⟩ :=
      ih (sound_office_visited hs hu) (List.getElem?_set_self hlen)
        (fun x hx => table_visited.symm ▸ hl x (List.mem_cons_of_mem _ hx)) rfl
    refine ⟨t, r', .head hstep hreaches, hschedule, ?_, hwake, htodo, ?_⟩
    · exact hrounds.trans (List.set_set ..)
    · rw [hroster, roster_visited hs hu hb]
      rfl

theorem Sound.exists_reaches_wake (h : s.Sound threads starts) (direct : Prop)
    (inside : Nat → κ → Prop) {d : Driver} (hd : d ∈ s.schedule.drivers)
    (hq : ∀ r ∈ s.rounds, r.wake.driver = d.index → r.todo = []) {now : Nat} (hn : d.last ≤ now) :
    ∃ t r, Reaches direct inside s t ∧ t.schedule = s.schedule.woken d.index now ∧
      t.rounds = s.rounds ++ [r] ∧
      r.wake = ⟨d.index, now, d.elapsed now, s.office.table⟩ ∧ r.todo = [] ∧
      t.office.roster = (d.wake s.schedule now s.office.roster).value.2 := by
  have hwake : Step direct inside s (s.woken d now s.office.badges) := .wake s hd hq hn .rfl
  obtain ⟨t, r, hreaches, hschedule, hrounds, hr, htodo, hroster⟩ :=
    exists_reaches_round (s := s.woken d now s.office.badges) direct inside h.office
      List.getElem?_concat_length
      (fun _ hx => Std.ExtTreeMap.mem_toList_iff_getElem?_eq_some.1 hx) rfl
  refine ⟨t, r, .head hwake hreaches, hschedule, hrounds.trans (by simp [woken]), hr, htodo, ?_⟩
  rw [Driver.value_wake d s.schedule now _ s.office.table, h.office.ids_roster]
  exact hroster

/-- Whatever happens to the fields meanwhile, and whenever the drivers wake, each after the time it
woke before: every field belongs to one driver. A driver makes its rounds one after the other. A
round goes to those workers that were registered when the driver woke, each of them the worker of
the field that it is registered for; one that was visited got one tick if its field belongs to the
driver, and nobody else got any, and this tick is of the time that the driver measured. So a worker
has as many ticks as there were wakes of its driver with it registered, if one counts what is yet to
be visited. The times that a driver has measured add up to the time from its start to its last wake.
If a driver is left alone while it makes its round, what it does is what is done when it wakes. -/
theorem one_driver_per_field (config : FieldConfig) (npcField : FieldId) (direct : Prop)
    (inside : Nat → κ → Prop) (threads period : Nat) (starts : Nat → Nat) {o : Office κ}
    (ho : (Office.found config npcField).Reaches direct inside o) {s : Clockwork κ}
    (h : Reaches direct inside { schedule := .launch threads period starts, office := o } s) :
    (∀ id : FieldId, ∃! d, d ∈ s.schedule.drivers ∧ d.index = id.toNat % max threads 1) ∧
    (∀ (n m : Nat) (r r' : Round), n < m → s.rounds[n]? = some r → s.rounds[m]? = some r' →
      r.wake.driver = r'.wake.driver → r.todo = []) ∧
    (∀ n r, s.rounds[n]? = some r →
      (∃ v d now,
        Reaches direct inside { schedule := .launch threads period starts, office := o } v ∧
        v.rounds.length = n ∧ d ∈ v.schedule.drivers ∧ d.last ≤ now ∧
        r.wake = ⟨d.index, now, d.elapsed now, v.office.table⟩) ∧
      (∀ (id : FieldId) (b : Nat), r.wake.roll[id]? = some b →
        (∃ u, s.office.hired[b]? = some u ∧ u.id = id) ∧
        r.beats.countP (·.badge = b) =
          if id.toNat % max threads 1 = r.wake.driver ∧ b ∉ r.todo then 1 else 0) ∧
      ∀ x ∈ r.beats, x.dt = Driver.seconds r.wake.elapsed ∧ ∃ id : FieldId,
        r.wake.roll[id]? = some x.badge ∧ id.toNat % max threads 1 = r.wake.driver) ∧
    (∀ b u, s.office.hired[b]? = some u →
      s.beats.countP (·.badge = b) +
          s.rounds.countP (fun r =>
            r.wake.driver = u.id.toNat % max threads 1 ∧ b ∈ r.todo) =
        s.rounds.countP fun r =>
          r.wake.driver = u.id.toNat % max threads 1 ∧ r.wake.roll[u.id]? = some b) ∧
    ∀ d ∈ s.schedule.drivers,
      starts d.index + ((s.wakesOf d.index).map Wake.elapsed).sum = d.last ∧
      ((s.wakesOf d.index).map Wake.time).getLastD (starts d.index) = d.last ∧
      ((∀ r ∈ s.rounds, r.wake.driver = d.index → r.todo = []) → ∀ now, d.last ≤ now →
        ∃ t r, Reaches direct inside s t ∧ t.schedule = s.schedule.woken d.index now ∧
          t.rounds = s.rounds ++ [r] ∧
          r.wake = ⟨d.index, now, d.elapsed now, s.office.table⟩ ∧ r.todo = [] ∧
          t.office.roster = (d.wake s.schedule now s.office.roster).value.2) := by
  have hs := (sound_launch ((Office.sound_found config npcField).reaches ho) threads period
    starts).reaches h
  refine ⟨hs.existsUnique_driver, hs.settled, fun n r hr => ?_, fun b u hu => ?_, fun d hd => ?_⟩
  · have hfits := hs.fits r (List.mem_of_getElem? hr)
    refine ⟨h.exists_wake rfl hr, fun id b hid => ⟨hfits.exists_hired hs.office hid, ?_⟩,
      fun x hx => ?_⟩
    · rw [hfits.ticks id b hid, hs.driverOf_eq]
      exact if_congr (and_congr_right fun _ => hfits.mem_seen_iff hid) rfl rfl
    · obtain ⟨hdt, id, hid, hd⟩ := hfits.source x hx
      exact ⟨hdt, id, hid, hs.driverOf_eq id ▸ hd⟩
  · rw [← hs.driverOf_eq]
    exact hs.countP_beats hu
  · obtain ⟨hsum, hlast⟩ := hs.clock d hd
    exact ⟨hsum, hlast, fun hq now hn => hs.exists_reaches_wake direct inside hd hq hn⟩

/-- With no thread asked for there is one driver. While it makes its first round another field is
created, which has a tick less. -/
theorem one_driver_per_field_late : ∃ s : Clockwork Unit,
    Reaches False (fun _ _ => False)
      { schedule := .launch 0 50 fun _ => 3, office := (Office.found {} 1000).create 1 } s ∧
    s.beats.countP (·.badge = 0) = 2 ∧ s.beats.countP (·.badge = 1) = 1 := by
  have hrun : ∃ s : Clockwork Unit,
      Reaches False (fun _ _ => False)
        { schedule := .launch 0 50 fun _ => 3, office := (Office.found {} 1000).create 1 } s ∧
      (∃ u, s.office.hired[0]? = some u ∧ u.id = 1) ∧
      (∃ u, s.office.hired[1]? = some u ∧ u.id = 2) ∧
      s.rounds.map Round.todo = [[], []] ∧
      s.rounds.countP (fun r => r.wake.driver = (1 : FieldId).toNat % max 0 1 ∧
        r.wake.roll[(1 : FieldId)]? = some 0) = 2 ∧
      s.rounds.countP (fun r => r.wake.driver = (2 : FieldId).toNat % max 0 1 ∧
        r.wake.roll[(2 : FieldId)]? = some 1) = 1 :=
    ⟨_,
      .head (.wake (d := ⟨0, 3⟩) (t := 5) (l := [0]) _ (by decide) (List.forall_mem_nil _)
        (by decide) (by decide +kernel)) <|
      .head (.work _ (.create _ 2 .byId)) <|
      .head (.visit (n := 0) _ rfl rfl rfl) <|
      .head (.wake (d := ⟨0, 5⟩) (t := 9) (l := [0, 1]) _ (by decide)
        (List.forall_mem_singleton.2 fun _ => rfl) (by decide) (by decide +kernel)) <|
      .head (.visit (n := 1) _ rfl rfl rfl) <|
      .head (.visit (n := 1) _ rfl rfl rfl) .refl,
      ⟨_, rfl, rfl⟩, ⟨_, rfl, rfl⟩, rfl, rfl, rfl⟩
  obtain ⟨s, hreaches, ⟨u, hu, hid⟩, ⟨u', hu', hid'⟩, hdone, hfirst, hlate⟩ := hrun
  obtain ⟨-, -, -, hcount, -⟩ := one_driver_per_field {} 1000 False (fun _ _ => False) 0 50
    (fun _ => 3) (.single (.create _ 1 .byId)) hreaches
  have htodo : ∀ i b, s.rounds.countP (fun r => r.wake.driver = i ∧ b ∈ r.todo) = 0 := by
    intro i b
    refine List.countP_eq_zero.2 fun r hr => ?_
    have hmem := List.mem_map_of_mem (f := Round.todo) hr
    rw [hdone] at hmem
    have hnil : r.todo = [] := by simpa using hmem
    simp [hnil]
  have hone := hcount 0 u hu
  have htwo := hcount 1 u' hu'
  rw [htodo, hid, hfirst] at hone
  rw [htodo, hid', hlate] at htwo
  exact ⟨s, hreaches, hone, htwo⟩

end Clockwork
end Fieldwatch
