import Fieldwatch.Schedule
import Fieldwatch.Proofs.Roster.Standing
import Mathlib.Algebra.Ring.Nat

/-! The drivers of a schedule at work while several callers use the office. A driver that wakes
looks at the clock and at who is registered, and then visits all of these workers, one after the
other; it has a tick for those that belong to it. Between two visits anything may happen: fields
come and go, workers are stopped, other drivers wake and make their rounds. Only its own next wake
has to wait until a driver is through with its round. -/

namespace Fieldwatch

variable {κ : Type}

namespace Schedule

def launch (threads period : Nat) (starts : Nat → Nat) : Schedule :=
  { create threads period with
    drivers := (List.range (create threads period).threads).map fun i => ⟨i, starts i⟩ }

theorem start_create (threads period now : Nat) :
    (create threads period).start now = launch threads period fun _ => now := rfl

def woken (s : Schedule) (i t : Nat) : Schedule :=
  { s with drivers := s.drivers.map fun d => if d.index = i then { d with last := t } else d }

end Schedule

structure Wake where
  driver : Nat
  time : Nat
  elapsed : Nat
  roll : Std.ExtTreeMap FieldId Nat

structure Beat where
  badge : Nat
  dt : Float32

structure Round where
  wake : Wake
  seen : List Nat := []
  todo : List Nat
  beats : List Beat := []

def Round.visit (r : Round) (b : Nat) (todo : List Nat) (own : Bool) : Round :=
  { r with
    seen := r.seen ++ [b]
    todo := todo
    beats := r.beats ++ if own then [⟨b, Driver.seconds r.wake.elapsed⟩] else [] }

structure Clockwork (κ : Type) where
  schedule : Schedule
  office : Office κ
  rounds : List Round := []

namespace Clockwork

def beats (s : Clockwork κ) : List Beat := s.rounds.flatMap Round.beats

def woken (s : Clockwork κ) (d : Driver) (t : Nat) (l : List Nat) : Clockwork κ :=
  { s with
    schedule := s.schedule.woken d.index t
    rounds := s.rounds ++ [{ wake := ⟨d.index, t, d.elapsed t, s.office.table⟩, todo := l }] }

def visited (s : Clockwork κ) (n : Nat) (r : Round) (b : Nat) (todo : List Nat)
    (u : Tenure κ Unit) : Clockwork κ :=
  { s with
    office :=
      if s.schedule.driverOf u.id = r.wake.driver then
        s.office.place b (u.push (.tick (Driver.seconds r.wake.elapsed)))
      else s.office
    rounds := s.rounds.set n (r.visit b todo (s.schedule.driverOf u.id = r.wake.driver)) }

variable [DecidableEq κ]

/-- What may happen next. A driver finds the workers in whatever order. -/
inductive Step (direct : Prop) (inside : Nat → κ → Prop) : Clockwork κ → Clockwork κ → Prop
  | work (s : Clockwork κ) {o : Office κ} (ho : s.office.Step direct inside o) :
      Step direct inside s { s with office := o }
  | wake (s : Clockwork κ) {d : Driver} {t : Nat} {l : List Nat} (hd : d ∈ s.schedule.drivers)
      (hq : ∀ r ∈ s.rounds, r.wake.driver = d.index → r.todo = []) (ht : d.last ≤ t)
      (hl : l.Perm s.office.badges) : Step direct inside s (s.woken d t l)
  | visit (s : Clockwork κ) {n : Nat} {r : Round} {b : Nat} {todo : List Nat} {u : Tenure κ Unit}
      (hr : s.rounds[n]? = some r) (ht : r.todo = b :: todo) (hu : s.office.hired[b]? = some u) :
      Step direct inside s (s.visited n r b todo u)

def Reaches (direct : Prop) (inside : Nat → κ → Prop) : Clockwork κ → Clockwork κ → Prop :=
  Relation.ReflTransGen (Step direct inside)

end Clockwork

/-- A round goes to those who were registered when it began, once to each. Who was visited has got a
tick if its field belongs to the driver, and nobody else has got any. -/
structure Round.Fits (owner : FieldId → Nat) (opened : List (Nat × FieldId)) (r : Round) :
    Prop where
  roll : ∃ e : Nat, ∀ (id : FieldId) (b : Nat),
    r.wake.roll[id]? = some b → opened[b]? = some (e, id)
  visits : (r.seen ++ r.todo).Perm (r.wake.roll.toList.map Prod.snd)
  nodup : (r.seen ++ r.todo).Nodup
  ticks : ∀ (id : FieldId) (b : Nat), r.wake.roll[id]? = some b →
    r.beats.countP (·.badge = b) =
      if owner id = r.wake.driver ∧ b ∈ r.seen then 1 else 0
  source : ∀ x ∈ r.beats, x.dt = Driver.seconds r.wake.elapsed ∧
    ∃ id : FieldId, r.wake.roll[id]? = some x.badge ∧ owner id = r.wake.driver

namespace Round.Fits

variable {owner : FieldId → Nat} {opened : List (Nat × FieldId)} {r : Round} {b : Nat}
  {id : FieldId}

theorem mono {new : List (Nat × FieldId)} (h : r.Fits owner opened) (hp : opened <+: new) :
    r.Fits owner new := by
  obtain ⟨e, he⟩ := h.roll
  obtain ⟨rest, rfl⟩ := hp
  refine { h with roll := ⟨e, fun id b hb => ?_⟩ }
  exact getElem?_append_of_some (he id b hb)

theorem mem_of_roll (h : r.Fits owner opened) (hid : r.wake.roll[id]? = some b) :
    b ∈ r.seen ++ r.todo :=
  h.visits.mem_iff.2
    (List.mem_map.2 ⟨(id, b), Std.ExtTreeMap.mem_toList_iff_getElem?_eq_some.2 hid, rfl⟩)

theorem mem_seen_iff (h : r.Fits owner opened) (hid : r.wake.roll[id]? = some b) :
    b ∈ r.seen ↔ b ∉ r.todo := by
  refine ⟨fun hs ht => (List.nodup_append.1 h.nodup).2.2 b hs b ht rfl, fun ht => ?_⟩
  exact (List.mem_append.1 (h.mem_of_roll hid)).resolve_right ht

theorem eq_of_roll (h : r.Fits owner opened) {id' : FieldId} (hid : r.wake.roll[id]? = some b)
    (hid' : r.wake.roll[id']? = some b) : id = id' := by
  obtain ⟨e, he⟩ := h.roll
  exact (Prod.mk.inj (Option.some.inj ((he id b hid).symm.trans (he id' b hid')))).2

theorem exists_hired [DecidableEq κ] {o : Office κ} (h : r.Fits owner o.opened) (ho : o.Sound)
    (hid : r.wake.roll[id]? = some b) : ∃ u, o.hired[b]? = some u ∧ u.id = id := by
  obtain ⟨e, he⟩ := h.roll
  exact ho.exists_hired (he id b hid)

theorem roll_of_mem [DecidableEq κ] {o : Office κ} (h : r.Fits owner o.opened) (ho : o.Sound)
    {u : Tenure κ Unit} (hu : o.hired[b]? = some u) (hb : b ∈ r.seen ++ r.todo) :
    r.wake.roll[u.id]? = some b := by
  obtain ⟨⟨id, j⟩, hmem, rfl⟩ := List.mem_map.1 (h.visits.mem_iff.1 hb)
  have hid := Std.ExtTreeMap.mem_toList_iff_getElem?_eq_some.1 hmem
  obtain ⟨u', hu', rfl⟩ := h.exists_hired ho hid
  cases hu.symm.trans hu'
  exact hid

theorem visit (h : r.Fits owner opened) {rest : List Nat} (ht : r.todo = b :: rest)
    (hid : r.wake.roll[id]? = some b) :
    (r.visit b rest (owner id = r.wake.driver)).Fits owner opened := by
  have hsplit : r.seen ++ [b] ++ rest = r.seen ++ r.todo := by simp [ht]
  have hnew : b ∉ r.seen := fun hs => (h.mem_seen_iff hid).1 hs (ht ▸ List.mem_cons_self)
  refine ⟨h.roll, hsplit ▸ h.visits, hsplit ▸ h.nodup, fun id' c hid' => ?_, fun x hx => ?_⟩
  · have hticks := h.ticks id' c hid'
    rw [Round.visit, List.countP_append, hticks]
    by_cases hc : c = b
    · subst hc
      obtain rfl := h.eq_of_roll hid hid'
      by_cases hd : owner id = r.wake.driver <;> simp [hd, hnew]
    · by_cases hd : owner id = r.wake.driver <;> simp [hd, hc, Ne.symm hc]
  · rcases List.mem_append.1 hx with hx | hx
    · exact h.source x hx
    · split at hx
      · next hd =>
        rw [List.mem_singleton.1 hx]
        exact ⟨rfl, id, hid, of_decide_eq_true hd⟩
      · cases hx

end Round.Fits

namespace Clockwork

variable {s : Clockwork κ} {n : Nat} {r : Round} {b : Nat} {todo : List Nat} {u : Tenure κ Unit}

def wakesOf (s : Clockwork κ) (i : Nat) : List Wake :=
  (s.rounds.map Round.wake).filter (·.driver = i)

theorem wakesOf_visited (hr : s.rounds[n]? = some r) (i : Nat) :
    (s.visited n r b todo u).wakesOf i = s.wakesOf i := by
  have hmap : (s.visited n r b todo u).rounds.map Round.wake = s.rounds.map Round.wake :=
    map_set_of_eq hr rfl
  rw [wakesOf, hmap]
  rfl

theorem wakesOf_woken (d : Driver) (t : Nat) (l : List Nat) (i : Nat) :
    (s.woken d t l).wakesOf i = s.wakesOf i ++
      if d.index = i then [⟨d.index, t, d.elapsed t, s.office.table⟩] else [] := by
  rw [wakesOf, woken, List.map_append, List.filter_append, wakesOf]
  congr 1
  by_cases hi : d.index = i <;> simp [hi]

theorem rounds_visited_cases (hr : s.rounds[n]? = some r) {m : Nat} {r' : Round}
    (hm : (s.visited n r b todo u).rounds[m]? = some r') :
    m = n ∧ r' = r.visit b todo (s.schedule.driverOf u.id = r.wake.driver) ∨
      m ≠ n ∧ s.rounds[m]? = some r' := by
  change (s.rounds.set n _)[m]? = some r' at hm
  by_cases hmn : m = n
  · subst hmn
    rw [List.getElem?_set_self (List.getElem?_eq_some_iff.1 hr).1] at hm
    exact .inl ⟨rfl, (Option.some.inj hm).symm⟩
  · rw [List.getElem?_set_ne (Ne.symm hmn)] at hm
    exact .inr ⟨hmn, hm⟩

theorem table_visited : (s.visited n r b todo u).office.table = s.office.table := by
  unfold visited
  dsimp only
  split <;> rfl

theorem opened_visited : (s.visited n r b todo u).office.opened = s.office.opened := by
  unfold visited
  dsimp only
  split <;> rfl

theorem sound_office_visited [DecidableEq κ] (h : s.office.Sound)
    (hu : s.office.hired[b]? = some u) : (s.visited n r b todo u).office.Sound := by
  unfold visited
  dsimp only
  split
  · obtain ⟨hsound, hspawned⟩ := h.workers u (List.mem_of_getElem? hu)
    exact h.place hu (hsound.push trivial) hspawned rfl
  · exact h

structure Sound [DecidableEq κ] (threads : Nat) (starts : Nat → Nat) (s : Clockwork κ) : Prop where
  office : s.office.Sound
  threads_eq : s.schedule.threads = max threads 1
  indices : s.schedule.drivers.map Driver.index = List.range s.schedule.threads
  fits : ∀ r ∈ s.rounds, r.Fits s.schedule.driverOf s.office.opened
  settled : ∀ (n m : Nat) (r r' : Round), n < m → s.rounds[n]? = some r → s.rounds[m]? = some r' →
    r.wake.driver = r'.wake.driver → r.todo = []
  clock : ∀ d ∈ s.schedule.drivers,
    starts d.index + ((s.wakesOf d.index).map Wake.elapsed).sum = d.last ∧
    ((s.wakesOf d.index).map Wake.time).getLastD (starts d.index) = d.last

section Sound

variable [DecidableEq κ] {threads : Nat} {starts : Nat → Nat}

theorem sound_launch {o : Office κ} (ho : o.Sound) (threads period : Nat) (starts : Nat → Nat) :
    Sound threads starts { schedule := .launch threads period starts, office := o } where
  office := ho
  threads_eq := rfl
  indices := by
    rw [Schedule.launch, List.map_map]
    exact List.map_id _
  fits := List.forall_mem_nil _
  settled _ _ _ _ _ hr := by simp at hr
  clock d hd := by
    obtain ⟨i, -, rfl⟩ := List.mem_map.1 hd
    exact ⟨rfl, rfl⟩

theorem Sound.work (h : s.Sound threads starts) {direct : Prop} {inside : Nat → κ → Prop}
    {o : Office κ} (ho : s.office.Step direct inside o) :
    Sound threads starts { s with office := o } :=
  { h with
    office := h.office.step ho
    fits := fun r hr => (h.fits r hr).mono ho.opened_prefix }

theorem Sound.wake (h : s.Sound threads starts) {d : Driver} (hd : d ∈ s.schedule.drivers)
    (hq : ∀ r ∈ s.rounds, r.wake.driver = d.index → r.todo = []) {t : Nat} (ht : d.last ≤ t)
    {l : List Nat} (hl : l.Perm s.office.badges) : (s.woken d t l).Sound threads starts where
  office := h.office
  threads_eq := h.threads_eq
  indices := by
    have hindex : ∀ e : Driver, (if e.index = d.index then { e with last := t } else e).index =
        e.index := fun e => by split <;> rfl
    change (s.schedule.drivers.map _).map Driver.index = _
    rw [List.map_map]
    exact (List.map_congr_left fun e _ => hindex e).trans h.indices
  fits r hr := by
    rcases List.mem_append.1 hr with hr | hr
    · exact h.fits r hr
    · rw [List.mem_singleton.1 hr]
      exact ⟨⟨s.office.era, fun id b => (h.office.registered id b).1⟩, hl,
        hl.nodup_iff.2 h.office.nodup_badges, by simp, List.forall_mem_nil _⟩
  settled n m r r' hnm hr hr' heq := by
    rcases getElem?_concat_iff.1 hr' with hr' | ⟨rfl, rfl⟩
    · refine h.settled n m r r' hnm ?_ hr' heq
      have hlt := (List.getElem?_eq_some_iff.1 hr').1
      exact (getElem?_concat_iff.1 hr).resolve_right fun hlast => by omega
    · have hold := (getElem?_concat_iff.1 hr).resolve_right fun hlast => by omega
      exact hq r (List.mem_of_getElem? hold) heq
  clock e he := by
    obtain ⟨e, hold, rfl⟩ := List.mem_map.1 he
    obtain ⟨hsum, hlast⟩ := h.clock e hold
    rw [wakesOf_woken]
    by_cases hi : e.index = d.index
    · -- both drivers are the one that has woken
      obtain ⟨hsum', -⟩ := h.clock d hd
      rw [if_pos hi, if_pos hi.symm, hi, List.map_append, List.map_append, List.sum_append]
      refine ⟨?_, by simp⟩
      change _ + (_ + (d.elapsed t + 0)) = t
      unfold Driver.elapsed
      omega
    · rw [if_neg hi, if_neg (Ne.symm hi), List.append_nil]
      exact ⟨hsum, hlast⟩

theorem Sound.visit (h : s.Sound threads starts) (hr : s.rounds[n]? = some r)
    (ht : r.todo = b :: todo) (hu : s.office.hired[b]? = some u) :
    (s.visited n r b todo u).Sound threads starts where
  office := sound_office_visited h.office hu
  threads_eq := h.threads_eq
  indices := h.indices
  fits r' hr' := by
    have hfits := h.fits r (List.mem_of_getElem? hr)
    have hb : b ∈ r.seen ++ r.todo := List.mem_append_right _ (ht ▸ List.mem_cons_self)
    rw [opened_visited]
    rcases List.mem_or_eq_of_mem_set hr' with hr' | rfl
    · exact h.fits r' hr'
    · exact hfits.visit ht (hfits.roll_of_mem h.office hu hb)
  settled m m' r' r'' hlt hm hm' heq := by
    -- a driver that has somebody to visit has begun no later round
    rcases rounds_visited_cases hr hm with ⟨rfl, rfl⟩ | ⟨-, hold⟩ <;>
      rcases rounds_visited_cases hr hm' with ⟨rfl, rfl⟩ | ⟨-, hold'⟩
    · omega
    · cases ht.symm.trans (h.settled m m' r r'' hlt hr hold' heq)
    · exact h.settled m m' r' r hlt hold hr heq
    · exact h.settled m m' r' r'' hlt hold hold' heq
  clock d hd := by
    rw [wakesOf_visited hr]
    exact h.clock d hd

theorem Sound.step (h : s.Sound threads starts) {direct : Prop} {inside : Nat → κ → Prop}
    {t : Clockwork κ} (hst : Step direct inside s t) : t.Sound threads starts := by
  cases hst with
  | work ho => exact h.work ho
  | wake hd hq ht hl => exact h.wake hd hq ht hl
  | visit hr ht hu => exact h.visit hr ht hu

theorem Sound.reaches (h : s.Sound threads starts) {direct : Prop} {inside : Nat → κ → Prop}
    {t : Clockwork κ} (hst : Reaches direct inside s t) : t.Sound threads starts := by
  induction hst with
  | refl => exact h
  | tail _ hst ih => exact ih.step hst

end Sound

end Clockwork

end Fieldwatch
