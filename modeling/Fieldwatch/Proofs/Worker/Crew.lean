import Fieldwatch.Proofs.Worker.Course
import Mathlib.Algebra.BigOperators.Fin
import Mathlib.Algebra.Order.BigOperators.Group.Finset

/-! Several workers that share their counters, each with those who call it. A start puts a worker on
the count of active ones and the stop that has closed it takes it off, each of them once; so the
count shows how many workers run whenever nobody is in the middle of starting or stopping one. -/

namespace Fieldwatch

variable {ι κ β : Type}

def Message.SparesActivity (m : Message β) : Prop :=
  ∀ f : Field β, Counter.fieldsActive.balance (f.handle m).log = 0

theorem Message.IsFair.sparesActivity {m : Message β} (hm : m.IsFair) : m.SparesActivity := by
  intro f
  obtain ⟨ds, ending, hds, hhandle⟩ := f.exists_run_of_fair hm
  have hdomestic := Field.domestic_run f fun d hd => (hds d hd).not_isJob
  rw [hhandle, Emit.log_map]
  exact hdomestic.balance_eq (by decide)

namespace Worker

variable {w : Worker β}

theorem activity_push (w : Worker β) (m : Message β) :
    Counter.fieldsActive.balance (w.push m).log = 0 := by
  unfold push
  split
  · exact Tally.activity.balance_raise (by decide) 1
  · split
    · exact Tally.activity.balance_raise (by decide) 1
    · exact Tally.activity.balance_raise (by decide) 1

theorem activity_finish {m : Message β} (hl : w.loop = .handling m) (hm : m.SparesActivity) :
    Counter.fieldsActive.balance w.finish.log = 0 := by
  have hend : ∀ ending : Ending, Counter.fieldsActive.balance
      (if ending = .completed then [] else [.raise .handlerPanics 1]) = 0 := by
    intro ending
    split
    · rfl
    · exact Tally.activity.balance_raise (by decide) 1
  have hprocessed := Tally.activity.balance_raise (c := .messagesProcessed) (by decide) 1
  rw [finish_eq hl, ← List.singleton_append, Counter.balance_append, Counter.balance_append, hm,
    hend, Int.add_zero]
  exact hprocessed

end Worker

namespace Tenure

def Active (s : Tenure κ β) : Prop := s.worker.stage = .running ∨ ∃ k, s.halts k ≠ none

def Counted (s : Tenure κ β) : Prop :=
  s.Active ∧ s.spawned = s.settled + 1 ∨ ¬ s.Active ∧ s.spawned = s.settled

inductive Turnover (s : Tenure κ β) (l : List Effect) (t : Tenure κ β) : Prop
  | stays (ha : t.Active ↔ s.Active) (hsp : t.spawned = s.spawned) (hse : t.settled = s.settled)
      (hb : Counter.fieldsActive.balance l = 0)
  | joins (hs : ¬ s.Active) (ht : t.Active) (hsp : t.spawned = s.spawned + 1)
      (hse : t.settled = s.settled) (hb : Counter.fieldsActive.balance l = 1)
  | leaves (hs : s.Active) (ht : ¬ t.Active) (hsp : t.spawned = s.spawned)
      (hse : t.settled = s.settled + 1) (hb : Counter.fieldsActive.balance l = -1)

variable {s t : Tenure κ β} {l : List Effect}

theorem Turnover.counted (h : Turnover s l t) (hs : s.Counted) : t.Counted := by
  unfold Counted at hs ⊢
  cases h with
  | stays ha hsp hse => rwa [ha, hsp, hse]
  | joins hsa ht hsp hse =>
    rcases hs with ⟨hs, -⟩ | ⟨-, hs⟩
    · exact (hsa hs).elim
    · exact .inl ⟨ht, by rw [hsp, hse, hs]⟩
  | leaves hsa ht hsp hse =>
    rcases hs with ⟨-, hs⟩ | ⟨hs, -⟩
    · exact .inr ⟨ht, by rw [hsp, hse, hs]⟩
    · exact (hs hsa).elim

theorem Turnover.balance_eq (h : Turnover s l t) : Counter.fieldsActive.balance l =
    ((t.spawned : Int) - t.settled) - (s.spawned - s.settled) := by
  cases h with
  | stays _ hsp hse hb | joins _ _ hsp hse hb | leaves _ _ hsp hse hb =>
    rw [hsp, hse, hb]
    omega

theorem active_congr (hs : t.worker.stage = s.worker.stage) (hh : t.halts = s.halts) :
    t.Active ↔ s.Active := by
  unfold Active
  rw [hs, hh]

theorem active_of_call {c : Call} {g : Stage} (hk : s.calls k = some c) (hc : c.stage? = some g) :
    s.Active := by
  have hhalts : s.halts k = some g := by
    rw [halts, hk]
    exact hc
  exact .inr ⟨k, by rw [hhalts]; exact nofun⟩

section Steps

variable [DecidableEq κ] {P : Message β → Prop} {inside : κ → Prop} {k : κ} {c : Option Call}

theorem halts_turn (s : Tenure κ β) (k : κ) (c : Option Call) :
    (s.turn k c).halts = Function.update s.halts k (c.bind Call.stage?) :=
  Function.comp_update (fun c : Option Call => c.bind Call.stage?) s.calls k c

theorem halts_turn_of_eq (hc : c.bind Call.stage? = s.halts k) : (s.turn k c).halts = s.halts := by
  rw [halts_turn, hc, Function.update_eq_self]

theorem active_turn {c : Call} {g : Stage} (hc : c.stage? = some g) {w : Worker β}
    {last : LastMail} : Active { s.turn k (some c) with worker := w, last := last } :=
  active_of_call (k := k) (Function.update_self ..) hc

theorem Sound.halts_eq_none (h : s.Sound P)
    (hs : s.worker.stage = .created ∨ s.worker.stage = .running) : s.halts = fun _ => none :=
  h.ruled.orderly.eq_none hs

theorem Sound.turnover_start (h : s.Sound P) (hk : s.calls k = some .start) :
    Turnover s s.worker.start.log (s.start.turn k none) := by
  have hpast : (none : Option Call).bind Call.stage? = s.halts k := by
    rw [halts, hk]
    rfl
  by_cases hs : s.worker.stage = .created
  · have hnot : ¬ s.Active := by
      rintro (hr | ⟨j, hj⟩)
      · cases hs.symm.trans hr
      · exact hj (congrFun (h.halts_eq_none (.inl hs)) j)
    rw [start_of_created hs, Worker.start_of_created hs]
    exact .joins hnot (.inl rfl) rfl rfl rfl
  · rw [start_of_ne hs, Worker.start_of_ne hs]
    exact .stays (active_congr rfl (halts_turn_of_eq hpast)) rfl rfl rfl

theorem Sound.turnover_close (h : s.Sound P) (hk : s.calls k = some .stop) : Turnover s []
    { s.turn k (if s.worker.stage = .running then some .post else none) with
      worker := s.worker.close } := by
  have hpast : (none : Option Call).bind Call.stage? = s.halts k := by
    rw [halts, hk]
    rfl
  rcases hs : s.worker.stage with _ | _ | _ | _
  case created =>
    have hnone := h.halts_eq_none (.inl hs)
    have hnot : ¬ s.Active := by
      rintro (hr | ⟨j, hj⟩)
      · cases hs.symm.trans hr
      · exact hj (congrFun hnone j)
    rw [Worker.close_of_created hs]
    refine .stays (iff_of_false ?_ hnot) rfl rfl rfl
    rintro (hr | ⟨j, hj⟩)
    · cases hr
    · exact hj ((congrFun (halts_turn_of_eq hpast) j).trans (congrFun hnone j))
  case running => exact .stays (iff_of_true (active_turn rfl) (.inl hs)) rfl rfl rfl
  case stopping =>
    rw [Worker.close_of_late (.inl hs)]
    exact .stays (active_congr rfl (halts_turn_of_eq hpast)) rfl rfl rfl
  case stopped =>
    rw [Worker.close_of_late (.inr hs)]
    exact .stays (active_congr rfl (halts_turn_of_eq hpast)) rfl rfl rfl

theorem Sound.turnover_settle (h : s.Sound P) {owed : List Effect}
    (hk : s.calls k = some (.settle owed)) :
    Turnover s owed { s.turn k none with settled := s.settled + 1 } := by
  obtain ⟨hs, hothers⟩ := h.ruled.stage_eq hk rfl
  have howed := h.ruled.owed_eq hk
  refine .leaves (active_of_call hk rfl) ?_ rfl rfl (howed ▸ rfl)
  rintro (hr | ⟨j, hj⟩)
  · cases hs.symm.trans hr
  · have hhalts := congrFun (halts_turn s k none) j
    by_cases hjk : j = k
    · subst hjk
      exact hj (hhalts.trans (Function.update_self ..))
    · refine hj (hhalts.trans ((Function.update_of_ne hjk ..).trans ?_))
      rw [halts, Option.bind_eq_none_iff]
      exact hothers j hjk

theorem Sound.turnover (h : s.Sound P) (hP : ∀ m, P m → m.SparesActivity)
    (hst : Step P inside s l t) : Turnover s l t := by
  have hidle : ∀ {k c}, s.calls k = none → Call.stage? c = none →
      (some c).bind Call.stage? = s.halts k := by
    intro k c hk hc
    rw [halts, hk]
    exact hc
  cases hst with
  | push =>
    exact .stays (active_congr (s.worker.stage_push _) rfl) rfl rfl (s.worker.activity_push _)
  | callStart hk | callStop hk =>
    exact .stays (active_congr rfl (halts_turn_of_eq (hidle hk rfl))) rfl rfl rfl
  | start hk => exact h.turnover_start hk
  | close hk => exact h.turnover_close hk
  | post hk | postWithin hk | join hk | retire hk =>
    exact .stays (iff_of_true (active_turn rfl) (active_of_call hk rfl)) rfl rfl rfl
  | settle hk => exact h.turnover_settle hk
  | receive => exact .stays (active_congr s.worker.stage_receive rfl) rfl rfl rfl
  | @finish m hl =>
    have hmem : m ∈ s.accepted := by
      rw [h.order, Worker.unhandled, Worker.inHand, hl]
      exact List.mem_append_right _ (List.mem_append_left _ List.mem_cons_self)
    exact .stays (active_congr s.worker.stage_finish rfl) rfl rfl
      (Worker.activity_finish hl (hP _ (h.tame _ hmem)))

end Steps

end Tenure
structure Crew (ι κ β : Type) where
  tenure : ι → Tenure κ β
  counters : Counters := {}

namespace Crew

def init (field : ι → Field β) (capacity : ι → Nat) : Crew ι κ β :=
  { tenure := fun i => .init (field i) (capacity i) }

def Quiet (c : Crew ι κ β) : Prop := ∀ i k, (c.tenure i).calls k = none

section Count

variable [Fintype ι]

def due (c : Crew ι κ β) : Int := ∑ i, (((c.tenure i).spawned : Int) - (c.tenure i).settled)

theorem due_update [DecidableEq ι] (c : Crew ι κ β) (i : ι) (t : Tenure κ β) (counters : Counters) :
    due { tenure := Function.update c.tenure i t, counters := counters } = c.due +
      ((t.spawned - t.settled) - ((c.tenure i).spawned - (c.tenure i).settled)) := by
  let share : Tenure κ β → Int := fun s => s.spawned - s.settled
  have hshare : ∀ j, share (Function.update c.tenure i t j) =
      Function.update (fun j => share (c.tenure j)) i (share t) j :=
    Function.apply_update (fun _ => share) c.tenure i t
  change ∑ j, share (Function.update c.tenure i t j) = ∑ j, share (c.tenure j) +
    (share t - share (c.tenure i))
  rw [Finset.sum_congr rfl fun j _ => hshare j, Finset.sum_update_of_mem (Finset.mem_univ i),
    ← Finset.add_sum_erase _ _ (Finset.mem_univ i), Finset.sdiff_singleton_eq_erase]
  omega

variable [DecidableEq κ] {P : Message β → Prop} {c : Crew ι κ β}

structure Sound (P : Message β → Prop) (c : Crew ι κ β) : Prop where
  sound : ∀ i, (c.tenure i).Sound P
  counted : ∀ i, (c.tenure i).Counted
  shown : c.counters.get .fieldsActive = UInt64.ofInt c.due

theorem sound_init (P : Message β → Prop) (field : ι → Field β) (capacity : ι → Nat) :
    (init field capacity : Crew ι κ β).Sound P where
  sound i := Tenure.sound_init P (field i) (capacity i)
  counted i := .inr ⟨fun ha => by rcases ha with ha | ⟨k, hk⟩ <;> [cases ha; exact hk rfl], rfl⟩
  shown := by
    have hdue : (init field capacity : Crew ι κ β).due = 0 := Finset.sum_eq_zero fun _ _ => rfl
    rw [hdue]
    rfl

theorem Sound.counters_eq (h : c.Sound P) : c.counters.get .fieldsActive =
    UInt64.ofNat (∑ i, ((c.tenure i).spawned - (c.tenure i).settled)) := by
  have hdue : c.due = ((∑ i, ((c.tenure i).spawned - (c.tenure i).settled) : Nat) : Int) := by
    rw [due, Nat.cast_sum]
    refine Finset.sum_congr rfl fun i _ => ?_
    rcases h.counted i with ⟨-, hspawned⟩ | ⟨-, hspawned⟩ <;> omega
  rw [h.shown, hdue, Tally.ofInt_natCast]

theorem Sound.sum_eq_card (h : c.Sound P) (hq : c.Quiet) :
    ∑ i, ((c.tenure i).spawned - (c.tenure i).settled) =
      (Finset.univ.filter fun i => (c.tenure i).worker.stage = .running).card := by
  rw [Finset.card_filter]
  refine Finset.sum_congr rfl fun i _ => ?_
  have hactive : (c.tenure i).Active ↔ (c.tenure i).worker.stage = .running := by
    refine or_iff_left ?_
    rintro ⟨k, hk⟩
    rw [Tenure.halts, hq i k] at hk
    exact hk rfl
  rcases h.counted i with ⟨ha, hspawned⟩ | ⟨ha, hspawned⟩
  · rw [if_pos (hactive.1 ha)]
    omega
  · rw [if_neg fun hr => ha (hactive.2 hr)]
    omega

end Count

variable [DecidableEq ι] [DecidableEq κ]

inductive Step (P : Message β → Prop) (inside : ι → κ → Prop) : Crew ι κ β → Crew ι κ β → Prop
  | work (c : Crew ι κ β) {i : ι} {l : List Effect} {t : Tenure κ β}
      (hst : (c.tenure i).Step P (inside i) l t) (us : UInt64) : Step P inside c
        { tenure := Function.update c.tenure i t
          counters := l.foldl (Counters.apply us) c.counters }

def Reaches (P : Message β → Prop) (inside : ι → κ → Prop) : Crew ι κ β → Crew ι κ β → Prop :=
  Relation.ReflTransGen (Step P inside)

variable {P : Message β → Prop} {inside : ι → κ → Prop} {c d : Crew ι κ β}

theorem Step.each (hst : Step P inside c d) (i : ι) :
    d.tenure i = c.tenure i ∨ ∃ l, (c.tenure i).Step P (inside i) l (d.tenure i) := by
  cases hst with
  | @work j l t hst us =>
    by_cases hi : i = j
    · subst hi
      refine .inr ⟨l, ?_⟩
      dsimp only
      rwa [Function.update_self]
    · exact .inl (Function.update_of_ne hi ..)

theorem Reaches.each (hst : Reaches P inside c d) (i : ι) :
    (c.tenure i).Reaches P (inside i) (d.tenure i) := by
  induction hst with
  | refl => exact .refl
  | tail _ hst ih =>
    rcases hst.each i with heq | hstep
    · exact heq ▸ ih
    · exact ih.tail hstep

variable [Fintype ι]

theorem Sound.step (h : c.Sound P) (hP : ∀ m, P m → m.SparesActivity) (hst : Step P inside c d) :
    d.Sound P := by
  have hsound : ∀ i, (d.tenure i).Sound P := by
    intro i
    rcases hst.each i with heq | ⟨l, hstep⟩
    · exact heq ▸ h.sound i
    · exact (h.sound i).step hstep
  have hcounted : ∀ i, (d.tenure i).Counted := by
    intro i
    rcases hst.each i with heq | ⟨l, hstep⟩
    · exact heq ▸ h.counted i
    · exact ((h.sound i).turnover hP hstep).counted (h.counted i)
  refine ⟨hsound, hcounted, ?_⟩
  cases hst with
  | @work i l t hst us =>
    -- the counter moves by the balance of the effects, the sum by what the worker contributes
    rw [due_update, UInt64.ofInt_add, ← h.shown, ← ((h.sound i).turnover hP hst).balance_eq]
    exact Tally.activity.get_foldl_apply us l c.counters

theorem Sound.reaches (h : c.Sound P) (hP : ∀ m, P m → m.SparesActivity)
    (hst : Reaches P inside c d) : d.Sound P := by
  induction hst with
  | refl => exact h
  | tail _ hst ih => exact ih.step hP hst

/-- Whatever is done with a few workers, whoever does it: a worker only ever goes on to the next of
its stages. Its loop is spawned once at most, and a stop takes it off the count once at most. Once a
stop has begun, no loop is spawned any more and no push is accepted. As long as nobody is in the
middle of starting or stopping one of them, each is as it was created, or runs, or is stopped, the
latter if someone has called for it and only then; the stopped ones are those that refuse a push for
being so; and the counter shows how many of them run. -/
theorem count_shows_running (field : ι → Field β) (capacity : ι → Nat) (inside : ι → κ → Prop)
    {c : Crew ι κ β} (h : (init field capacity).Reaches Message.SparesActivity inside c) :
    (∀ d, c.Step Message.SparesActivity inside d → ∀ i,
      (d.tenure i).worker.stage = (c.tenure i).worker.stage ∨
        Stage.Next (c.tenure i).worker.stage (d.tenure i).worker.stage) ∧
    (∀ i, (c.tenure i).settled ≤ (c.tenure i).spawned ∧ (c.tenure i).spawned ≤ 1) ∧
    (∀ i, (c.tenure i).worker.stage = .stopping ∨ (c.tenure i).worker.stage = .stopped →
      ∀ d, c.Reaches Message.SparesActivity inside d →
        (d.tenure i).spawned = (c.tenure i).spawned ∧
        ∀ m, ((d.tenure i).worker.push m).value = (.error .stopped, (d.tenure i).worker)) ∧
    c.counters.get .fieldsActive =
      UInt64.ofNat (∑ i, ((c.tenure i).spawned - (c.tenure i).settled)) ∧
    (c.Quiet →
      (∀ i, (c.tenure i).worker.stage ≠ .stopping ∧
        ((c.tenure i).worker.stage = .stopped ↔ (c.tenure i).asked = true) ∧
        ∀ m, (((c.tenure i).worker.push m).value.1 = .error .stopped ↔
          (c.tenure i).worker.stage = .stopped)) ∧
      c.counters.get .fieldsActive =
        UInt64.ofNat (Finset.univ.filter fun i => (c.tenure i).worker.stage = .running).card) := by
  have hsound := (sound_init Message.SparesActivity field capacity).reaches (fun _ hm => hm) h
  refine ⟨fun d hst i => ?_, fun i => ?_, fun i hs d hst => ?_, hsound.counters_eq, fun hq => ?_⟩
  · rcases hst.each i with heq | ⟨l, hstep⟩
    · exact .inl (congrArg (·.worker.stage) heq)
    · exact hstep.stage_eq_or_next
  · have hspawned := (hsound.sound i).spawned_le
    rcases hsound.counted i with ⟨-, hs⟩ | ⟨-, hs⟩ <;> omega
  · obtain ⟨hlate, hspawned⟩ := (hst.each i).late hs
    exact ⟨hspawned, ((hsound.sound i).reaches (hst.each i)).push_of_late hlate⟩
  · refine ⟨fun i => ?_, hsound.counters_eq.trans (congrArg UInt64.ofNat (hsound.sum_eq_card hq))⟩
    exact (hsound.sound i).settled_of_quiet (hq i)

/-- Two workers run. Two callers stop the first one, of whom the second comes in between. -/
theorem count_shows_running_double_stop : ∃ c : Crew (Fin 2) Bool Unit,
    (init (fun _ => Field.idle 1 {}) fun _ => 8).Reaches Message.SparesActivity
      (fun _ _ => False) c ∧
    c.Quiet ∧ (c.tenure 0).worker.stage = .stopped ∧ (c.tenure 1).worker.stage = .running ∧
    c.counters.get .fieldsActive = 1 := by
  have hrun : ∃ c : Crew (Fin 2) Bool Unit,
      (init (fun _ => Field.idle 1 {}) fun _ => 8).Reaches Message.SparesActivity
        (fun _ _ => False) c ∧
      c.Quiet ∧ (c.tenure 0).worker.stage = .stopped ∧ (c.tenure 1).worker.stage = .running :=
    ⟨_,
      .head (.work (i := 0) _ (.callStart (k := false) _ rfl nofun) 0) <|
      .head (.work (i := 0) _ (.start (k := false) _ rfl nofun) 0) <|
      .head (.work (i := 1) _ (.callStart (k := true) _ rfl nofun) 0) <|
      .head (.work (i := 1) _ (.start (k := true) _ rfl nofun) 0) <|
      .head (.work (i := 0) _ (.callStop (k := false) _ rfl nofun) 0) <|
      .head (.work (i := 0) _ (.callStop (k := true) _ rfl nofun) 0) <|
      .head (.work (i := 0) _ (.close (k := false) _ rfl nofun) 0) <|
      .head (.work (i := 0) _ (.close (k := true) _ rfl nofun) 0) <|
      .head (.work (i := 0) _ (.post (k := false) _ rfl id rfl) 0) <|
      .head (.work (i := 0) _ (.receive _ rfl (List.cons_ne_nil _ _)) 0) <|
      .head (.work (i := 0) _ (.join (k := false) _ rfl rfl) 0) <|
      .head (.work (i := 0) _ (.retire (k := false) _ rfl nofun) 0) <|
      .head (.work (i := 0) _ (.settle (k := false) _ rfl nofun) 0) .refl,
      Fin.forall_fin_two.2 ⟨Bool.forall_bool.2 ⟨rfl, rfl⟩, Bool.forall_bool.2 ⟨rfl, rfl⟩⟩, rfl, rfl⟩
  obtain ⟨c, hreaches, hquiet, hstopped, hrunning⟩ := hrun
  obtain ⟨-, -, -, -, hcount⟩ := count_shows_running _ _ _ hreaches
  refine ⟨c, hreaches, hquiet, hstopped, hrunning, (hcount hquiet).2.trans ?_⟩
  rw [Finset.card_filter, Fin.sum_univ_two, hstopped, hrunning]
  rfl

end Crew
end Fieldwatch
