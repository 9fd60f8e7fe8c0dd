import Fieldwatch.Proofs.Field.Population

/-! Which counters the work of a field moves, and by how much. A message that is work of its own is
fair if what it does to a field could be done by fair deeds as well, whichever it chooses; so
whatever is known of runs of deeds is known of the handling of fair messages. -/

namespace Fieldwatch

open Interest Gauge

variable {β : Type}

def Effect.shift (c : Counter) : Effect → Int
  | .raise d n => if d = c then n.toNat else 0
  | .lower d n => if d = c then -n.toNat else 0
  | .notify _ | .stepped => 0

namespace Counter

def balance (c : Counter) (l : List Effect) : Int := (l.map (Effect.shift c)).sum

@[simp] theorem balance_nil (c : Counter) : c.balance [] = 0 := rfl

@[simp] theorem balance_cons (c : Counter) (e : Effect) (l : List Effect) :
    c.balance (e :: l) = e.shift c + c.balance l := rfl

@[simp] theorem balance_append (c : Counter) (l m : List Effect) :
    c.balance (l ++ m) = c.balance l + c.balance m := by simp [balance]

theorem balance_eq_zero {c : Counter} {l : List Effect} (h : ∀ e ∈ l, e.shift c = 0) :
    c.balance l = 0 := by
  induction l with
  | nil => rfl
  | cons e l ih =>
    obtain ⟨he, hl⟩ := List.forall_mem_cons.1 h
    rw [balance_cons, he, ih hl, Int.add_zero]

def domestic : List Counter := [.aoiEvents, .playersActive, .npcsAlive, .messagesMalformed]

end Counter

theorem Gauge.balance_eq_balance (g : Gauge) (l : List Effect) :
    g.balance l = g.counter.balance l := by
  have hs : g.shift = Effect.shift g.counter := funext fun e => by cases e <;> rfl
  rw [Gauge.balance, hs, Counter.balance]

def Domestic (l : List Effect) : Prop := ∀ e ∈ l, ∀ c ∉ Counter.domestic, e.shift c = 0

section Domestic

variable {l m : List Effect}

theorem Domestic.append (hl : Domestic l) (hm : Domestic m) : Domestic (l ++ m) :=
  List.forall_mem_append.2 ⟨hl, hm⟩

theorem Domestic.balance_eq (h : Domestic l) {c : Counter} (hc : c ∉ Counter.domestic) :
    c.balance l = 0 := Counter.balance_eq_zero fun e he => h e he c hc

theorem domestic_nil : Domestic [] := List.forall_mem_nil _

theorem domestic_singleton {e : Effect} (h : ∀ c ∉ Counter.domestic, e.shift c = 0) :
    Domestic [e] := List.forall_mem_singleton.2 h

theorem domestic_raise {d : Counter} (hd : d ∈ Counter.domestic) (n : UInt64) :
    Domestic [.raise d n] :=
  domestic_singleton fun c hc => if_neg fun h : d = c => hc (h ▸ hd)

theorem domestic_lower {d : Counter} (hd : d ∈ Counter.domestic) (n : UInt64) :
    Domestic [.lower d n] :=
  domestic_singleton fun c hc => if_neg fun h : d = c => hc (h ▸ hd)

theorem domestic_ite {c : Prop} [Decidable c] (hl : Domestic l) (hm : Domestic m) :
    Domestic (if c then l else m) := by
  split
  · exact hl
  · exact hm

theorem domestic_sends {α : Type} (as : List α) (n : α → Notice) :
    Domestic (as.map fun a => .notify (n a)) := by
  intro e he c _
  obtain ⟨a, -, rfl⟩ := List.mem_map.1 he
  rfl

theorem domestic_of_sights (h : Sights l) : Domestic l := by
  intro e he c hc
  have hq := h e he
  cases e with
  | notify n => rfl
  | stepped => rfl
  | raise d n | lower d n =>
    have hd : d = .aoiEvents := Decidable.not_not.1 hq
    exact if_neg fun h => hc (by rw [← h, hd]; decide)

theorem domestic_broadcast (f : Feed) (subject : EntityId) (event : Event) :
    Domestic (f.broadcast subject event) :=
  domestic_ite (domestic_sends _ fun p => ⟨p, event⟩) domestic_nil

theorem domestic_hit (f : Feed) (h : Hit) : Domestic (f.hit h) :=
  domestic_ite (domestic_sends [h] fun h => ⟨h.target, .hit h⟩) domestic_nil

end Domestic

namespace Field

variable {f : Field β}

theorem domestic_removePlayer (f : Field β) (id : EntityId) :
    Domestic (f.removePlayer id).log := by
  obtain ⟨l, hl, hlog⟩ := log_removePlayer f id
  rw [hlog]
  exact (domestic_of_sights hl).append (domestic_ite (domestic_lower (by decide) 1) domestic_nil)

theorem domestic_onSkill (f : Field β) (attacker target : EntityId) :
    Domestic (f.onSkill attacker target).log := by
  by_cases hnone : attacker ∈ f.players → f.herd.damage target f.config.skillDamage = none
  · rw [onSkill_of_none f hnone]
    exact domestic_nil
  · obtain ⟨ha, hsome⟩ := Classical.not_imp.1 hnone
    obtain ⟨⟨herd, n⟩, hd⟩ := Option.ne_none_iff_exists'.1 hsome
    by_cases h0 : n.hp = 0
    · rw [onSkill_of_killed ha hd h0]
      exact ((domestic_lower (by decide) 1).append (domestic_broadcast _ _ _)).append
        (domestic_of_sights (sights_feeding _ (Feed.sights_remove _ _)))
    · rw [onSkill_of_wounded ha hd h0]
      exact (domestic_broadcast _ _ _).append domestic_nil

theorem domestic_settle (f : Field β) (o : NpcOutcome) : Domestic (f.settle o).log := by
  cases o with
  | activity id a => exact (domestic_broadcast _ _ _).append domestic_nil
  | moved id pos =>
    exact domestic_of_sights (sights_feeding (·.move id pos) (Feed.sights_change _ _))
  | attacked npc target damage =>
    change Domestic (f.strike npc target damage).log
    unfold strike
    split
    · exact domestic_nil
    · exact (domestic_hit _ _).append ((domestic_broadcast _ _ _).append domestic_nil)
  | respawned id pos =>
    exact (domestic_raise (by decide) 1).append
      ((domestic_of_sights (sights_feeding _ (Feed.sights_add _ _ _ _))).append
        ((domestic_broadcast _ _ _).append domestic_nil))

theorem domestic_foldlM_settle (f : Field β) (os : List NpcOutcome) :
    Domestic (os.foldlM settle f).log := by
  induction os generalizing f with
  | nil => exact domestic_nil
  | cons o os ih => exact (domestic_settle f o).append (ih _)

theorem domestic_tick (f : Field β) (dt : Float32) : Domestic (f.tick dt).log := by
  refine tick_of f (R := fun _ m => Domestic m.log) ?_ ?_ ?_ ?_ ?_ dt
  · exact fun f m k hm hk => hm.append hk
  · exact fun f _ _ _ => domestic_nil
  · exact fun f => domestic_of_sights (sights_playersStep f _)
  · exact fun f => domestic_foldlM_settle _ _
  · exact fun f => domestic_singleton fun _ _ => rfl

theorem domestic_onDecoded {γ : Type} {act : γ → Effects (Field β)}
    (h : ∀ c, Domestic (act c).log) (r : Except DecodeError γ) :
    Domestic (f.onDecoded act r).log := by
  cases r with
  | ok c => exact h c
  | error e => exact domestic_raise (by decide) 1

theorem domestic_perform (f : Field β) {d : Deed β} (hd : ¬ d.IsJob) :
    Domestic (f.perform d).log := by
  cases d with
  | spawn t pos =>
    obtain ⟨l, hl, hlog⟩ := log_spawn f t pos
    rw [perform, hlog]
    exact (domestic_of_sights hl).append (domestic_raise (by decide) 1)
  | populate g =>
    rcases hr : f.populate g with _ | r
    · have hv : f.perform (.populate g) = pure f := by simp [perform, hr]
      rw [hv]
      exact domestic_nil
    · obtain ⟨l, hl, hlog⟩ := log_populate hr
      have hv : f.perform (.populate g) = Prod.snd <$> r := by simp [perform, hr]
      rw [hv, hlog]
      exact (domestic_of_sights hl).append (domestic_raise (by decide) _)
  | handle m =>
    cases m with
    | envelope session payload =>
      rw [perform, handle, fst_done]
      refine domestic_onDecoded (fun c => ?_) _
      cases c with
      | move c => exact domestic_nil
      | skill c => exact domestic_onSkill f session c.target
      | leave => exact domestic_removePlayer f session
    | enter n =>
      obtain ⟨l, hl, hlog⟩ := log_addPlayer f n
      rw [perform, handle, fst_done, hlog]
      exact (domestic_ite domestic_nil (domestic_raise (by decide) 1)).append
        (domestic_of_sights hl)
    | leave player =>
      rw [perform, handle, fst_done]
      exact domestic_removePlayer f player
    | move session payload =>
      rw [perform, handle, fst_done]
      exact domestic_onDecoded (fun _ => domestic_nil) _
    | skill session payload =>
      rw [perform, handle, fst_done]
      exact domestic_onDecoded (fun c : SkillCommand => domestic_onSkill f session c.target) _
    | tick dt =>
      rw [perform, handle, fst_done]
      exact domestic_tick f dt
    | viewRadius radius =>
      rw [perform, handle, fst_done]
      exact domestic_of_sights (sights_setViewRadius f radius)
    | job j => exact (hd trivial).elim

theorem domestic_run (f : Field β) {ds : List (Deed β)} (hd : ∀ d ∈ ds, ¬ d.IsJob) :
    Domestic (f.run ds).log := by
  induction ds generalizing f with
  | nil => exact domestic_nil
  | cons d ds ih =>
    obtain ⟨hd, hds⟩ := List.forall_mem_cons.1 hd
    exact (domestic_perform f hd).append (ih _ hds)

theorem tracks_run (g : Gauge) (hs : f.herd.Sound) {ds : List (Deed β)} (hd : ∀ d ∈ ds, d.IsFair)
    (hr : (f.run ds).value.herd.size ≤ Herd.room) :
    g.Tracks g.read f (f.run ds) ∧ (f.run ds).value.herd.Sound := by
  induction ds generalizing f with
  | nil => exact ⟨.of_still still_nil rfl, hs⟩
  | cons d ds ih =>
    obtain ⟨hd, hds⟩ := List.forall_mem_cons.1 hd
    have hroom : (f.perform d).value.herd.size ≤ Herd.room :=
      Nat.le_trans (size_le_run _ fun d h => (hds d h).not_isJob) hr
    obtain ⟨ht, hs'⟩ := ih (sound_perform hs hd hroom) hds hr
    exact ⟨(tracks_perform g hs hd hroom).bind ht, hs'⟩

end Field

def Message.IsFair : Message β → Prop
  | .job j => ∀ f, ∃ ds ending, (∀ d ∈ ds, Deed.IsFair d) ∧ j f = (·, ending) <$> f.run ds
  | _ => True

theorem Field.exists_run_of_fair (f : Field β) {m : Message β} (hm : m.IsFair) :
    ∃ ds ending, (∀ d ∈ ds, Deed.IsFair d) ∧ f.handle m = (·, ending) <$> f.run ds := by
  have hlone : ∀ r : Effects (Field β), f.handle m = handle.done r → ¬ m.IsJob →
      ∃ ds ending, (∀ d ∈ ds, Deed.IsFair d) ∧ f.handle m = (·, ending) <$> f.run ds := by
    intro r hr hj
    refine ⟨[.handle m], .completed, by simpa [Deed.IsFair] using hj, ?_⟩
    have hrun : f.run [.handle m] = r := by
      rw [run, List.foldlM_cons, perform, hr, fst_done]
      exact bind_pure r
    rw [hrun, hr]
    rfl
  cases m with
  | job j => exact hm f
  | _ => exact hlone _ rfl fun h => h

end Fieldwatch
