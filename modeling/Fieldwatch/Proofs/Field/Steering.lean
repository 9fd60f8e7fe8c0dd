import Fieldwatch.Proofs.Field.Carrying

/-! A player moves by its own fresh input and by nothing else. As long as it is moving it keeps the
direction, the speed and the time of the last input that it gave since it entered, and every step
looks at that time. -/

namespace Fieldwatch

variable {β : Type}

namespace Player

variable {q r : Player}

def Drifts (q r : Player) : Prop :=
  r.moving → q.moving ∧ r.dir = q.dir ∧ r.speed = q.speed ∧ r.lastInput = q.lastInput

theorem isCarry_drifts : IsCarry Drifts where
  refl _ h := ⟨h, rfl, rfl, rfl⟩
  trans hab hbc hc := by
    obtain ⟨hb, hdir, hspeed, hlast⟩ := hbc hc
    obtain ⟨ha, hdir', hspeed', hlast'⟩ := hab hb
    exact ⟨ha, hdir.trans hdir', hspeed.trans hspeed', hlast.trans hlast'⟩
  hit _ _ h := ⟨h, rfl, rfl, rfl⟩

theorem isCarry_pos : IsCarry fun q r => r.pos = q.pos where
  refl _ := rfl
  trans hab hbc := hbc.trans hab
  hit _ _ := rfl

theorem isCarry_true : IsCarry fun _ _ => True where
  refl _ := trivial
  trans _ _ := trivial
  hit _ _ := trivial

theorem drifts_tick (q : Player) (now timeout : Float) (step : Float32) :
    q.Drifts (q.tick now timeout step).1 := by
  intro h
  unfold tick at h ⊢
  split at h
  · cases h
  · next ht =>
    rw [if_neg ht]
    split at h
    · next hn =>
      rw [if_pos hn]
      exact ⟨h, rfl, rfl, rfl⟩
    · next hn =>
      rw [if_neg hn]
      exact ⟨h, rfl, rfl, rfl⟩

theorem of_pos_tick_ne {now timeout : Float} {step : Float32}
    (h : (q.tick now timeout step).1.pos ≠ q.pos) :
    q.moving ∧ ¬ (timeout < now - q.lastInput) ∧ (q.next step).isFinite ∧
      (q.tick now timeout step).1.pos = q.next step := by
  unfold tick at h ⊢
  split at h
  · exact (h rfl).elim
  · next ht =>
    split at h
    · next hn =>
      rw [if_neg ht, if_pos hn]
      obtain ⟨hm, hf⟩ := Bool.and_eq_true_iff.1 hn
      refine ⟨hm, fun hlt => ht ?_, hf, rfl⟩
      rw [hasTimedOut, hm, decide_eq_true hlt]
      rfl
    · exact (h rfl).elim

theorem moving_steer {dir : Vec2} {speed : Float32} {now : Float}
    (h : (q.steer dir speed now).moving) : isHeading dir ∧
      (q.steer dir speed now).dir = dir.normalize ∧ (q.steer dir speed now).speed = speed ∧
      (q.steer dir speed now).lastInput = now := by
  unfold steer at h ⊢
  dsimp only at h ⊢
  split at h
  · next hd =>
    rw [if_pos hd]
    exact ⟨hd, rfl, rfl, rfl⟩
  · cases h

structure Follows (q : Player) (c : MoveCommand) (speed : Float32) (t : Float) : Prop where
  heading : isHeading c.dir
  dir_eq : q.dir = c.dir.normalize
  speed_eq : q.speed = speed
  lastInput_eq : q.lastInput = t

theorem Follows.drift {c : MoveCommand} {speed : Float32} {t : Float} (h : q.Follows c speed t)
    (hd : r.dir = q.dir ∧ r.speed = q.speed ∧ r.lastInput = q.lastInput) : r.Follows c speed t :=
  ⟨h.heading, hd.1.trans h.dir_eq, hd.2.1.trans h.speed_eq, hd.2.2.trans h.lastInput_eq⟩

end Player

theorem Deed.entity_of_steers {d : Deed β} {p : EntityId} {c : MoveCommand} (h : d.Steers p c) :
    c.entity = p := by
  cases d with
  | handle m =>
    cases m with
    | move | envelope => exact h.2.1
    | _ => exact h.elim
  | _ => exact h.elim

namespace Field

variable {f g : Field β} {p : EntityId} {q r : Player}

theorem perform_of_steers {d : Deed β} {c : MoveCommand} (h : d.Steers p c) :
    (f.perform d).value = f.onMove p c := by
  cases d with
  | handle m =>
    cases m with
    | move session payload =>
      obtain ⟨rfl, -, hc⟩ := h
      simp [perform, handle, handle.done, hc, onDecoded]
    | envelope session payload =>
      obtain ⟨rfl, -, hc⟩ := h
      simp [perform, handle, handle.done, hc, onDecoded, onCommand]
    | _ => exact h.elim
  | _ => exact h.elim

theorem moving_enter {n : Newcomer}
    (hq : (f.perform (.handle (.enter n))).value.players[n.id]? = some q) : q.moving = false := by
  have hp : (f.perform (.handle (.enter n))).value.players = f.players.insert n.id
    { id := n.id, name := n.name, pos := n.pos, vitals := n.vitals } := rfl
  rw [hp, IdMap.getElem?_insert, if_pos rfl] at hq
  cases hq
  rfl

theorem getElem?_of_steers {d : Deed β} {c : MoveCommand} (h : d.Steers p c)
    (hr : (f.perform d).value.players[p]? = some r) :
    ∃ q, f.players[p]? = some q ∧ r = q.steer c.dir f.config.playerSpeed f.time := by
  have hc : c.entity = p := Deed.entity_of_steers h
  rw [perform_of_steers h, onMove, if_neg (not_not.2 hc.symm), hc] at hr
  rcases hq : f.players[p]? with _ | q
  · rw [hq] at hr
    cases hq.symm.trans hr
  · rw [hq] at hr
    have hr : (f.players.insert p (q.steer c.dir f.config.playerSpeed f.time))[p]? = some r := hr
    rw [IdMap.getElem?_insert, if_pos rfl] at hr
    cases hr
    exact ⟨q, rfl, rfl⟩

theorem Carries.drifts {d : Deed β} (hd : ¬ d.IsJob) (he : ¬ d.Enters p)
    (hs : ∀ c, ¬ d.Steers p c) : Carries Player.Drifts p f (f.perform d).value :=
  .perform Player.isCarry_drifts hd he (fun c hc => (hs c hc).elim)
    fun _ _ => .tick Player.isCarry_drifts fun _ _ => .playersStep Player.drifts_tick _

theorem Carries.perform_any {d : Deed β} (hd : ¬ d.IsJob) (he : ¬ d.Enters p) :
    Carries (fun _ _ => True) p f (f.perform d).value :=
  .perform Player.isCarry_true hd he (fun _ _ _ => trivial) fun _ _ =>
    .tick Player.isCarry_true fun _ _ => .playersStep (fun _ _ _ _ => trivial) _

theorem config_perform {d : Deed β} (hd : ¬ d.IsJob) : (f.perform d).value.config =
    { f.config with viewRadius := (f.perform d).value.config.viewRadius } := by
  by_cases he : d.Enters 0
  · obtain ⟨n, rfl, -⟩ := Deed.eq_enter_of_enters he
    rfl
  · exact (Carries.perform_any hd he).config

theorem config_run (f : Field β) {ds : List (Deed β)} (hd : ∀ d ∈ ds, ¬ d.IsJob) :
    (f.run ds).value.config =
      { f.config with viewRadius := (f.run ds).value.config.viewRadius } :=
  run_of (P := fun g => g.config = { f.config with viewRadius := g.config.viewRadius })
    (fun g d hd hg => by rw [config_perform hd, hg]) rfl hd

theorem exists_last_input (id : FieldId) (config : FieldConfig) (brain : Brain β)
    (mind : β) (enum : Enumeration) {ds : List (Deed β)} (hd : ∀ d ∈ ds, ¬ d.IsJob)
    (hq : ((fresh id config brain mind enum).run ds).value.players[p]? = some q) (hm : q.moving) :
    ∃ before d after c, ds = before ++ d :: after ∧ d.Steers p c ∧
      p ∈ ((fresh id config brain mind enum).run before).value.players ∧
      (∀ e ∈ after, ¬ e.Enters p ∧ ∀ c, ¬ e.Steers p c) ∧
      q.Follows c config.playerSpeed ((fresh id config brain mind enum).run before).value.time := by
  induction ds using List.reverseRecOn generalizing q with
  | nil =>
    have hnone : ((fresh id config brain mind enum).run []).value.players[p]? = none :=
      Std.ExtTreeMap.getElem?_empty
    cases hnone.symm.trans hq
  | append_singleton ds d ih =>
    have hds : ∀ e ∈ ds, ¬ e.IsJob := fun e he => hd e (List.mem_append_left _ he)
    have hjob : ¬ d.IsJob := hd d (by simp)
    rw [value_run_append, value_run_singleton] at hq
    by_cases he : d.Enters p
    · -- it stands still as it comes in
      obtain ⟨n, rfl, rfl⟩ := Deed.eq_enter_of_enters he
      rw [moving_enter hq] at hm
      cases hm
    by_cases hs : ∃ c, d.Steers p c
    · obtain ⟨c, hs⟩ := hs
      obtain ⟨o, ho, rfl⟩ := getElem?_of_steers hs hq
      obtain ⟨hheading, hdir, hspeed, hlast⟩ := Player.moving_steer hm
      have hc := config_run (fresh id config brain mind enum) hds
      refine ⟨ds, d, [], c, rfl, hs, ?_, (fun _ h => by cases h), hheading, hdir, ?_, hlast⟩
      · exact IdMap.mem_iff_exists.2 ⟨_, ho⟩
      · rw [hspeed, hc]
        rfl
    · have hcarry := Carries.drifts (f := ((fresh id config brain mind enum).run ds).value) hjob he
        fun c hc => hs ⟨c, hc⟩
      obtain ⟨o, ho, hdrift⟩ := hcarry.record q hq
      obtain ⟨ho', hsame⟩ := hdrift hm
      obtain ⟨before, e, after, c, rfl, hsteer, hin, hafter, hfollow⟩ := ih hds ho ho'
      refine ⟨before, e, after ++ [d], c, by simp, hsteer, hin, fun x hx => ?_, hfollow.drift hsame⟩
      obtain hx | hx := List.mem_append.1 hx
      · exact hafter x hx
      · rw [List.mem_singleton.1 hx]
        exact ⟨he, fun c hc => hs ⟨c, hc⟩⟩

theorem mem_players_perform {d : Deed β} (hd : ¬ d.IsJob) (he : ¬ d.Enters p)
    (hp : p ∈ (f.perform d).value.players) : p ∈ f.players := by
  obtain ⟨r, hr⟩ := IdMap.mem_iff_exists.1 hp
  obtain ⟨q, hq, -⟩ := (Carries.perform_any hd he).record r hr
  exact IdMap.mem_iff_exists.2 ⟨_, hq⟩

theorem exists_step_of_pos_ne {d : Deed β} (hd : ¬ d.IsJob) (he : ¬ d.Enters p)
    (hq : f.players[p]? = some q) (hr : (f.perform d).value.players[p]? = some r)
    (hne : r.pos ≠ q.pos) :
    ∃ dt, d = .handle (.tick dt) ∧ ∃ g ∈ f.tickStates dt, ∃ q r, g.players[p]? = some q ∧
      (g.playersStep g.config.playerStep).value.players[p]? = some r ∧ r.pos ≠ q.pos := by
  refine Classical.byContradiction fun hno => hne ?_
  have hstill : Carries (fun q r => r.pos = q.pos) p f (f.perform d).value := by
    refine .perform Player.isCarry_pos hd he (fun c _ q => pos_steer q _ _ _) fun dt hdt =>
      .tick Player.isCarry_pos fun g hg => ⟨fun r hr => ?_, rfl⟩
    obtain ⟨q, hq, -⟩ := (Carries.playersStep (R := fun _ _ => True) (p := p)
      (fun _ _ _ _ => trivial) g.config.playerStep).record r hr
    refine ⟨q, hq, Classical.byContradiction fun hne => hno ?_⟩
    exact ⟨dt, hdt, g, hg, q, r, hq, hr, hne⟩
  obtain ⟨q', hq', hpos⟩ := hstill.record r hr
  cases hq.symm.trans hq'
  exact hpos

/-- When a step of the players moves player `p`, then since it last entered it gave an input of its
own, as a player of the field. The last of them is a direction to go in and has not grown too old,
and the step takes the player that way. Nothing else that happens to a field moves a player, as long
as it is not put somewhere else by entering again. -/
theorem moved_by_own_input (id : FieldId) (config : FieldConfig) (brain : Brain β)
    (mind : β) (enum : Enumeration) (ds : List (Deed β)) (hd : ∀ d ∈ ds, ¬ d.IsJob) (p : EntityId) :
    let start := fresh id config brain mind enum
    let f := (start.run ds).value
    (∀ dt, ∀ g ∈ f.tickStates dt, ∀ q r, g.players[p]? = some q →
      (g.playersStep g.config.playerStep).value.players[p]? = some r → r.pos ≠ q.pos →
      ∃ before d after c, ds = before ++ d :: after ∧ d.Steers p c ∧
        (∃ n, .handle (.enter n) ∈ before ∧ n.id = p) ∧ p ∈ (start.run before).value.players ∧
        (∀ e ∈ after, ¬ e.Enters p ∧ ∀ c, ¬ e.Steers p c) ∧
        c.dir.isFinite ∧ ¬ c.dir.lengthSq < Player.minInputLengthSq ∧
        ¬ Binary.widen config.idleTimeout < g.time - (start.run before).value.time ∧
        r.pos = q.pos + c.dir.normalize.scale (config.playerSpeed * config.playerStep) ∧
        r.pos.isFinite) ∧
    ∀ (d : Deed β) (q r : Player), ¬ d.IsJob → ¬ d.Enters p → f.players[p]? = some q →
      (f.perform d).value.players[p]? = some r → r.pos ≠ q.pos →
      ∃ dt, d = .handle (.tick dt) ∧ ∃ g ∈ f.tickStates dt, ∃ q r, g.players[p]? = some q ∧
        (g.playersStep g.config.playerStep).value.players[p]? = some r ∧ r.pos ≠ q.pos := by
  intro start f
  refine ⟨fun dt g hg q r hq hr hne => ?_, fun d q r hd he hq hr hne =>
    exists_step_of_pos_ne hd he hq hr hne⟩
  have hcarry : Carries Player.Drifts p f g :=
    .of_mem_tickStates Player.isCarry_drifts Player.drifts_tick hg
  have hconfig : g.config = { config with viewRadius := g.config.viewRadius } := by
    have hf := config_run start hd
    have hg := hcarry.config
    rw [hf] at hg
    exact hg
  rw [players_playersStep, hq, Option.map_some, Option.some_inj] at hr
  subst hr
  obtain ⟨hm, hage, hfinite, hpos⟩ := Player.of_pos_tick_ne hne
  obtain ⟨o, ho, hdrift⟩ := hcarry.record q hq
  obtain ⟨ho', hsame⟩ := hdrift hm
  obtain ⟨before, d, after, c, rfl, hsteer, hin, hafter, hfollow⟩ :=
    exists_last_input id config brain mind enum hd ho ho'
  obtain ⟨hheading, hdir, hspeed, hlast⟩ := hfollow.drift hsame
  have hbefore : ∀ e ∈ before, ¬ e.IsJob := fun e he => hd e (List.mem_append_left _ he)
  obtain ⟨b, n, c', hb, hn, -⟩ := exists_last_entry (P := fun f => p ∈ f.players)
    Std.ExtTreeMap.not_mem_empty (fun _ _ => mem_players_perform) hbefore hin
  obtain ⟨hdirfinite, hlong⟩ := Bool.and_eq_true_iff.1 hheading
  rw [hpos, Player.next, hdir, hspeed]
  rw [Player.next, hdir, hspeed] at hfinite
  rw [hlast] at hage
  refine ⟨before, d, after, c, rfl, hsteer, ⟨n, by simp [hb], hn⟩, hin, hafter, hdirfinite, ?_, ?_,
    ?_, ?_⟩
  · simpa using hlong
  · rw [hconfig] at hage
    exact hage
  · rw [hconfig]
  · rw [hconfig] at hfinite
    rw [hconfig]
    exact hfinite

/-- A player enters, waits, and asks to go to the right. -/
def stroll : List (Deed Unit) :=
  [.handle (.enter { id := 7, name := "ada", pos := ⟨1, 2⟩ }), .handle (.tick 0.5),
    .handle (.envelope 7 (Envelope.encode (.move ⟨7, Float32.toBits 1, 0⟩)))]

theorem not_isJob_stroll : ∀ d ∈ stroll, ¬ d.IsJob := by
  intro d hd
  simp only [stroll, List.mem_cons, List.not_mem_nil, or_false] at hd
  rcases hd with rfl | rfl | rfl <;> exact fun h => h

theorem exists_pos_ne {a b : Option Player} (ha : a.isSome) (hb : b.isSome)
    (h : b.map (·.pos.x.toBits) ≠ a.map (·.pos.x.toBits)) :
    ∃ q r, a = some q ∧ b = some r ∧ r.pos ≠ q.pos := by
  obtain ⟨q, rfl⟩ := Option.isSome_iff_exists.1 ha
  obtain ⟨r, rfl⟩ := Option.isSome_iff_exists.1 hb
  exact ⟨q, r, rfl, rfl, fun he => h (by rw [Option.map_some, Option.map_some, he])⟩

theorem moved_by_own_input_stroll :
    let start := fresh 1 {} Brain.idle () .byId
    ∃ dt, ∃ g ∈ (start.run stroll).value.tickStates dt, ∃ q r : Player,
      g.players[(7 : EntityId)]? = some q ∧ r.pos ≠ q.pos ∧
      ∃ before d after c, stroll = before ++ d :: after ∧ d.Steers 7 c ∧
        r.pos = q.pos + c.dir.normalize.scale (10 * 0.05) := by
  obtain ⟨q, r, hq, hr, hne⟩ := exists_pos_ne
    (a := ((fresh 1 {} Brain.idle () .byId).run stroll).value.players[(7 : EntityId)]?)
    (b := (((fresh 1 {} Brain.idle () .byId).run stroll).value.perform
      (.handle (.tick 0.25))).value.players[(7 : EntityId)]?)
    (by decide +kernel) (by decide +kernel) (by decide +kernel)
  obtain ⟨hown, hnothing⟩ := moved_by_own_input 1 {} Brain.idle () .byId stroll not_isJob_stroll 7
  obtain ⟨dt, -, g, hmem, q, r, hq, hr, hne⟩ :=
    hnothing (.handle (.tick 0.25)) q r (fun h => h) (fun h => h) hq hr hne
  obtain ⟨before, d, after, c, hds, hs, -, -, -, -, -, -, hto, -⟩ := hown dt g hmem q r hq hr hne
  exact ⟨dt, g, hmem, q, r, hq, hne, before, d, after, c, hds, hs, hto⟩

end Field
end Fieldwatch
