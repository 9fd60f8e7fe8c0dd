import Fieldwatch.Proofs.Field.Motion

/-! What a deed does to the record of one player. A player is let in by its own entry, turned by its
own input and moved by the steps of the players; monsters only wound it, and everybody else leaves
it alone. What of a record all this keeps is a relation, checked here for each kind of deed once. -/

namespace Fieldwatch

variable {β : Type}

def Deed.Steers (p : EntityId) (c : MoveCommand) : Deed β → Prop
  | .handle (.move session payload) =>
    session = p ∧ c.entity = p ∧ MoveCommand.decode payload = .ok c
  | .handle (.envelope session payload) =>
    session = p ∧ c.entity = p ∧ Envelope.decode payload = .ok (.move c)
  | _ => False

structure Player.IsCarry (R : Player → Player → Prop) : Prop where
  refl : ∀ q, R q q
  trans : ∀ {a b c}, R a b → R b c → R a c
  hit : ∀ q amount, R q (q.takeDamage amount)

namespace Field

variable {R : Player → Player → Prop} {p : EntityId} {f g h : Field β}

/-- Player `p`, if it is in `g`, was in `f` already and has only changed as `R` says; of the
configuration only the view radius has changed. -/
structure Carries (R : Player → Player → Prop) (p : EntityId) (f g : Field β) : Prop where
  record : ∀ r, g.players[p]? = some r → ∃ q, f.players[p]? = some q ∧ R q r
  config : g.config = { f.config with viewRadius := g.config.viewRadius }

namespace Carries

theorem trans (hR : Player.IsCarry R) (hfg : Carries R p f g) (hgh : Carries R p g h) :
    Carries R p f h := by
  refine ⟨fun r hr => ?_, ?_⟩
  · obtain ⟨q, hq, hqr⟩ := hgh.record r hr
    obtain ⟨o, ho, hoq⟩ := hfg.record q hq
    exact ⟨o, ho, hR.trans hoq hqr⟩
  · rw [hgh.config, hfg.config]

theorem of_players (hR : Player.IsCarry R) (hp : g.players[p]? = f.players[p]?)
    (hc : g.config = f.config) : Carries R p f g := by
  refine ⟨fun r hr => ⟨r, hp ▸ hr, hR.refl r⟩, ?_⟩
  rw [hc]

theorem clocks (hR : Player.IsCarry R) (f : Field β) (time : Float) (playerLag npcLag : Float32) :
    Carries R p f { f with time := time, playerLag := playerLag, npcLag := npcLag } :=
  of_players hR rfl rfl

theorem refl (hR : Player.IsCarry R) (f : Field β) : Carries R p f f := of_players hR rfl rfl

theorem addPlayer (hR : Player.IsCarry R) {n : Newcomer} (hn : n.id ≠ p) :
    Carries R p f (f.addPlayer n).value := by
  refine of_players hR ?_ rfl
  have hp : (f.addPlayer n).value.players = f.players.insert n.id
    { id := n.id, name := n.name, pos := n.pos, vitals := n.vitals } := rfl
  rw [hp, IdMap.getElem?_insert, if_neg hn.symm]

theorem removePlayer (hR : Player.IsCarry R) (id : EntityId) :
    Carries R p f (f.removePlayer id).value := by
  have hp : (f.removePlayer id).value.players = f.players.erase id := rfl
  refine ⟨fun r hr => ?_, rfl⟩
  rw [hp, IdMap.getElem?_erase] at hr
  split at hr
  · cases hr
  · exact ⟨r, hr, hR.refl r⟩

theorem onMove (hR : Player.IsCarry R) {session : EntityId} {c : MoveCommand}
    (hs : session = p → c.entity = p → ∀ q, R q (q.steer c.dir f.config.playerSpeed f.time)) :
    Carries R p f (f.onMove session c) := by
  unfold Field.onMove
  split
  · exact refl hR f
  · next hsession =>
    have hsession := Decidable.not_not.1 hsession
    rcases hq : f.players[c.entity]? with _ | q
    · exact refl hR f
    · refine ⟨fun r hr => ?_, rfl⟩
      rw [IdMap.getElem?_insert] at hr
      split at hr
      · next he =>
        cases hr
        exact ⟨q, he ▸ hq, hs (hsession.trans he.symm) he.symm q⟩
      · exact ⟨r, hr, hR.refl r⟩

theorem onSkill (hR : Player.IsCarry R) (attacker target : EntityId) :
    Carries R p f (f.onSkill attacker target).value := by
  unfold Field.onSkill
  split
  · rcases f.herd.damage target f.config.skillDamage with _ | ⟨herd, n⟩
    · exact refl hR f
    · dsimp only
      split <;> exact of_players hR rfl rfl
  · exact refl hR f

theorem strike (hR : Player.IsCarry R) (npc target : EntityId) (damage : Int) :
    Carries R p f (f.strike npc target damage).value := by
  unfold Field.strike
  rcases hq : f.players[target]? with _ | q
  · exact refl hR f
  · refine ⟨fun r hr => ?_, rfl⟩
    have hr : (f.players.insert target (q.takeDamage damage))[p]? = some r := hr
    rw [IdMap.getElem?_insert] at hr
    split at hr
    · next he =>
      cases hr
      exact ⟨q, he ▸ hq, hR.hit q damage⟩
    · exact ⟨r, hr, hR.refl r⟩

theorem settle (hR : Player.IsCarry R) (o : NpcOutcome) : Carries R p f (f.settle o).value := by
  cases o with
  | attacked npc target damage => exact strike hR npc target damage
  | activity | moved | respawned => exact of_players hR rfl rfl

theorem foldlM_settle (hR : Player.IsCarry R) (os : List NpcOutcome) (f : Field β) :
    Carries R p f (os.foldlM Field.settle f).value := by
  induction os generalizing f with
  | nil => exact refl hR f
  | cons o os ih => exact trans hR (settle hR o) (ih _)

theorem npcsStep (hR : Player.IsCarry R) (step : Float32) :
    Carries R p f (f.npcsStep step).value := by
  have hherd : Carries R p f { f with
      herd := (f.herd.step f.brain f.mind f.playerView step).1
      mind := (f.herd.step f.brain f.mind f.playerView step).2.1
      npcSteps := f.npcSteps + 1 } := of_players hR rfl rfl
  exact trans hR hherd (foldlM_settle hR _ _)

theorem playersStep (hR : ∀ q now timeout step, R q (Player.tick q now timeout step).1)
    (step : Float32) : Carries R p f (f.playersStep step).value := by
  refine ⟨fun r hr => ?_, rfl⟩
  rw [players_playersStep] at hr
  obtain ⟨q, hq, rfl⟩ := Option.map_eq_some_iff.1 hr
  exact ⟨q, hq, hR _ _ _ _⟩

end Carries

def stepStates : Nat → Field β → List (Field β)
  | 0, _ => []
  | cap + 1, f =>
    let step := f.config.playerStep
    if step ≤ f.playerLag then
      let g := (f.playersStep step).value
      f :: stepStates cap { g with playerLag := g.playerLag - step }
    else []

def tickStates (f : Field β) (dt : Float32) : List (Field β) :=
  if !dt.isFinite || dt ≤ 0 then []
  else stepStates f.config.maxPlayerSteps.toNat
    { f with time := f.time + Binary.widen dt, playerLag := f.playerLag + dt }

namespace Carries

theorem catchUpPlayers (hR : Player.IsCarry R) {cap : Nat} {f : Field β}
    (h : ∀ g ∈ stepStates cap f, Carries R p g (g.playersStep g.config.playerStep).value) :
    Carries R p f (Field.catchUpPlayers cap f).value := by
  induction cap generalizing f with
  | zero => exact refl hR f
  | succ cap ih =>
    unfold Field.catchUpPlayers
    unfold stepStates at h
    dsimp only at h ⊢
    split at h
    · next hlag =>
      obtain ⟨hf, hrest⟩ := List.forall_mem_cons.1 h
      rw [if_pos hlag]
      exact trans hR hf (trans hR (clocks hR _ _ _ _) (ih hrest))
    · next hlag =>
      rw [if_neg hlag]
      exact refl hR f

theorem tick (hR : Player.IsCarry R) {dt : Float32}
    (h : ∀ g ∈ f.tickStates dt, Carries R p g (g.playersStep g.config.playerStep).value) :
    Carries R p f (f.tick dt).value := by
  unfold tickStates at h
  unfold Field.tick
  split
  · exact refl hR f
  · next hdt =>
    rw [if_neg hdt] at h
    have hn : ∀ g : Field β, Carries R p g (catchUpNpcs g.config.maxNpcSteps.toNat
        { g with npcLag := g.npcLag + dt }).value := fun g =>
      trans hR (clocks hR g g.time g.playerLag (g.npcLag + dt))
        (catchUpNpcs_of _ (R := fun f m => Carries R p f m.value) (fun f m k => trans hR)
          (fun f => clocks hR f) (fun f => npcsStep hR _) _)
    have hstart := clocks (p := p) hR f (f.time + Binary.widen dt) (f.playerLag + dt) f.npcLag
    exact trans hR hstart (trans hR (catchUpPlayers hR h) (hn _))

theorem of_mem_stepStates (hR : Player.IsCarry R)
    (hstep : ∀ q now timeout step, R q (Player.tick q now timeout step).1) {cap : Nat}
    {f g : Field β} (hg : g ∈ stepStates cap f) : Carries R p f g := by
  induction cap generalizing f with
  | zero => cases hg
  | succ cap ih =>
    unfold stepStates at hg
    dsimp only at hg
    split at hg
    · rcases List.mem_cons.1 hg with rfl | hg
      · exact refl hR g
      · exact trans hR (playersStep hstep _) (trans hR (clocks hR _ _ _ _) (ih hg))
    · cases hg

theorem of_mem_tickStates (hR : Player.IsCarry R)
    (hstep : ∀ q now timeout step, R q (Player.tick q now timeout step).1) {dt : Float32}
    (hg : g ∈ f.tickStates dt) : Carries R p f g := by
  unfold tickStates at hg
  split at hg
  · cases hg
  · exact trans hR (clocks hR _ _ _ _) (of_mem_stepStates hR hstep hg)

theorem onDecoded (hR : Player.IsCarry R) {γ : Type} {act : γ → Effects (Field β)}
    {r : Except DecodeError γ} (h : ∀ c, r = .ok c → Carries R p f (act c).value) :
    Carries R p f (f.onDecoded act r).value := by
  cases r with
  | ok c => exact h c rfl
  | error e => exact refl hR f

theorem perform (hR : Player.IsCarry R) {d : Deed β} (hd : ¬ d.IsJob) (he : ¬ d.Enters p)
    (hs : ∀ c, d.Steers p c → ∀ q, R q (q.steer c.dir f.config.playerSpeed f.time))
    (ht : ∀ dt, d = .handle (.tick dt) → Carries R p f (f.tick dt).value) :
    Carries R p f (f.perform d).value := by
  cases d with
  | spawn t pos => exact of_players hR rfl rfl
  | populate g =>
    rcases hr : f.populate g with _ | r
    · have hv : (f.perform (.populate g)).value = f := by simp [Field.perform, hr]
      rw [hv]
      exact refl hR f
    · have hv : (f.perform (.populate g)).value = r.value.2 := by simp [Field.perform, hr]
      obtain ⟨⟨herd, spawned⟩, -, rfl⟩ := Option.map_eq_some_iff.1 hr
      rw [hv]
      exact of_players hR rfl rfl
  | handle m =>
    cases m with
    | envelope session payload =>
      refine onDecoded hR fun c hc => ?_
      cases c with
      | move c => exact onMove hR fun hp hcp => hs c ⟨hp, hcp, hc⟩
      | skill c => exact onSkill hR session c.target
      | leave => exact removePlayer hR session
    | enter n => exact addPlayer hR he
    | leave player => exact removePlayer hR player
    | move session payload =>
      exact onDecoded hR fun c hc => onMove hR fun hp hcp => hs c ⟨hp, hcp, hc⟩
    | skill session payload => exact onDecoded hR fun c _ => onSkill hR session c.target
    | tick dt => exact ht dt rfl
    | viewRadius radius => exact ⟨fun r hr => ⟨r, hr, hR.refl r⟩, rfl⟩
    | job j => exact (hd trivial).elim

end Carries
end Field
end Fieldwatch
