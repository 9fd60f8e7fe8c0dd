import Fieldwatch.Proofs.Field.Agreement
import Fieldwatch.Proofs.Field.Sending
import Fieldwatch.Proofs.Npc.Lifecycle

/-! What a field makes of the bytes of its clients. What is no command is counted and does nothing
else; a command that its sender may not give does nothing at all; an input of a player is noted in
that player's record and nowhere else. So the inputs of different players may come in any order. -/

namespace Fieldwatch

variable {β : Type}

namespace Message

def command? : Message β → Option (EntityId × Except DecodeError Envelope)
  | .envelope session payload => some (session, Envelope.decode payload)
  | .move session payload => some (session, Envelope.move <$> MoveCommand.decode payload)
  | .skill session payload => some (session, Envelope.skill <$> SkillCommand.decode payload)
  | _ => none

def input? (m : Message β) : Option (EntityId × Option MoveCommand) :=
  match m.command? with
  | some (session, .ok (.move c)) => some (session, some c)
  | some (session, .error _) => some (session, none)
  | _ => none

def inputOf? (s : EntityId) (m : Message β) : Option MoveCommand :=
  m.input?.bind fun x => if x.1 = s then x.2 else none

theorem inputOf?_eq_none {s : EntityId} {m : Message β} (h : m.input?.map Prod.fst ≠ some s) :
    m.inputOf? s = none := by
  unfold inputOf?
  rcases hx : m.input? with _ | ⟨q, w⟩
  · rfl
  · rw [hx] at h
    exact if_neg fun he => h (congrArg some he)

def isGarbled (m : Message β) : Bool := m.input?.any (·.2.isNone)

end Message

def Player.obey (speed : Float32) (now : Float) (id : EntityId) (p : Player) (c : MoveCommand) :
    Player :=
  if c.entity = id then p.steer c.dir speed now else p

theorem Player.eq_of_steer (p : Player) (dir : Vec2) (speed : Float32) (now : Float) :
    p.steer dir speed now = { p with
      dir := (p.steer dir speed now).dir
      moving := (p.steer dir speed now).moving
      speed := (p.steer dir speed now).speed
      lastInput := now } := by
  unfold steer
  dsimp only
  split <;> rfl

namespace Field

variable {f : Field β} {m : Message β} {q : EntityId}

theorem handle_of_command {r : Except DecodeError Envelope} (h : m.command? = some (q, r)) :
    f.handle m = (·, .completed) <$> f.onDecoded (f.onCommand q) r := by
  cases m with
  | envelope session payload =>
    cases h
    rfl
  | move session payload =>
    cases h
    rw [handle]
    cases MoveCommand.decode payload <;> rfl
  | skill session payload =>
    cases h
    rw [handle]
    cases SkillCommand.decode payload <;> rfl
  | enter | leave | tick | viewRadius | job => cases h

theorem onMove_of_rejected {c : MoveCommand} (h : c.entity ≠ q ∨ q ∉ f.players) :
    f.onMove q c = f := by
  unfold onMove
  split
  · rfl
  · next hc =>
    obtain rfl : q = c.entity := not_not.1 hc
    rw [Std.ExtTreeMap.getElem?_eq_none (h.resolve_left fun hne => hne rfl)]

theorem onMove_of_accepted {c : MoveCommand} {p : Player} (hc : c.entity = q)
    (hp : f.players[q]? = some p) : f.onMove q c =
      { f with players := f.players.insert q (p.steer c.dir f.config.playerSpeed f.time) } := by
  subst hc
  simp [onMove, hp]

theorem onSkill_of_rejected {target : EntityId}
    (h : q ∉ f.players ∨ ∀ n ∈ f.herd.members, n.id = target → ¬ n.isAlive) :
    f.onSkill q target = pure f := by
  refine onSkill_of_none f fun hq => Herd.damage_eq_none.2 fun n hn => ?_
  exact h.resolve_left (fun hnot => hnot hq) n (Herd.mem_of_get? hn) (Herd.id_of_get? hn)

theorem getElem?_onMove (f : Field β) (q : EntityId) (c : MoveCommand) (j : EntityId) :
    (f.onMove q c).players[j]? = f.players[j]?.map fun p =>
      if q = j then p.obey f.config.playerSpeed f.time j c else p := by
  by_cases hc : c.entity = q ∧ q ∈ f.players
  · obtain ⟨hc, hq⟩ := hc
    obtain ⟨p, hp⟩ := IdMap.mem_iff_exists.1 hq
    rw [onMove_of_accepted hc hp]
    change (f.players.insert q _)[j]? = _
    rw [IdMap.getElem?_insert]
    by_cases hj : j = q
    · subst hj
      simp [hp, Player.obey, hc]
    · simp [hj, Ne.symm hj]
  · rw [onMove_of_rejected (by rwa [not_and_or] at hc)]
    by_cases hj : q = j
    · subst hj
      by_cases he : c.entity = q
      · have hq : q ∉ f.players := fun hq => hc ⟨he, hq⟩
        simp [Std.ExtTreeMap.getElem?_eq_none hq]
      · simp [Player.obey, he]
    · simp [hj]

theorem onMove_eq (f : Field β) (q : EntityId) (c : MoveCommand) :
    f.onMove q c = { f with players := (f.onMove q c).players } := by
  unfold onMove
  split
  · rfl
  · split <;> rfl

theorem perform_of_input (f : Field β) {m : Message β} (hm : m.input?.isSome) :
    ∃ players, f.perform (.handle m) = ⟨{ f with players := players },
        if m.isGarbled then [.raise .messagesMalformed 1] else []⟩ ∧
      ∀ j : EntityId, players[j]? = f.players[j]?.map fun p =>
        (m.inputOf? j).elim p (p.obey f.config.playerSpeed f.time j) := by
  rcases hx : m.input? with _ | ⟨q, w⟩
  · rw [hx] at hm
    cases hm
  · have hgarbled : m.isGarbled = w.isNone := by simp [Message.isGarbled, hx]
    have hown : ∀ j, m.inputOf? j = if q = j then w else none := by simp [Message.inputOf?, hx]
    unfold Message.input? at hx
    split at hx
    · next session c hc =>
      cases hx
      refine ⟨(f.onMove q c).players, ?_, fun j => ?_⟩
      · rw [perform, handle_of_command hc, Functor.map_map, hgarbled, ← onMove_eq]
        exact id_map _
      · rw [getElem?_onMove, hown]
        by_cases hj : q = j <;> simp [hj]
    · next session e hc =>
      cases hx
      refine ⟨f.players, ?_, fun j => ?_⟩
      · rw [perform, handle_of_command hc, Functor.map_map, hgarbled]
        exact id_map _
      · rw [hown, ite_self]
        exact Option.map_id'.symm
    · cases hx

/-- After any inputs, each player has followed its own ones in their order, and those that are no
commands have been counted. -/
theorem run_inputs (f : Field β) {l : List (Message β)} (hl : ∀ m ∈ l, m.input?.isSome) :
    ∃ players, f.run (l.map .handle) = ⟨{ f with players := players },
        List.replicate (l.countP (·.isGarbled)) (.raise .messagesMalformed 1)⟩ ∧
      ∀ j : EntityId, players[j]? = f.players[j]?.map fun p =>
        (l.filterMap (·.inputOf? j)).foldl (·.obey f.config.playerSpeed f.time j ·) p := by
  induction l generalizing f with
  | nil => exact ⟨f.players, rfl, fun j => Option.map_id'.symm⟩
  | cons m l ih =>
    obtain ⟨hm, hl⟩ := List.forall_mem_cons.1 hl
    obtain ⟨ps, hstep, hps⟩ := perform_of_input f hm
    obtain ⟨ps', hrun, hps'⟩ := ih { f with players := ps } hl
    refine ⟨ps', ?_, fun j => ?_⟩
    · have hcons : f.run ((m :: l).map .handle) =
          f.perform (.handle m) >>= fun g => g.run (l.map .handle) := List.foldlM_cons
      rw [hcons, hstep]
      refine Emit.ext ?_ ?_
      · rw [Emit.value_bind, hrun]
      · rw [Emit.log_bind, hrun, List.countP_cons]
        cases m.isGarbled <;> simp [List.replicate_succ]
    · rw [hps', hps, Option.map_map, List.filterMap_cons]
      cases m.inputOf? j <;> rfl

theorem run_inputs_perm (f : Field β) {l₁ l₂ : List (Message β)} (hl : ∀ m ∈ l₁, m.input?.isSome)
    (hperm : l₁.Perm l₂)
    (hown : ∀ s, l₁.filter (·.input?.map Prod.fst = some s) =
      l₂.filter (·.input?.map Prod.fst = some s)) :
    f.run (l₁.map .handle) = f.run (l₂.map .handle) := by
  obtain ⟨ps₁, hrun₁, hps₁⟩ := run_inputs f hl
  obtain ⟨ps₂, hrun₂, hps₂⟩ := run_inputs f fun m hm => hl m (hperm.mem_iff.2 hm)
  have hfilter : ∀ (s : EntityId) (l : List (Message β)), l.filterMap (·.inputOf? s) =
      (l.filter (·.input?.map Prod.fst = some s)).filterMap (·.inputOf? s) := by
    intro s l
    rw [List.filterMap_filter]
    refine List.filterMap_congr fun m _ => ?_
    split
    · rfl
    · next h => exact Message.inputOf?_eq_none (by simpa using h)
  have hps : ps₁ = ps₂ := by
    refine Std.ExtTreeMap.ext_getElem? fun j => ?_
    rw [hps₁, hps₂, hfilter j l₁, hfilter j l₂, hown j]
  rw [hrun₁, hrun₂, hps, hperm.countP_eq]

theorem eq_of_perm_of_length_le_one {α : Type} {l m : List α} (h : l.Perm m)
    (hl : l.length ≤ 1) : l = m := by
  rcases l with _ | ⟨a, _ | ⟨b, l⟩⟩
  · exact h.nil_eq
  · exact h.singleton_eq
  · simp at hl

/-- Bytes that are no command are counted and have no other effect, on any route. A move in the name
of another or by nobody who is there, and a blow by nobody who is there or at nothing that lives,
have no effect at all. A move of one's own is noted in one's record, which keeps its name, place and
vitals; nothing else changes and nothing is sent. So inputs come to the same in every order in which
each session's own keep theirs, and in every order whatsoever if no session has two of them. -/
theorem input_is_local (f : Field β) (q : EntityId) (m : Message β) :
    (∀ e, m.command? = some (q, .error e) →
      f.handle m = ⟨(f, .completed), [.raise .messagesMalformed 1]⟩) ∧
    (∀ c, m.command? = some (q, .ok (.move c)) → c.entity ≠ q ∨ q ∉ f.players →
      f.handle m = pure (f, .completed)) ∧
    (∀ c, m.command? = some (q, .ok (.skill c)) →
      q ∉ f.players ∨ (∀ n ∈ f.herd.members, n.id = c.target → ¬ n.isAlive) →
      f.handle m = pure (f, .completed)) ∧
    (∀ c p, m.command? = some (q, .ok (.move c)) → c.entity = q → f.players[q]? = some p →
      ∃ r : Player, f.handle m =
          pure ({ f with players := f.players.insert q r }, .completed) ∧
        r = { p with dir := r.dir, moving := r.moving, speed := r.speed, lastInput := f.time } ∧
        r = p.steer c.dir f.config.playerSpeed f.time) ∧
    (∀ l₁ l₂ : List (Message β), (∀ m ∈ l₁, m.input?.isSome) → l₁.Perm l₂ →
      (∀ s, l₁.filter (·.input?.map Prod.fst = some s) =
        l₂.filter (·.input?.map Prod.fst = some s)) →
      f.run (l₁.map .handle) = f.run (l₂.map .handle)) ∧
    ∀ l₁ l₂ : List (Message β), (∀ m ∈ l₁, m.input?.isSome) → l₁.Perm l₂ →
      (l₁.map (·.input?.map Prod.fst)).Nodup →
      f.run (l₁.map .handle) = f.run (l₂.map .handle) := by
  refine ⟨fun e hm => ?_, fun c hm hc => ?_, fun c hm hc => ?_, fun c p hm hc hp => ?_,
    fun l₁ l₂ => run_inputs_perm f, fun l₁ l₂ hl hperm hnodup => ?_⟩
  · rw [handle_of_command hm]
    rfl
  · rw [handle_of_command hm]
    change (·, Ending.completed) <$> (pure (f.onMove q c) : Effects (Field β)) = _
    rw [onMove_of_rejected hc]
    rfl
  · rw [handle_of_command hm]
    change (·, Ending.completed) <$> f.onSkill q c.target = _
    rw [onSkill_of_rejected hc]
    rfl
  · refine ⟨p.steer c.dir f.config.playerSpeed f.time, ?_, p.eq_of_steer _ _ _, rfl⟩
    rw [handle_of_command hm]
    change (·, Ending.completed) <$> (pure (f.onMove q c) : Effects (Field β)) = _
    rw [onMove_of_accepted hc hp]
    rfl
  · refine run_inputs_perm f hl hperm fun s => eq_of_perm_of_length_le_one (hperm.filter _) ?_
    have hone : (l₁.map (·.input?.map Prod.fst)).count (some s) ≤ 1 := by
      rw [hnodup.count]
      split <;> omega
    rw [List.count_eq_countP, List.countP_map, List.countP_eq_length_filter] at hone
    simpa only [Function.comp_def, beq_eq_decide] using hone

/-- Two players set out; somebody sends no command, and ada one in the name of bob and a blow at
him. -/
theorem input_is_local_pair :
    let f := ((fresh 1 {} Brain.idle () .byId).run
      [.handle (.enter { id := 1, name := "ada", pos := ⟨9, 5⟩ }),
        .handle (.enter { id := 2, name := "bob", pos := ⟨41, 5⟩ })]).value
    let go : Message Unit := .move 1 (MoveCommand.encode ⟨1, Float32.toBits 1, 0⟩)
    let come : Message Unit := .envelope 2 (Envelope.encode (.move ⟨2, Float32.toBits (-1), 0⟩))
    f.handle (.move 3 []) = ⟨(f, .completed), [.raise .messagesMalformed 1]⟩ ∧
      f.handle (.move 1 (MoveCommand.encode ⟨2, 0, 0⟩)) = pure (f, .completed) ∧
      f.handle (.skill 1 (SkillCommand.encode ⟨0, 2⟩)) = pure (f, .completed) ∧
      f.run [.handle go, .handle come] = f.run [.handle come, .handle go] := by
  intro f go come
  have hherd : ∀ n ∈ f.herd.members, n.id = 2 → ¬ n.isAlive := by decide +kernel
  refine ⟨(input_is_local f 3 (.move 3 [])).1 (.unexpectedEnd 8) rfl,
    (input_is_local f 1 _).2.1 ⟨2, 0, 0⟩ rfl (.inl (by decide)),
    (input_is_local f 1 _).2.2.1 ⟨0, 2⟩ rfl (.inr hherd), ?_⟩
  exact (input_is_local f 1 go).2.2.2.2.2 [go, come] [come, go] (by decide +kernel)
    (.swap ..) (by decide +kernel)

end Field
end Fieldwatch
