import Fieldwatch.Proofs.Field.Counting
import Fieldwatch.Proofs.Worker.Accounting
import Mathlib.Algebra.Ring.Nat

/-! Three counters show what a few workers are: how many of them are active, and how many players
and live monsters there are in their fields. Whatever the workers do, its effects move these
counters as it changes what they show, whether a worker is still at work or not. -/

namespace Fieldwatch

variable {β : Type}

inductive Tally where
  | activity
  | within (g : Gauge)

namespace Worker

def IsFair (w : Worker β) : Prop := ∀ m ∈ w.unhandled, m.IsFair

end Worker

namespace Tally

def counter : Tally → Counter
  | activity => .fieldsActive
  | within g => g.counter

def read : Tally → Worker β → Nat
  | activity, w => if w.stage = .running ∨ w.stage = .stopping then 1 else 0
  | within g, w => g.read w.field

def total (t : Tally) (ws : List (Worker β)) : Nat := (ws.map t.read).sum

variable (t : Tally) {ws vs : List (Worker β)}

@[simp] theorem total_singleton (w : Worker β) : t.total [w] = t.read w := by simp [total]

@[simp] theorem total_append (ws vs : List (Worker β)) :
    t.total (ws ++ vs) = t.total ws + t.total vs := by simp [total]

theorem total_of_running (h : ∀ w ∈ ws, w.stage = .running) : activity.total ws = ws.length := by
  have hone : ws.map activity.read = ws.map fun _ => 1 :=
    List.map_congr_left fun w hw => by simp [read, h w hw]
  rw [total, hone, List.map_const', List.sum_replicate_nat, Nat.mul_one]

theorem total_of_stopped (h : ∀ w ∈ ws, w.stage = .stopped) : activity.total ws = 0 := by
  have hnone : ws.map activity.read = ws.map fun _ => 0 :=
    List.map_congr_left fun w hw => by simp [read, h w hw]
  rw [total, hnone, List.map_const', List.sum_replicate_nat, Nat.mul_zero]

theorem total_perm (h : ws.Perm vs) : t.total ws = t.total vs := (h.map t.read).sum_nat

end Tally

/-- What happens to some workers, with these effects. Some may be new afterwards, but none is given
up. -/
structure Upkeep (ws : List (Worker β)) (l : List Effect) (vs : List (Worker β)) : Prop where
  fair : (∀ w ∈ ws, w.IsFair) → ∀ v ∈ vs, v.IsFair
  /-- Monsters only ever come. -/
  room : (∀ w ∈ ws, w.IsFair) → (∀ v ∈ vs, v.field.herd.size ≤ Herd.room) →
    ∀ w ∈ ws, w.field.herd.size ≤ Herd.room
  sound : (∀ w ∈ ws, w.IsFair) → (∀ v ∈ vs, v.field.herd.size ≤ Herd.room) →
    (∀ w ∈ ws, w.field.herd.Sound) → ∀ v ∈ vs, v.field.herd.Sound
  balance_eq : (∀ w ∈ ws, w.IsFair) → (∀ v ∈ vs, v.field.herd.size ≤ Herd.room) →
    (∀ w ∈ ws, w.field.herd.Sound) → ∀ t : Tally, t.counter.balance l = t.total vs - t.total ws

namespace Upkeep

variable {ws us vs : List (Worker β)} {l m : List Effect}

theorem refl (ws : List (Worker β)) : Upkeep ws [] ws where
  fair h := h
  room _ h := h
  sound _ _ h := h
  balance_eq _ _ _ _ := (Int.sub_self _).symm

theorem trans (h : Upkeep ws l us) (k : Upkeep us m vs) : Upkeep ws (l ++ m) vs where
  fair hf := k.fair (h.fair hf)
  room hf hr := h.room hf (k.room (h.fair hf) hr)
  sound hf hr hs := k.sound (h.fair hf) hr (h.sound hf (k.room (h.fair hf) hr) hs)
  balance_eq hf hr hs t := by
    have hroom := k.room (h.fair hf) hr
    rw [Counter.balance_append, h.balance_eq hf hroom hs,
      k.balance_eq (h.fair hf) hr (h.sound hf hroom hs)]
    omega

theorem perm {ws' vs' : List (Worker β)} (h : Upkeep ws l vs) (hw : ws'.Perm ws)
    (hv : vs'.Perm vs) : Upkeep ws' l vs' where
  fair hf v hm := h.fair (fun w hw' => hf w (hw.mem_iff.2 hw')) v (hv.mem_iff.1 hm)
  room hf hr w hm := h.room (fun w hw' => hf w (hw.mem_iff.2 hw'))
    (fun v hv' => hr v (hv.mem_iff.2 hv')) w (hw.mem_iff.1 hm)
  sound hf hr hs v hm := h.sound (fun w hw' => hf w (hw.mem_iff.2 hw'))
    (fun v hv' => hr v (hv.mem_iff.2 hv')) (fun w hw' => hs w (hw.mem_iff.2 hw')) v
    (hv.mem_iff.1 hm)
  balance_eq hf hr hs t := by
    rw [t.total_perm hw, t.total_perm hv]
    exact h.balance_eq (fun w hw' => hf w (hw.mem_iff.2 hw')) (fun v hv' => hr v (hv.mem_iff.2 hv'))
      (fun w hw' => hs w (hw.mem_iff.2 hw')) t

theorem frame (h : Upkeep ws l vs) (us : List (Worker β)) : Upkeep (ws ++ us) l (vs ++ us) where
  fair hf := by
    rw [List.forall_mem_append] at hf ⊢
    exact ⟨h.fair hf.1, hf.2⟩
  room hf hr := by
    rw [List.forall_mem_append] at hf hr ⊢
    exact ⟨h.room hf.1 hr.1, hr.2⟩
  sound hf hr hs := by
    rw [List.forall_mem_append] at hf hr hs ⊢
    exact ⟨h.sound hf.1 hr.1 hs.1, hs.2⟩
  balance_eq hf hr hs t := by
    rw [List.forall_mem_append] at hf hr hs
    rw [h.balance_eq hf.1 hr.1 hs.1, Tally.total_append, Tally.total_append]
    omega

theorem of_fair (h : (∀ w ∈ ws, w.IsFair) → Upkeep ws l vs) : Upkeep ws l vs where
  fair hf := (h hf).fair hf
  room hf := (h hf).room hf
  sound hf := (h hf).sound hf
  balance_eq hf := (h hf).balance_eq hf

theorem of_field_eq {w v : Worker β} (hf : v.field = w.field)
    (hu : ∀ m ∈ v.unhandled, m ∈ w.unhandled ∨ m.IsFair)
    (hb : ∀ t : Tally, t.counter.balance l = t.read v - t.read w) : Upkeep [w] l [v] where
  fair h := List.forall_mem_singleton.2 fun m hm =>
    (hu m hm).elim (List.forall_mem_singleton.1 h m) id
  room _ h := by
    rw [List.forall_mem_singleton] at h ⊢
    rwa [← hf]
  sound _ _ h := by
    rw [List.forall_mem_singleton] at h ⊢
    rwa [hf]
  balance_eq _ _ _ t := by
    rw [Tally.total_singleton, Tally.total_singleton]
    exact hb t

theorem of_run {w v : Worker β} {ds : List (Deed β)} (hd : ∀ d ∈ ds, d.IsFair)
    (hf : v.field = (w.field.run ds).value) (hu : ∀ m ∈ v.unhandled, m ∈ w.unhandled)
    (hs : v.stage = w.stage) (hm : ∀ t : Tally, t.counter.balance m = 0) :
    Upkeep [w] ((w.field.run ds).log ++ m) [v] where
  fair h := List.forall_mem_singleton.2 fun m hm => List.forall_mem_singleton.1 h m (hu m hm)
  room _ h := by
    rw [List.forall_mem_singleton, hf] at h
    exact List.forall_mem_singleton.2
      (Nat.le_trans (Field.size_le_run _ fun d hd' => (hd d hd').not_isJob) h)
  sound _ hr h := by
    rw [List.forall_mem_singleton] at h
    rw [List.forall_mem_singleton, hf] at hr ⊢
    exact (Field.tracks_run .players h hd hr).2
  balance_eq _ hr h t := by
    rw [List.forall_mem_singleton] at h
    rw [List.forall_mem_singleton, hf] at hr
    rw [Counter.balance_append, hm, Int.add_zero, Tally.total_singleton, Tally.total_singleton]
    cases t with
    | activity =>
      have hdom := Field.domestic_run w.field fun d hd' => (hd d hd').not_isJob
      have hread : Tally.activity.read v = Tally.activity.read w := by simp [Tally.read, hs]
      rw [hread, Int.sub_self]
      exact hdom.balance_eq (by decide)
    | within g =>
      have ht := (Field.tracks_run g h hd hr).1
      rw [Tally.read, Tally.read, hf, ← ht.balance_eq, Gauge.balance_eq_balance]
      rfl

end Upkeep

namespace Tally

variable (t : Tally)

theorem counter_mem : t.counter ∈ [Counter.fieldsActive, .playersActive, .npcsAlive] := by
  rcases t with _ | _ | _ <;> decide

theorem balance_raise {c : Counter} (hc : c ∉ [Counter.fieldsActive, .playersActive, .npcsAlive])
    (n : UInt64) : t.counter.balance [.raise c n] = 0 := by
  have hne : c ≠ t.counter := fun h => hc (h ▸ t.counter_mem)
  simp [Effect.shift, hne]

theorem ofInt_natCast (n : Nat) : UInt64.ofInt n = UInt64.ofNat n := by
  rw [← UInt64.toNat_inj, UInt64.ofInt, UInt64.toNat_ofNat', UInt64.toNat_ofNat']
  omega

theorem get_recordStep (m : Counters) (us : UInt64) :
    (m.recordStep us).get t.counter = m.get t.counter := by
  cases t with
  | activity =>
    unfold Counters.recordStep
    dsimp only
    split <;> rfl
  | within g => exact Gauge.get_recordStep m us g

theorem get_apply (us : UInt64) (m : Counters) (e : Effect) :
    (m.apply us e).get t.counter = m.get t.counter + UInt64.ofInt (e.shift t.counter) := by
  cases e with
  | notify n => exact (UInt64.add_zero _).symm
  | stepped => exact (t.get_recordStep m us).trans (UInt64.add_zero _).symm
  | raise c n =>
    rw [Counters.apply, Counters.raise, Counters.get_set, Effect.shift]
    split
    · next hc => rw [hc, ofInt_natCast, UInt64.ofNat_toNat]
    · exact (UInt64.add_zero _).symm
  | lower c n =>
    rw [Counters.apply, Counters.lower, Counters.get_set, Effect.shift]
    split
    · next hc => rw [hc, UInt64.ofInt_neg, ofInt_natCast, UInt64.ofNat_toNat, UInt64.sub_eq_add_neg]
    · exact (UInt64.add_zero _).symm

theorem get_foldl_apply (us : UInt64) (l : List Effect) (m : Counters) :
    (l.foldl (Counters.apply us) m).get t.counter =
      m.get t.counter + UInt64.ofInt (t.counter.balance l) := by
  induction l generalizing m with
  | nil => exact (UInt64.add_zero _).symm
  | cons e l ih =>
    rw [List.foldl_cons, ih, get_apply, UInt64.add_assoc, ← UInt64.ofInt_add, Counter.balance_cons]

end Tally

namespace Worker

variable {w : Worker β}

def Keeps (w : Worker β) (m : Effects (Worker β)) : Prop := Upkeep [w] m.log [m.value]

theorem Keeps.bind {m : Effects (Worker β)} {k : Worker β → Effects (Worker β)} (h : w.Keeps m)
    (hk : m.value.Keeps (k m.value)) : w.Keeps (m >>= k) := Upkeep.trans h hk

theorem keeps_pure {v : Worker β} (hf : v.field = w.field) (hu : v.unhandled = w.unhandled)
    (hs : Tally.activity.read v = Tally.activity.read w) : w.Keeps (pure v) := by
  refine .of_field_eq hf (fun m hm => .inl (hu ▸ hm)) fun t => ?_
  cases t with
  | activity => simp [hs]
  | within g => simp [Tally.read, hf]

theorem keeps_push {m : Message β} (hm : m.IsFair) : w.Keeps (Prod.snd <$> w.push m) := by
  unfold push
  split
  · refine .of_field_eq rfl (fun _ => .inl) fun t => ?_
    exact (t.balance_raise (by decide) 1).trans (Int.sub_self _).symm
  · split
    · refine .of_field_eq rfl (fun _ => .inl) fun t => ?_
      exact (t.balance_raise (by decide) 1).trans (Int.sub_self _).symm
    · refine .of_field_eq rfl (fun x hx => ?_) fun t => ?_
      · change x ∈ Worker.unhandled { w with mailbox := w.mailbox ++ [.message m] } at hx
        rw [Ledger.unhandled_append, List.mem_append] at hx
        rcases hx with hx | hx
        · exact .inl hx
        · rw [List.mem_singleton.1 hx]
          exact .inr hm
      · have hread : t.read { w with mailbox := w.mailbox ++ [.message m] } = t.read w := by
          cases t <;> rfl
        change t.counter.balance [.raise .messagesPushed 1] =
          t.read { w with mailbox := w.mailbox ++ [.message m] } - t.read w
        rw [t.balance_raise (by decide), hread, Int.sub_self]

theorem keeps_start : w.Keeps w.start := by
  unfold start
  split
  · next hs =>
    refine .of_field_eq rfl (fun m hm => .inl (List.mem_append_right _ hm)) fun t => ?_
    rcases t with _ | _ | _ <;>
      simp [emit, Tally.read, Tally.counter, Gauge.counter, Effect.shift, hs]
  · exact keeps_pure rfl rfl rfl

theorem unhandled_receive (w : Worker β) : w.receive.unhandled = w.unhandled := by
  unfold receive
  split
  · next hl hm => simp [unhandled, inHand, queued, hl, hm, Mail.message?]
  · next hl hm =>
    rw [unhandled, unhandled, inHand, inHand, hl, queued, queued, hm]
    rfl
  · rfl

theorem stage_receive (w : Worker β) : w.receive.stage = w.stage := by
  unfold receive
  split <;> rfl

theorem keeps_receive : w.Keeps (pure w.receive) := by
  have hf : w.receive.field = w.field := by
    unfold receive
    split <;> rfl
  exact keeps_pure hf w.unhandled_receive (by simp [Tally.read, w.stage_receive])

theorem finish_eq {m : Message β} (hl : w.loop = .handling m) : w.finish =
    ⟨{ w with field := (w.field.handle m).value.1, loop := .waiting },
      (w.field.handle m).log ++ .raise .messagesProcessed 1 ::
        if (w.field.handle m).value.2 = .completed then [] else [.raise .handlerPanics 1]⟩ := by
  rw [finish, hl]
  exact Emit.ext rfl (congrArg ((w.field.handle m).log ++ .raise .messagesProcessed 1 :: ·)
    (List.append_nil _))

theorem keeps_finish : w.Keeps w.finish := by
  rcases hl : w.loop with _ | _ | m | _
  case handling =>
    have hu : w.unhandled = m :: w.queued := by rw [unhandled, inHand, hl]; rfl
    rw [finish_eq hl]
    refine .of_fair fun hfair => ?_
    have hm : m.IsFair := List.forall_mem_singleton.1 hfair m (by simp [hu])
    obtain ⟨ds, ending, hds, hhandle⟩ := w.field.exists_run_of_fair hm
    rw [hhandle, Emit.log_map, Emit.value_map]
    refine .of_run (w := w) hds rfl (fun x hx => List.mem_append_right _ hx) rfl fun t => ?_
    rw [← List.singleton_append, Counter.balance_append, t.balance_raise (by decide), Int.zero_add]
    split
    · rfl
    · exact t.balance_raise (by decide) 1
  all_goals
    have hw : w.finish = pure w := by rw [finish, hl]
    rw [hw]
    exact .refl _

theorem keeps_runFor (n : Nat) (w : Worker β) : w.Keeps (runFor n w) := by
  induction n generalizing w with
  | zero => exact .refl _
  | succ n ih => exact (keeps_receive.bind (k := finish) keeps_finish).bind (ih _)

theorem keeps_run : w.Keeps w.run := keeps_finish.bind (keeps_runFor _ _)

theorem keeps_close : w.Keeps (pure w.close) := by
  unfold close
  split
  · next hs => exact keeps_pure rfl rfl (by simp [Tally.read, hs])
  · next hs => exact keeps_pure rfl rfl (by simp [Tally.read, hs])
  · exact keeps_pure rfl rfl rfl
  · exact keeps_pure rfl rfl rfl

theorem keeps_postShutdown : w.Keeps (pure w.postShutdown) := by
  unfold postShutdown
  split
  · refine keeps_pure rfl ?_ rfl
    exact (Ledger.unhandled_append w .shutdown).trans (List.append_nil _)
  · exact keeps_pure rfl rfl rfl

theorem keeps_retire : w.Keeps w.retire := by
  unfold retire
  split
  · next hs =>
    refine .of_field_eq rfl (fun _ => .inl) fun t => ?_
    rcases t with _ | _ | _ <;>
      simp [emit, Tally.read, Tally.counter, Gauge.counter, Effect.shift, hs]
  · exact keeps_pure rfl rfl rfl

theorem keeps_stop : w.Keeps w.stop := by
  unfold stop
  split
  · refine (keeps_close.bind (k := run) keeps_run).bind ?_
    exact (keeps_postShutdown.bind (k := run) keeps_run).bind keeps_retire
  · exact keeps_close

theorem stage_push (w : Worker β) (m : Message β) : (w.push m).value.2.stage = w.stage := by
  unfold push
  split
  · rfl
  · split <;> rfl

theorem stage_finish (w : Worker β) : w.finish.value.stage = w.stage := by
  unfold finish
  split <;> rfl

theorem stage_runFor (n : Nat) (w : Worker β) : (runFor n w).value.stage = w.stage := by
  induction n generalizing w with
  | zero => rfl
  | succ n ih => rw [runFor, Emit.value_bind, ih, stage_finish, stage_receive]

theorem stage_run (w : Worker β) : w.run.value.stage = w.stage := by
  rw [run, Emit.value_bind, stage_runFor, stage_finish]

theorem stage_postShutdown (w : Worker β) : w.postShutdown.stage = w.stage := by
  unfold postShutdown
  split <;> rfl

theorem stage_stop (hs : w.stage = .running) : w.stop.value.stage = .stopped := by
  have hclose : w.close.stage = .stopping := by rw [close, hs]
  have hlast : w.close.run.value.postShutdown.run.value.stage = .stopping := by
    rw [stage_run, stage_postShutdown, stage_run, hclose]
  rw [stop, if_pos hs, Emit.value_bind, Emit.value_bind, retire, if_pos hlast]
  rfl

end Worker
end Fieldwatch
