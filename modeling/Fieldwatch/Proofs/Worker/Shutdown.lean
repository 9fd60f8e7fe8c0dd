import Fieldwatch.Proofs.Worker.Course

/-! What becomes of the loop of a worker that is stopped. The loop leaves with the last mail. A stop
from outside waits until there is room for it, so that it comes behind all messages that were
accepted; a stop from within does not wait, and with a full mailbox the last mail is lost. The
worker is stopped all the same, and its loop waits for mail for ever. -/

namespace Fieldwatch

variable {κ β : Type}

namespace Worker

variable {w : Worker β}

theorem queued_of_last {ms : List (Message β)} (hm : w.mailbox = ms.map .message ++ [.shutdown]) :
    w.queued = ms := by
  rw [queued, hm, List.filterMap_append, List.filterMap_map]
  exact (List.append_nil _).trans List.filterMap_some

section Running

theorem capacity_finish (w : Worker β) : w.finish.value.capacity = w.capacity := by
  unfold finish
  split <;> rfl

theorem capacity_receive (w : Worker β) : w.receive.capacity = w.capacity := by
  unfold receive
  split <;> rfl

theorem capacity_runFor (n : Nat) (w : Worker β) : (runFor n w).value.capacity = w.capacity := by
  induction n generalizing w with
  | zero => rfl
  | succ n ih => exact (ih _).trans ((capacity_finish _).trans (capacity_receive w))

theorem capacity_run (w : Worker β) : w.run.value.capacity = w.capacity :=
  (capacity_runFor _ _).trans (capacity_finish w)

theorem exists_runFor_messages (ms : List (Message β)) (rest : List (Mail β)) (n : Nat)
    (hl : w.loop = .waiting) (hm : w.mailbox = ms.map .message ++ rest) :
    ∃ field, (runFor (ms.length + n) w).value =
      (runFor n { w with field := field, mailbox := rest }).value := by
  induction ms generalizing w with
  | nil =>
    have hrest : w.mailbox = rest := hm
    subst hrest
    refine ⟨w.field, ?_⟩
    rw [List.length_nil, Nat.zero_add]
  | cons m ms ih =>
    let v : Worker β := { w with
      field := (w.field.handle m).value.1
      mailbox := ms.map .message ++ rest }
    have hone : w.receive.finish.value = v := by
      have hreceive : w.receive =
          { w with loop := .handling m, mailbox := ms.map .message ++ rest } := by
        rw [receive, hl, hm]
        rfl
      rw [hreceive, finish_eq rfl, ← hl]
    have hlength : (m :: ms).length + n = ms.length + n + 1 := by
      rw [List.length_cons]
      omega
    obtain ⟨field, hfield⟩ := ih (w := v) hl rfl
    refine ⟨field, ?_⟩
    rw [hlength, runFor, Emit.value_bind, hone, hfield]

theorem exists_finish_of_ne (hu : w.loop ≠ .unstarted) (he : w.loop ≠ .exited) :
    ∃ field, w.finish.value = { w with field := field, loop := .waiting } := by
  rcases hl : w.loop with _ | _ | m | _
  · exact (hu hl).elim
  · have hw : w.finish = pure w := by rw [finish, hl]
    refine ⟨w.field, ?_⟩
    rw [hw, ← hl]
    rfl
  · rw [finish_eq hl]
    exact ⟨_, rfl⟩
  · exact (he hl).elim

theorem Goes.run (h : w.Goes) (hu : w.loop ≠ .unstarted) :
    w.run.value.loop = .waiting ∧ w.run.value.mailbox = [] := by
  obtain ⟨he, ms, hm⟩ := h
  obtain ⟨field, hfinish⟩ := exists_finish_of_ne hu he
  obtain ⟨field', hrun⟩ := exists_runFor_messages (w := w.finish.value) ms [] 0
    (by rw [hfinish]) (by rw [hfinish, List.append_nil]; exact hm)
  have hlength : w.finish.value.mailbox.length = ms.length + 0 := by
    rw [hfinish, hm, List.length_map, Nat.add_zero]
  rw [Worker.run, Emit.value_bind, hlength, hrun, hfinish]
  exact ⟨rfl, rfl⟩

theorem Ends.run (h : w.Ends) (hu : w.loop ≠ .unstarted) :
    w.run.value.loop = .exited ∧ w.run.value.mailbox = [] := by
  rcases h with ⟨he, ms, hm⟩ | ⟨he, hm⟩
  · obtain ⟨field, hfinish⟩ := exists_finish_of_ne hu he
    obtain ⟨field', hrun⟩ := exists_runFor_messages (w := w.finish.value) ms [.shutdown] 1
      (by rw [hfinish]) (by rw [hfinish]; exact hm)
    have hlength : w.finish.value.mailbox.length = ms.length + 1 := by
      rw [hfinish, hm, List.length_append, List.length_map]
      rfl
    rw [Worker.run, Emit.value_bind, hlength, hrun, hfinish]
    exact ⟨rfl, rfl⟩
  · have hfinish : w.finish = pure w := by rw [finish, he]
    rw [Worker.run, hfinish, pure_bind, hm]
    exact ⟨he, hm⟩

end Running

end Worker

namespace Tenure

section Last

variable [DecidableEq κ] {P : Message β → Prop} {inside : κ → Prop} {s t : Tenure κ β}
  {l : List Effect}

theorem Step.lost (hst : Step P inside s l t) (ht : t.last = .lost) : s.last = .lost ∨
    ∃ k, inside k ∧ s.calls k = some .post ∧ s.worker.isFull = true ∧ t.worker = s.worker := by
  cases hst with
  | postWithin hk hi =>
    rcases hr : s.worker.isFull with _ | _
    · rw [hr] at ht
      cases ht
    · exact .inr ⟨_, hi, hk, rfl, Worker.postShutdown_of_full hr⟩
  | post => cases ht
  | push | callStart | callStop | start | close | join | retire | settle | receive | finish =>
    exact .inl ht

theorem Step.last_eq (hst : Step P inside s l t) (h : s.Sound P) (hs : s.last ≠ .due) :
    t.last = s.last := by
  cases hst with
  | post hk | postWithin hk => exact (hs (h.mailed.suits hk)).elim
  | push | callStart | callStop | start | close | join | retire | settle | receive | finish => rfl

theorem Sound.last_eq (h : s.Sound P) (hs : s.last ≠ .due) (hst : Reaches P inside s t) :
    t.last = s.last := by
  induction hst with
  | refl => rfl
  | tail hsu hut ih =>
    obtain ⟨l, hut⟩ := hut
    exact (hut.last_eq (h.reaches hsu) (ih ▸ hs)).trans ih

theorem Reaches.not_lost (hst : Reaches P inside s t) (ho : ∀ k, ¬ inside k)
    (hs : s.last ≠ .lost) : t.last ≠ .lost := by
  induction hst with
  | refl => exact hs
  | tail _ hut ih =>
    obtain ⟨l, hut⟩ := hut
    intro ht
    rcases hut.lost ht with hu | ⟨k, hk, -⟩
    · exact ih hu
    · exact ho k hk

end Last

section Alone

variable [DecidableEq κ] (P : Message β → Prop) (inside : κ → Prop) (s : Tenure κ β) {k : κ}

theorem exists_reaches_receive : ∃ t, s.Reaches P inside t ∧ t.worker = s.worker.receive ∧
    t.calls = s.calls := by
  by_cases hs : s.worker.loop = .waiting ∧ s.worker.mailbox ≠ []
  · exact ⟨_, .single ⟨_, .receive s hs.1 hs.2⟩, rfl, rfl⟩
  · have hidle : s.worker.receive = s.worker := by
      unfold Worker.receive
      split
      · next hl hm => exact (hs ⟨hl, hm ▸ List.cons_ne_nil _ _⟩).elim
      · next hl hm => exact (hs ⟨hl, hm ▸ List.cons_ne_nil _ _⟩).elim
      · rfl
    exact ⟨s, .refl, hidle.symm, rfl⟩

theorem exists_reaches_finish (hq : ∀ j, inside j → s.calls j = none) :
    ∃ t, s.Reaches P inside t ∧ t.worker = s.worker.finish.value ∧ t.calls = s.calls := by
  rcases hl : s.worker.loop with _ | _ | m | _
  case handling => exact ⟨_, .single ⟨_, .finish s hl hq⟩, rfl, rfl⟩
  all_goals
    have hidle : s.worker.finish = pure s.worker := by rw [Worker.finish, hl]
    exact ⟨s, .refl, by rw [hidle]; rfl, rfl⟩

theorem exists_reaches_runFor (n : Nat) (hq : ∀ j, inside j → s.calls j = none) :
    ∃ t, s.Reaches P inside t ∧ t.worker = (s.worker.runFor n).value ∧ t.calls = s.calls := by
  induction n generalizing s with
  | zero => exact ⟨s, .refl, rfl, rfl⟩
  | succ n ih =>
    obtain ⟨t, hst, hreceive, ht⟩ := s.exists_reaches_receive P inside
    obtain ⟨u, htu, hfinish, hu⟩ := t.exists_reaches_finish P inside (ht ▸ hq)
    obtain ⟨v, huv, hrun, hv⟩ := ih u (hu ▸ ht ▸ hq)
    refine ⟨v, (hst.trans htu).trans huv, ?_, hv.trans (hu.trans ht)⟩
    rw [hrun, hfinish, hreceive, Worker.runFor, Emit.value_bind]

theorem exists_reaches_run (hq : ∀ j, inside j → s.calls j = none) :
    ∃ t, s.Reaches P inside t ∧ t.worker = s.worker.run.value ∧ t.calls = s.calls := by
  obtain ⟨t, hst, hfinish, ht⟩ := s.exists_reaches_finish P inside hq
  obtain ⟨u, htu, hrun, hu⟩ := t.exists_reaches_runFor P inside t.worker.mailbox.length (ht ▸ hq)
  refine ⟨u, hst.trans htu, ?_, hu.trans ht⟩
  rw [hrun, hfinish, Worker.run, Emit.value_bind]

theorem exists_reaches_close (hk : s.calls k = none) (ha : s.MayAct inside k) :
    ∃ t, s.Reaches P inside t ∧ t.worker = s.worker.close ∧ t.calls =
      Function.update s.calls k (if s.worker.stage = .running then some .post else none) := by
  have hcall : Function.update s.calls k (some Call.stop) k = some .stop := Function.update_self ..
  refine ⟨_, .head ⟨_, .callStop s hk ha⟩ (.single ⟨_, .close _ hcall ha⟩), rfl, ?_⟩
  exact Function.update_idem ..

theorem exists_reaches_retire (hk : s.calls k = some .retire) (ha : s.MayAct inside k) :
    ∃ t, s.Reaches P inside t ∧ t.worker = s.worker.retire.value ∧
      t.calls = Function.update s.calls k none := by
  have hloop : s.worker.retire.value.loop = s.worker.loop := by
    unfold Worker.retire
    split <;> rfl
  have hcall : Function.update s.calls k (some (Call.settle s.worker.retire.log)) k =
      some (.settle s.worker.retire.log) := Function.update_self ..
  refine ⟨_, .head ⟨_, .retire s hk ha⟩ (.single ⟨_, .settle _ hcall fun hi => ?_⟩), rfl, ?_⟩
  · obtain ⟨m, hm⟩ := ha hi
    exact ⟨m, hloop.trans hm⟩
  · exact Function.update_idem ..

theorem exists_reaches_stopFromWithin (hk : s.calls k = none) (hi : inside k) {m : Message β}
    (hl : s.worker.loop = .handling m) (hs : s.worker.stage = .running) :
    ∃ t, s.Reaches P inside t ∧ t.worker = s.worker.stopFromWithin.value ∧ t.calls = s.calls := by
  obtain ⟨t, hst, hclose, ht⟩ := s.exists_reaches_close P inside hk fun _ => ⟨m, hl⟩
  rw [if_pos hs] at ht
  have hpost : t.calls k = some .post := by rw [ht, Function.update_self]
  have hloop : t.worker.loop = .handling m := by rw [hclose, Worker.close_of_running hs, hl]
  let u : Tenure κ β := { t.turn k (some .retire) with
    worker := t.worker.postShutdown
    last := if t.worker.isFull then .lost else .posted }
  have htu : t.Reaches P inside u := .single ⟨_, .postWithin t hpost hi fun _ => ⟨m, hloop⟩⟩
  have hloop' : u.worker.loop = .handling m := by
    change t.worker.postShutdown.loop = _
    unfold Worker.postShutdown
    split <;> exact hloop
  have hcall : u.calls k = some .retire := Function.update_self ..
  obtain ⟨v, huv, hretire, hv⟩ := u.exists_reaches_retire P inside hcall fun _ => ⟨m, hloop'⟩
  refine ⟨v, (hst.trans htu).trans huv, ?_, ?_⟩
  · rw [hretire, Worker.stopFromWithin, ← hclose]
  · change v.calls = Function.update (Function.update t.calls k _) k none at hv
    rw [hv, ht, Function.update_idem, Function.update_idem, ← hk, Function.update_eq_self]

variable {P inside s}

theorem idle_of_turn {c : Option Call} (hq : ∀ j, inside j → s.calls j = none) (ho : ¬ inside k)
    (j : κ) (hj : inside j) : Function.update s.calls k c j = none := by
  have hjk : j ≠ k := fun he => ho (he ▸ hj)
  rw [Function.update_of_ne hjk]
  exact hq j hj

theorem exists_reaches_join (h : s.Sound P) (hk : s.calls k = some .post) (ho : ¬ inside k)
    (hq : ∀ j, inside j → s.calls j = none) (hr : s.worker.isFull = false) :
    ∃ t, s.Reaches P inside t ∧ t.worker = s.worker.postShutdown.run.value ∧
      t.calls = Function.update s.calls k (some .retire) := by
  let t : Tenure κ β :=
    { s.turn k (some .join) with worker := s.worker.postShutdown, last := .posted }
  have ht : t.Sound P := h.post hk hr
  have hstopping : t.worker.stage = .stopping :=
    s.worker.stage_postShutdown.trans (h.ruled.stage_eq hk rfl).1
  obtain ⟨u, htu, hrun, hu⟩ := t.exists_reaches_run P inside (idle_of_turn hq ho)
  have hends : t.worker.Ends := ht.mailed.shows
  have hleft : u.worker.loop = .exited := by
    rw [hrun]
    exact (hends.run (ht.coherent.started (.inr hstopping))).1
  have hjoin : u.calls k = some .join := by
    rw [hu]
    exact Function.update_self ..
  refine ⟨u.turn k (some .retire), .head ⟨_, .post s hk ho hr⟩ (htu.tail ⟨_, .join u hjoin hleft⟩),
    hrun, ?_⟩
  change Function.update u.calls k _ = _
  rw [hu]
  exact Function.update_idem ..

theorem exists_reaches_stop (h : s.Sound P) (hk : s.calls k = none) (ho : ¬ inside k)
    (hq : ∀ j, inside j → s.calls j = none) (hc : 0 < s.worker.capacity) :
    ∃ t, s.Reaches P inside t ∧ t.worker = s.worker.stop.value ∧ t.calls = s.calls := by
  obtain ⟨t, hst, hclose, ht⟩ := s.exists_reaches_close P inside hk fun hi => (ho hi).elim
  by_cases hs : s.worker.stage = .running
  · rw [if_pos hs] at ht
    have hsound := h.reaches hst
    have hclosed : t.worker.stage = .stopping := by rw [hclose, Worker.close_of_running hs]
    have hpost : t.calls k = some .post := by rw [ht, Function.update_self]
    have hgoes : t.worker.Goes := by
      have hshows := hsound.mailed.shows
      have hdue : t.last = .due := hsound.mailed.suits hpost
      rw [hdue] at hshows
      exact hshows
    -- the loop has emptied the mailbox, so that there is room for the last mail
    have hempty := (hgoes.run (hsound.coherent.started (.inr hclosed))).2
    obtain ⟨u, htu, hrun, hu⟩ := t.exists_reaches_run P inside (ht ▸ idle_of_turn hq ho)
    have hroom : u.worker.isFull = false := by
      rw [hrun, Worker.isFull, hempty, Worker.capacity_run, hclose, Worker.close_of_running hs]
      exact decide_eq_false (Nat.not_le_of_lt hc)
    obtain ⟨v, huv, hleft, hv⟩ := exists_reaches_join (hsound.reaches htu) (hu ▸ hpost) ho
      (hu ▸ ht ▸ idle_of_turn hq ho) hroom
    have hcall : v.calls k = some .retire := by rw [hv, Function.update_self]
    obtain ⟨x, hvx, hretire, hx⟩ := v.exists_reaches_retire P inside hcall fun hi => (ho hi).elim
    refine ⟨x, ((hst.trans htu).trans huv).trans hvx, ?_, ?_⟩
    · rw [hretire, hleft, hrun, hclose, Worker.stop, if_pos hs]
      rfl
    · rw [hx, hv, hu, ht, Function.update_idem, Function.update_idem, ← hk,
        Function.update_eq_self]
  · rw [if_neg hs, ← hk, Function.update_eq_self] at ht
    refine ⟨t, hst, ?_, ht⟩
    rw [hclose, Worker.stop, if_neg hs]
    rfl

end Alone

variable [DecidableEq κ]

/-- However a worker was stopped that once was started: either its loop has left and has handled all
that was accepted, or the last mail waits behind all that is still to be handled and the loop will
leave, or the last mail is lost. It is lost for good, and only to a stop from within that found the
mailbox full; from then on the loop never leaves, and waits once it has handled all messages. -/
theorem last_mail_waits_unless_lost (field : Field β) (capacity : Nat) (inside : κ → Prop)
    {s : Tenure κ β} (h : (init field capacity).Reaches (fun _ => True) inside s) :
    (∀ l t, Step (fun _ => True) inside s l t → t.last = .lost → s.last = .lost ∨
      ∃ k, inside k ∧ s.calls k = some .post ∧ s.worker.isFull = true ∧ t.worker = s.worker) ∧
    ((∀ k, ¬ inside k) → s.last ≠ .lost) ∧
    (s.worker.stage = .stopped → s.spawned ≠ 0 →
      s.last ≠ .due ∧ (∀ t, s.Reaches (fun _ => True) inside t → t.last = s.last) ∧
      (s.last = .posted →
        (s.worker.loop = .exited ∧ s.worker.mailbox = [] ∧ s.accepted = s.handled ∨
          s.worker.loop ≠ .exited ∧ ∃ ms, s.worker.mailbox = ms.map .message ++ [.shutdown] ∧
            s.accepted = s.handled ++ (s.worker.inHand ++ ms)) ∧
        s.worker.run.value.loop = .exited ∧ s.worker.run.value.mailbox = []) ∧
      (s.last = .lost → ∀ t, s.Reaches (fun _ => True) inside t →
        t.worker.loop ≠ .exited ∧ .shutdown ∉ t.worker.mailbox ∧
        t.worker.run.value.loop = .waiting ∧ t.worker.run.value.mailbox = [])) := by
  have hsound := (sound_init (fun _ => True) field capacity).reaches h
  have hdue : (init field capacity : Tenure κ β).last ≠ .lost := fun hl => by cases hl
  refine ⟨fun l t hst => hst.lost, fun ho => h.not_lost ho hdue, fun hs hspawned => ?_⟩
  have hlate : s.last ≠ .due := hsound.mailed.settled hs (hsound.started hspawned)
  have hkept : ∀ t, s.Reaches (fun _ => True) inside t → t.last = s.last :=
    fun t hst => hsound.last_eq hlate hst
  refine ⟨hlate, hkept, fun hl => ?_, fun hl t hst => ?_⟩
  · have hends : s.worker.Ends := by
      have hshows := hsound.mailed.shows
      rw [hl] at hshows
      exact hshows
    refine ⟨?_, hends.run (hsound.started hspawned)⟩
    have horder := hsound.order
    rw [Worker.unhandled] at horder
    rcases hends with ⟨he, ms, hm⟩ | ⟨he, hm⟩
    · rw [Worker.queued_of_last hm] at horder
      exact .inr ⟨he, ms, hm, horder⟩
    · rw [Worker.inHand, he, Worker.queued, hm] at horder
      exact .inl ⟨he, hm, horder.trans (List.append_nil _)⟩
  · have ht := hsound.reaches hst
    have hgoes : t.worker.Goes := by
      have hshows := ht.mailed.shows
      rw [hkept t hst, hl] at hshows
      exact hshows
    have hno : Mail.shutdown ∉ t.worker.mailbox := by
      obtain ⟨ms, hm⟩ := hgoes.2
      rw [hm, List.mem_map]
      rintro ⟨m, -, ⟨⟩⟩
    have hrun := hgoes.run (ht.started (Nat.ne_zero_of_lt (Nat.lt_of_lt_of_le
      (Nat.pos_of_ne_zero hspawned) hst.spawned_le)))
    exact ⟨hgoes.1, hno, hrun⟩

/-- A stop from within, with room for the last mail behind the one message that waits. -/
theorem last_mail_waits_unless_lost_posted : ∃ s : Tenure Bool Unit,
    (init (Field.idle 1 {}) 2).Reaches (fun _ => True) (· = true) s ∧
    s.worker.stage = .stopped ∧ s.spawned ≠ 0 ∧ s.last = .posted ∧
    s.worker.run.value.loop = .exited := by
  let m : Message Unit := .job fun f => pure (f, .completed)
  have hrun : ∃ s : Tenure Bool Unit,
      (init (Field.idle 1 {}) 2).Reaches (fun _ => True) (· = true) s ∧
      s.worker.stage = .stopped ∧ s.spawned ≠ 0 ∧ s.last = .posted :=
    ⟨_,
      .head ⟨_, .callStart (k := false) _ rfl nofun⟩ <|
      .head ⟨_, .start (k := false) _ rfl nofun⟩ <|
      .head ⟨_, .push _ (m := m) trivial⟩ <|
      .head ⟨_, .receive _ rfl (List.cons_ne_nil _ _)⟩ <|
      .head ⟨_, .push _ (m := .leave 7) trivial⟩ <|
      .head ⟨_, .callStop (k := true) _ rfl fun _ => ⟨m, rfl⟩⟩ <|
      .head ⟨_, .close (k := true) _ rfl fun _ => ⟨m, rfl⟩⟩ <|
      .head ⟨_, .postWithin (k := true) _ rfl rfl fun _ => ⟨m, rfl⟩⟩ <|
      .head ⟨_, .retire (k := true) _ rfl fun _ => ⟨m, rfl⟩⟩ .refl,
      rfl, nofun, rfl⟩
  obtain ⟨s, hreaches, hstage, hspawned, hlast⟩ := hrun
  obtain ⟨-, -, hstopped⟩ := last_mail_waits_unless_lost _ _ _ hreaches
  exact ⟨s, hreaches, hstage, hspawned, hlast,
    ((hstopped hstage hspawned).2.2.1 hlast).2.1⟩

/-- There is room for one mail, which a message takes before the one in hand calls for a stop. -/
theorem stopped_loop_left_waiting : ∃ s : Tenure Bool Unit,
    (init (Field.idle 1 {}) 1).Reaches (fun _ => True) (· = true) s ∧
    s.worker.stage = .stopped ∧ s.worker.closed = true ∧ s.worker.loop = .waiting ∧
    s.worker.mailbox = [] ∧ ∀ k, s.calls k = none := by
  let m : Message Unit := .job fun f => pure (f, .completed)
  have hfull : ∃ s : Tenure Bool Unit,
      (init (Field.idle 1 {}) 1).Reaches (fun _ => True) (· = true) s ∧
      s.worker = { Worker.create (Field.idle 1 {}) 1 with
        mailbox := [.message (.leave 7)], stage := .running, loop := .handling m } ∧
      ∀ k, s.calls k = none := by
    refine ⟨_,
      .head ⟨_, .callStart (k := false) _ rfl nofun⟩ <|
      .head ⟨_, .start (k := false) _ rfl nofun⟩ <|
      .head ⟨_, .push _ (m := m) trivial⟩ <|
      .head ⟨_, .receive _ rfl (List.cons_ne_nil _ _)⟩ <|
      .head ⟨_, .push _ (m := .leave 7) trivial⟩ .refl, rfl, ?_⟩
    exact Bool.forall_bool.2 ⟨rfl, rfl⟩
  obtain ⟨s, hs, hworker, hidle⟩ := hfull
  have hloop : s.worker.loop = .handling m := by rw [hworker]
  have hstage : s.worker.stage = .running := by rw [hworker]
  obtain ⟨t, hst, hstop, ht⟩ := s.exists_reaches_stopFromWithin (fun _ => True) (· = true)
    (hidle true) rfl hloop hstage
  have hidle' : ∀ k, t.calls k = none := fun k => (congrFun ht k).trans (hidle k)
  obtain ⟨u, htu, hrun, hu⟩ := t.exists_reaches_run (fun _ => True) (· = true) fun k _ => hidle' k
  refine ⟨u, (hs.trans hst).trans htu, ?_, ?_, ?_, ?_, fun k => (congrFun hu k).trans (hidle' k)⟩
  all_goals
    rw [hrun, hstop, hworker]
    rfl

end Tenure
end Fieldwatch
