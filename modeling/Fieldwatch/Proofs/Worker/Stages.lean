import Fieldwatch.Proofs.Worker.Upkeep

/-! What each operation on a worker leaves of its stage, its mailbox and its loop. The stage tells
whether the mailbox is closed and whether there has been a loop; the loop and the mailbox tell
whether the last mail has been posted. -/

namespace Fieldwatch

variable {β : Type}

inductive Stage.Next : Stage → Stage → Prop
  | start : Next .created .running
  | close : Next .running .stopping
  | retire : Next .stopping .stopped
  | dismiss : Next .created .stopped

theorem Stage.Next.eq_stopped {g h : Stage} (hn : Next g h) (hg : g = .stopping ∨ g = .stopped) :
    h = .stopped := by
  cases hn with
  | retire => rfl
  | start | close | dismiss => rcases hg with hg | hg <;> cases hg

theorem Loop.waiting_ne_unstarted : (Loop.waiting : Loop β) ≠ .unstarted := by
  intro h
  cases h

theorem Loop.waiting_ne_exited : (Loop.waiting : Loop β) ≠ .exited := by
  intro h
  cases h

namespace Worker

variable {w v : Worker β}

theorem closed_push (w : Worker β) (m : Message β) : (w.push m).value.2.closed = w.closed := by
  unfold push
  split
  · rfl
  · split <;> rfl

theorem loop_push (w : Worker β) (m : Message β) : (w.push m).value.2.loop = w.loop := by
  unfold push
  split
  · rfl
  · split <;> rfl

def taken (w : Worker β) (m : Message β) : List (Message β) :=
  match (w.push m).value.1 with
  | .ok () => [m]
  | .error _ => []

theorem unhandled_push (w : Worker β) (m : Message β) :
    (w.push m).value.2.unhandled = w.unhandled ++ w.taken m := by
  unfold taken push
  split
  · exact (List.append_nil _).symm
  · split
    · exact (List.append_nil _).symm
    · exact Ledger.unhandled_append w (.message m)

/-- A push does not look at the stage. One that finds a stop between the change of the stage and the
closing of the mailbox is as good as one before both. -/
theorem push_at_stage (w : Worker β) (g : Stage) (m : Message β) :
    ({ w with stage := g }.push m).value =
      ((w.push m).value.1, { (w.push m).value.2 with stage := g }) := by
  have hfull : isFull { w with stage := g } = w.isFull := rfl
  unfold push
  dsimp only
  rw [hfull]
  split
  · rfl
  · split <;> rfl

theorem closed_receive (w : Worker β) : w.receive.closed = w.closed := by
  unfold receive
  split <;> rfl

theorem loop_receive_ne (hl : w.loop = .waiting) : w.receive.loop ≠ .unstarted := by
  unfold receive
  split
  · exact nofun
  · exact nofun
  · exact fun h => by cases hl.symm.trans h

theorem start_of_created (hs : w.stage = .created) :
    w.start = ⟨{ w with stage := .running, loop := .waiting }, [.raise .fieldsActive 1]⟩ := by
  rw [start, if_pos hs]
  rfl

theorem start_of_ne (hs : w.stage ≠ .created) : w.start = pure w := by rw [start, if_neg hs]

theorem close_of_created (hs : w.stage = .created) :
    w.close = { w with stage := .stopped, closed := true } := by rw [close, hs]

theorem close_of_running (hs : w.stage = .running) :
    w.close = { w with stage := .stopping, closed := true } := by rw [close, hs]

theorem close_of_late (hs : w.stage = .stopping ∨ w.stage = .stopped) : w.close = w := by
  rcases hs with hs | hs <;> rw [close, hs]

theorem retire_of_stopping (hs : w.stage = .stopping) :
    w.retire = ⟨{ w with stage := .stopped }, [.lower .fieldsActive 1]⟩ := by
  rw [retire, if_pos hs]
  rfl

theorem postShutdown_of_room (hs : w.stage = .stopping) (hr : w.isFull = false) :
    w.postShutdown = { w with mailbox := w.mailbox ++ [.shutdown] } := by
  rw [postShutdown, if_pos (by simp [hs, hr])]

theorem postShutdown_of_full (hr : w.isFull) : w.postShutdown = w := by
  rw [postShutdown, if_neg (by simp [hr])]

theorem stage_start (w : Worker β) :
    w.start.value.stage = w.stage ∨ Stage.Next w.stage w.start.value.stage := by
  by_cases hs : w.stage = .created
  · rw [start_of_created hs, hs]
    exact .inr .start
  · rw [start_of_ne hs]
    exact .inl rfl

theorem stage_close (w : Worker β) :
    w.close.stage = w.stage ∨ Stage.Next w.stage w.close.stage := by
  rcases hs : w.stage with _ | _ | _ | _
  · rw [close_of_created hs]
    exact .inr .dismiss
  · rw [close_of_running hs]
    exact .inr .close
  · rw [close_of_late (.inl hs)]
    exact .inl hs
  · rw [close_of_late (.inr hs)]
    exact .inl hs

theorem stage_retire (w : Worker β) :
    w.retire.value.stage = w.stage ∨ Stage.Next w.stage w.retire.value.stage := by
  by_cases hs : w.stage = .stopping
  · rw [retire_of_stopping hs, hs]
    exact .inr .retire
  · rw [retire, if_neg hs]
    exact .inl rfl

structure Coherent (w : Worker β) : Prop where
  closed_iff : w.closed = true ↔ w.stage = .stopping ∨ w.stage = .stopped
  unstarted : w.stage = .created → w.loop = .unstarted
  started : w.stage = .running ∨ w.stage = .stopping → w.loop ≠ .unstarted

theorem coherent_create (field : Field β) (capacity : Nat) : (create field capacity).Coherent where
  closed_iff := by simp [create]
  unstarted _ := rfl
  started h := by rcases h with h | h <;> cases h

theorem Coherent.closed_eq_false (h : w.Coherent) (hs : w.stage = .created ∨ w.stage = .running) :
    w.closed = false := by
  rw [← Bool.not_eq_true, h.closed_iff]
  rcases hs with hs | hs <;> simp [hs]

theorem Coherent.congr (h : w.Coherent) (hs : v.stage = w.stage) (hc : v.closed = w.closed)
    (hl : v.loop = .unstarted ↔ w.loop = .unstarted) : v.Coherent where
  closed_iff := by rw [hc, hs]; exact h.closed_iff
  unstarted hv := hl.2 (h.unstarted (hs.symm.trans hv))
  started hv := fun hu => h.started (hs ▸ hv) (hl.1 hu)

theorem Coherent.start (h : w.Coherent) : w.start.value.Coherent := by
  by_cases hs : w.stage = .created
  · rw [start_of_created hs]
    refine ⟨?_, nofun, fun _ => nofun⟩
    simp [h.closed_eq_false (.inl hs)]
  · rw [start_of_ne hs]
    exact h

theorem Coherent.close (h : w.Coherent) : w.close.Coherent := by
  rcases hs : w.stage with _ | _ | _ | _
  · rw [close_of_created hs]
    exact ⟨by simp, nofun, fun h => by rcases h with h | h <;> cases h⟩
  · rw [close_of_running hs]
    exact ⟨by simp, nofun, fun _ => h.started (.inl hs)⟩
  · rw [close_of_late (.inl hs)]
    exact h
  · rw [close_of_late (.inr hs)]
    exact h

theorem Coherent.retire (h : w.Coherent) (hs : w.stage = .stopping) : w.retire.value.Coherent := by
  rw [retire_of_stopping hs]
  refine ⟨?_, nofun, fun h => by rcases h with h | h <;> cases h⟩
  simpa [hs] using h.closed_iff

def Goes (w : Worker β) : Prop :=
  w.loop ≠ .exited ∧ ∃ ms : List (Message β), w.mailbox = ms.map .message

def Ends (w : Worker β) : Prop :=
  (w.loop ≠ .exited ∧ ∃ ms : List (Message β), w.mailbox = ms.map .message ++ [.shutdown]) ∨
    w.loop = .exited ∧ w.mailbox = []

theorem Goes.congr (h : w.Goes) (hl : v.loop ≠ .exited) (hm : v.mailbox = w.mailbox) : v.Goes :=
  ⟨hl, hm ▸ h.2⟩

theorem Ends.congr (h : w.Ends) (hl : v.loop = .exited ↔ w.loop = .exited)
    (hm : v.mailbox = w.mailbox) : v.Ends :=
  h.imp (fun h => ⟨fun hv => h.1 (hl.1 hv), hm ▸ h.2⟩) fun h => ⟨hl.2 h.1, hm.trans h.2⟩

theorem Goes.push (h : w.Goes) (m : Message β) : (w.push m).value.2.Goes := by
  refine ⟨(w.loop_push m).symm ▸ h.1, ?_⟩
  obtain ⟨ms, hms⟩ := h.2
  unfold Worker.push
  split
  · exact ⟨ms, hms⟩
  · split
    · exact ⟨ms, hms⟩
    · exact ⟨ms ++ [m], by simp [hms]⟩

theorem Goes.receive (h : w.Goes) : w.receive.Goes := by
  obtain ⟨hl, ms, hms⟩ := h
  unfold Worker.receive
  split
  · next hw hm =>
    rcases ms with _ | ⟨n, ms⟩
    · cases hm.symm.trans hms
    · exact ⟨nofun, ms, (List.cons.inj (hm.symm.trans hms)).2⟩
  · next hw hm => rcases ms with _ | ⟨n, ms⟩ <;> cases hm.symm.trans hms
  · exact ⟨hl, ms, hms⟩

theorem Ends.receive (h : w.Ends) : w.receive.Ends := by
  unfold Worker.receive
  split
  · next hw hm =>
    rcases h with ⟨-, ms, hms⟩ | ⟨he, -⟩
    · rcases ms with _ | ⟨n, ms⟩
      · cases hm.symm.trans hms
      · exact .inl ⟨nofun, ms, (List.cons.inj (hm.symm.trans hms)).2⟩
    · cases hw.symm.trans he
  · next hw hm =>
    rcases h with ⟨-, ms, hms⟩ | ⟨he, -⟩
    · rcases ms with _ | ⟨n, ms⟩
      · exact .inr ⟨rfl, (List.cons.inj (hm.symm.trans hms)).2⟩
      · cases hm.symm.trans hms
    · cases hw.symm.trans he
  · exact h

theorem Goes.ends_postShutdown (h : w.Goes) (hs : w.stage = .stopping) (hr : w.isFull = false) :
    w.postShutdown.Ends := by
  obtain ⟨hl, ms, hms⟩ := h
  rw [postShutdown_of_room hs hr]
  exact .inl ⟨hl, ms, congrArg (· ++ [.shutdown]) hms⟩

end Worker

inductive LastMail where
  | due
  | posted
  /-- A stop from within found no room for it. -/
  | lost

namespace LastMail

def Shows : LastMail → Worker β → Prop
  | due, w | lost, w => w.Goes
  | posted, w => w.Ends

variable {l : LastMail} {w v : Worker β}

theorem Shows.finish (h : l.Shows w) {m : Message β}
    (hl : w.loop = .handling m) : l.Shows w.finish.value := by
  have hw : w.finish.value = { w with field := (w.field.handle m).value.1, loop := .waiting } := by
    rw [Worker.finish_eq hl]
  rw [hw]
  cases l with
  | due | lost => exact Worker.Goes.congr h nofun rfl
  | posted => exact Worker.Ends.congr h ⟨nofun, fun he => by cases hl.symm.trans he⟩ rfl

theorem Shows.push (h : l.Shows w) (hc : l = .posted → w.closed = true) (m : Message β) :
    l.Shows (w.push m).value.2 := by
  cases l with
  | due | lost => exact Worker.Goes.push h m
  | posted =>
    rw [Worker.push_of_closed (hc rfl)]
    exact h

theorem Shows.receive (h : l.Shows w) : l.Shows w.receive := by
  cases l with
  | due | lost => exact Worker.Goes.receive h
  | posted => exact Worker.Ends.receive h

theorem Shows.congr (h : l.Shows w) (hl : v.loop = w.loop)
    (hm : v.mailbox = w.mailbox) : l.Shows v := by
  cases l with
  | due | lost => exact Worker.Goes.congr h (hl ▸ h.1) hm
  | posted => exact Worker.Ends.congr h (by rw [hl]) hm

end LastMail
end Fieldwatch
