import Fieldwatch.Worker
import Mathlib.Logic.Relation

/-! Nothing that a worker has accepted is lost, doubled or overtaken. Producers push, somebody
starts the worker, its loop takes mail and handles it, and others stop it, all in any order; what
the worker owes is at every moment the message in hand and then the mailbox. The call that stops a
running worker goes through three steps of its own, of which the second waits for room in the
mailbox and the third for the loop to leave. -/

namespace Fieldwatch

variable {β : Type}

def Mail.message? : Mail β → Option (Message β)
  | .message m => some m
  | .shutdown => none

namespace Worker

variable (w : Worker β)

def inHand : List (Message β) :=
  match w.loop with
  | .handling m => [m]
  | _ => []

def queued : List (Message β) := w.mailbox.filterMap Mail.message?

def unhandled : List (Message β) := w.inHand ++ w.queued

variable {w}

theorem push_of_closed (hc : w.closed) (m : Message β) :
    (w.push m).value = (.error .stopped, w) := by
  simp [push, hc]

theorem push_of_full (hc : w.closed = false) (hf : w.isFull) (m : Message β) :
    (w.push m).value = (.error .full, w) := by
  simp [push, hc, hf]

theorem push_of_room (hc : w.closed = false) (hf : w.isFull = false) (m : Message β) :
    (w.push m).value = (.ok (), { w with mailbox := w.mailbox ++ [.message m] }) := by
  simp [push, hc, hf]

end Worker

inductive Halt where
  | unasked
  | closed
  | posted
  | returned
deriving DecidableEq

/-- A worker, and on record what has become of the messages pushed to it, in the order in which they
were accepted and in that in which they were handled. -/
structure Ledger (β : Type) where
  worker : Worker β
  accepted : List (Message β) := []
  handled : List (Message β) := []
  halt : Halt := .unasked

namespace Ledger

def init (field : Field β) (capacity : Nat) : Ledger β := { worker := Worker.create field capacity }

def push (s : Ledger β) (m : Message β) : Ledger β :=
  match (s.worker.push m).value with
  | (.ok (), w) => { s with worker := w, accepted := s.accepted ++ [m] }
  | (.error _, w) => { s with worker := w }

/-- Whatever happens next. A call of `stop` that finds the worker not running is over with its first
step. -/
inductive Step : Ledger β → Ledger β → Prop
  | push (s : Ledger β) (m : Message β) : Step s (s.push m)
  | start (s : Ledger β) : Step s { s with worker := s.worker.start.value }
  | receive (s : Ledger β) (hl : s.worker.loop = .waiting) (hm : s.worker.mailbox ≠ []) :
      Step s { s with worker := s.worker.receive }
  | finish (s : Ledger β) {m : Message β} (hl : s.worker.loop = .handling m) :
      Step s { s with worker := s.worker.finish.value, handled := s.handled ++ [m] }
  | close (s : Ledger β) : Step s
      { s with
        worker := s.worker.close
        halt := if s.worker.stage = .running then .closed else s.halt }
  | post (s : Ledger β) (hh : s.halt = .closed) (hr : s.worker.isFull = false) :
      Step s { s with worker := s.worker.postShutdown, halt := .posted }
  | join (s : Ledger β) (hh : s.halt = .posted) (hl : s.worker.loop = .exited) :
      Step s { s with worker := s.worker.retire.value, halt := .returned }

def Reaches : Ledger β → Ledger β → Prop := Relation.ReflTransGen Step

/-- What a stop has come to tells what is in the mailbox, and whether the loop is still there. -/
inductive Phase (w : Worker β) : Halt → Prop
  | unasked (ms : List (Message β)) (hl : w.loop ≠ .exited) (hm : w.mailbox = ms.map .message) :
      Phase w .unasked
  | closed (ms : List (Message β)) (hc : w.closed) (hs : w.stage = .stopping)
      (hl : w.loop ≠ .exited) (hm : w.mailbox = ms.map .message) : Phase w .closed
  | posted (ms : List (Message β)) (hc : w.closed) (hs : w.stage = .stopping)
      (hl : w.loop ≠ .exited) (hm : w.mailbox = ms.map .message ++ [.shutdown]) : Phase w .posted
  | left (hc : w.closed) (hs : w.stage = .stopping) (hl : w.loop = .exited) (hm : w.mailbox = []) :
      Phase w .posted
  | returned (hc : w.closed) (hs : w.stage = .stopped) (hl : w.loop = .exited)
      (hm : w.mailbox = []) : Phase w .returned

def after (field : Field β) (ms : List (Message β)) : Field β :=
  ms.foldl (fun f m => (f.handle m).value.1) field

structure Sound (field : Field β) (capacity : Nat) (s : Ledger β) : Prop where
  field_eq : s.worker.field = after field s.handled
  order : s.accepted = s.handled ++ s.worker.unhandled
  capacity_eq : s.worker.capacity = max capacity 1
  room : s.worker.mailbox.length ≤ s.worker.capacity
  unstarted : s.worker.stage = .created → s.worker.loop = .unstarted
  phase : Phase s.worker s.halt

variable {s t : Ledger β} {field : Field β} {capacity : Nat}

theorem sound_init (field : Field β) (capacity : Nat) :
    (init field capacity).Sound field capacity where
  field_eq := rfl
  order := rfl
  capacity_eq := rfl
  room := Nat.zero_le _
  unstarted _ := rfl
  phase := .unasked [] (fun h => by cases h) rfl

theorem push_of_refused {e : PushError} {m : Message β}
    (h : (s.worker.push m).value = (.error e, s.worker)) : s.push m = s := by
  rw [push, h]

theorem unhandled_append (w : Worker β) (x : Mail β) :
    Worker.unhandled { w with mailbox := w.mailbox ++ [x] } =
      w.unhandled ++ x.message?.toList := by
  have hq : Worker.queued { w with mailbox := w.mailbox ++ [x] } =
      w.queued ++ x.message?.toList := by
    rw [Worker.queued, Worker.queued, List.filterMap_append]
    rcases x with m | _ <;> rfl
  rw [Worker.unhandled, hq, ← List.append_assoc]
  rfl

theorem Phase.put {w : Worker β} {halt : Halt} (h : Phase w halt) (hc : w.closed = false)
    (m : Message β) : Phase { w with mailbox := w.mailbox ++ [.message m] } halt := by
  cases h with
  | unasked ms hl hm =>
    refine .unasked (ms ++ [m]) hl ?_
    rw [List.map_append, ← hm]
    rfl
  | closed _ hc' | posted _ hc' | left hc' | returned hc' =>
    exact (Bool.false_ne_true (hc.symm.trans hc')).elim

theorem Sound.push (h : s.Sound field capacity) (m : Message β) :
    (s.push m).Sound field capacity := by
  rcases hc : s.worker.closed with _ | _
  · rcases hf : s.worker.isFull with _ | _
    · have hp : s.push m = { s with
          worker := { s.worker with mailbox := s.worker.mailbox ++ [.message m] }
          accepted := s.accepted ++ [m] } := by
        rw [Ledger.push, Worker.push_of_room hc hf]
      have hroom : s.worker.mailbox.length < s.worker.capacity := by
        simpa [Worker.isFull] using hf
      rw [hp]
      refine ⟨h.field_eq, ?_, h.capacity_eq, ?_, h.unstarted, h.phase.put hc m⟩
      · rw [unhandled_append, h.order, List.append_assoc]
        rfl
      · rw [List.length_append]
        exact hroom
    · rw [push_of_refused (Worker.push_of_full hc hf m)]
      exact h
  · rw [push_of_refused (Worker.push_of_closed hc m)]
    exact h

theorem Phase.eq_unasked {w : Worker β} {halt : Halt} (h : Phase w halt)
    (hs : w.stage = .created ∨ w.stage = .running) : halt = .unasked := by
  cases h with
  | unasked => rfl
  | closed _ _ hs' | posted _ _ hs' | left _ hs' | returned _ hs' =>
    rw [hs'] at hs
    rcases hs with hs | hs <;> cases hs

theorem Phase.messages {w : Worker β} (h : Phase w .unasked) :
    w.loop ≠ .exited ∧ ∃ ms : List (Message β), w.mailbox = ms.map .message := by
  cases h with
  | unasked ms hl hm => exact ⟨hl, ms, hm⟩

theorem Sound.start (h : s.Sound field capacity) :
    Sound field capacity { s with worker := s.worker.start.value } := by
  by_cases hs : s.worker.stage = .created
  · have hw : s.worker.start.value = { s.worker with stage := .running, loop := .waiting } := by
      rw [Worker.start, if_pos hs]
      rfl
    have hhand : s.worker.inHand = [] := by rw [Worker.inHand, h.unstarted hs]
    have hhalt := h.phase.eq_unasked (.inl hs)
    obtain ⟨-, ms, hm⟩ := (hhalt ▸ h.phase).messages
    rw [hw]
    refine ⟨h.field_eq, ?_, h.capacity_eq, h.room, (fun hs => by cases hs), ?_⟩
    · have horder := h.order
      rw [Worker.unhandled, hhand] at horder
      exact horder
    · rw [hhalt]
      exact .unasked ms (fun hl => by cases hl) hm
  · have hw : s.worker.start.value = s.worker := by rw [Worker.start, if_neg hs]; rfl
    rw [hw]
    exact h

theorem Phase.take {w : Worker β} {halt : Halt} (h : Phase w halt) (hl : w.loop ≠ .exited)
    {m : Message β} {rest : List (Mail β)} (hm : w.mailbox = .message m :: rest) :
    Phase { w with loop := .handling m, mailbox := rest } halt := by
  have hl' : Loop.handling m ≠ .exited := fun h => by cases h
  cases h with
  | unasked ms _ hms =>
    rcases ms with _ | ⟨n, ms⟩
    · cases hm.symm.trans hms
    · exact .unasked ms hl' (List.cons.inj (hm.symm.trans hms)).2
  | closed ms hc hs _ hms =>
    rcases ms with _ | ⟨n, ms⟩
    · cases hm.symm.trans hms
    · exact .closed ms hc hs hl' (List.cons.inj (hm.symm.trans hms)).2
  | posted ms hc hs _ hms =>
    rcases ms with _ | ⟨n, ms⟩
    · cases hm.symm.trans hms
    · exact .posted ms hc hs hl' (List.cons.inj (hm.symm.trans hms)).2
  | left _ _ he | returned _ _ he => exact (hl he).elim

theorem Phase.leave {w : Worker β} {halt : Halt} (h : Phase w halt) (hl : w.loop ≠ .exited)
    {rest : List (Mail β)} (hm : w.mailbox = .shutdown :: rest) :
    Phase { w with loop := .exited, mailbox := rest } halt := by
  have hno : ∀ ms : List (Message β), w.mailbox ≠ ms.map .message := by
    intro ms hms
    rcases ms with _ | ⟨n, ms⟩ <;> cases hm.symm.trans hms
  cases h with
  | unasked _ _ hms | closed _ _ _ _ hms => exact (hno _ hms).elim
  | posted ms hc hs _ hms =>
    rcases ms with _ | ⟨n, ms⟩
    · exact .left hc hs rfl (List.cons.inj (hm.symm.trans hms)).2
    · cases hm.symm.trans hms
  | left _ _ he | returned _ _ he => exact (hl he).elim

theorem Sound.receive (h : s.Sound field capacity) (hl : s.worker.loop = .waiting)
    (hm : s.worker.mailbox ≠ []) : Sound field capacity { s with worker := s.worker.receive } := by
  have hne : s.worker.loop ≠ .exited := fun he => by cases hl.symm.trans he
  have hstage : s.worker.stage ≠ .created := fun hs => by cases hl.symm.trans (h.unstarted hs)
  have hhand : s.worker.inHand = [] := by rw [Worker.inHand, hl]
  have horder := h.order
  have hroom := h.room
  rw [Worker.unhandled, hhand, List.nil_append, Worker.queued] at horder
  rcases hb : s.worker.mailbox with _ | ⟨x, rest⟩
  · exact (hm hb).elim
  rw [hb] at horder hroom
  rcases x with m | _
  · have hw : s.worker.receive = { s.worker with loop := .handling m, mailbox := rest } := by
      rw [Worker.receive, hl, hb]
    rw [hw]
    exact ⟨h.field_eq, horder, h.capacity_eq, Nat.le_of_succ_le hroom, fun hs => (hstage hs).elim,
      h.phase.take hne hb⟩
  · have hw : s.worker.receive = { s.worker with loop := .exited, mailbox := rest } := by
      rw [Worker.receive, hl, hb]
    rw [hw]
    exact ⟨h.field_eq, horder, h.capacity_eq, Nat.le_of_succ_le hroom, fun hs => (hstage hs).elim,
      h.phase.leave hne hb⟩

theorem Phase.resume {w : Worker β} {halt : Halt} (h : Phase w halt) (hl : w.loop ≠ .exited)
    (field : Field β) : Phase { w with field := field, loop := .waiting } halt := by
  have hl' : Loop.waiting ≠ (Loop.exited : Loop β) := fun h => by cases h
  cases h with
  | unasked ms _ hm => exact .unasked ms hl' hm
  | closed ms hc hs _ hm => exact .closed ms hc hs hl' hm
  | posted ms hc hs _ hm => exact .posted ms hc hs hl' hm
  | left _ _ he | returned _ _ he => exact (hl he).elim

theorem Sound.finish (h : s.Sound field capacity) {m : Message β}
    (hl : s.worker.loop = .handling m) : Sound field capacity
      { s with worker := s.worker.finish.value, handled := s.handled ++ [m] } := by
  have hne : s.worker.loop ≠ .exited := fun he => by cases hl.symm.trans he
  have hstage : s.worker.stage ≠ .created := fun hs => by cases hl.symm.trans (h.unstarted hs)
  have hhand : s.worker.inHand = [m] := by rw [Worker.inHand, hl]
  have hw : s.worker.finish.value =
      { s.worker with field := (s.worker.field.handle m).value.1, loop := .waiting } := by
    rw [Worker.finish, hl]
    rfl
  have hfield : (s.worker.field.handle m).value.1 = after field (s.handled ++ [m]) := by
    rw [after, List.foldl_append, h.field_eq]
    rfl
  have horder := h.order
  rw [Worker.unhandled, hhand, ← List.append_assoc] at horder
  rw [hw]
  exact ⟨hfield, horder, h.capacity_eq, h.room, fun hs => (hstage hs).elim, h.phase.resume hne _⟩

theorem Sound.close (h : s.Sound field capacity) : Sound field capacity { s with
    worker := s.worker.close
    halt := if s.worker.stage = .running then .closed else s.halt } := by
  obtain ⟨hfield, horder, hcap, hroom, hunstarted, hphase⟩ := h
  by_cases hopen : s.worker.stage = .created ∨ s.worker.stage = .running
  · have hhalt := hphase.eq_unasked hopen
    obtain ⟨hl, ms, hm⟩ := (hhalt ▸ hphase).messages
    rcases hopen with hs | hs
    · have hw : s.worker.close = { s.worker with stage := .stopped, closed := true } := by
        rw [Worker.close, hs]
      rw [hw, hs, if_neg (fun h => by cases h), hhalt]
      exact ⟨hfield, horder, hcap, hroom, (fun hs => by cases hs), .unasked ms hl hm⟩
    · have hw : s.worker.close = { s.worker with stage := .stopping, closed := true } := by
        rw [Worker.close, hs]
      rw [hw, if_pos hs]
      exact ⟨hfield, horder, hcap, hroom, (fun hs => by cases hs), .closed ms rfl rfl hl hm⟩
  · have hw : s.worker.close = s.worker := by
      unfold Worker.close
      split
      · next hs => exact (hopen (.inl hs)).elim
      · next hs => exact (hopen (.inr hs)).elim
      · rfl
      · rfl
    rw [hw, if_neg fun hs => hopen (.inr hs)]
    exact ⟨hfield, horder, hcap, hroom, hunstarted, hphase⟩

theorem Sound.post (h : s.Sound field capacity) (hh : s.halt = .closed)
    (hr : s.worker.isFull = false) :
    Sound field capacity { s with worker := s.worker.postShutdown, halt := .posted } := by
  have hphase := h.phase
  rw [hh] at hphase
  obtain _ | ⟨ms, hc, hs, hl, hm⟩ := hphase
  have hroom : s.worker.mailbox.length < s.worker.capacity := by simpa [Worker.isFull] using hr
  have hw : s.worker.postShutdown =
      { s.worker with mailbox := s.worker.mailbox ++ [.shutdown] } := by
    rw [Worker.postShutdown, if_pos (by simp [hs, hr])]
  have hun : Worker.unhandled { s.worker with mailbox := s.worker.mailbox ++ [.shutdown] } =
      s.worker.unhandled := (unhandled_append s.worker .shutdown).trans (List.append_nil _)
  rw [hw]
  refine ⟨h.field_eq, ?_, h.capacity_eq, ?_, h.unstarted, .posted ms hc hs hl (by rw [hm])⟩
  · rw [hun]
    exact h.order
  · rw [List.length_append]
    exact hroom

theorem Sound.join (h : s.Sound field capacity) (hh : s.halt = .posted)
    (hl : s.worker.loop = .exited) :
    Sound field capacity { s with worker := s.worker.retire.value, halt := .returned } := by
  obtain ⟨hfield, horder, hcap, hroom, hunstarted, hphase⟩ := h
  rw [hh] at hphase
  cases hphase with
  | posted _ _ _ hne => exact (hne hl).elim
  | left hc hs _ hm =>
    have hw : s.worker.retire.value = { s.worker with stage := .stopped } := by
      rw [Worker.retire, if_pos hs]
      rfl
    rw [hw]
    exact ⟨hfield, horder, hcap, hroom, (fun hs => by cases hs), .returned hc rfl hl hm⟩

theorem Sound.step (h : s.Sound field capacity) (hst : Step s t) : t.Sound field capacity := by
  cases hst with
  | push m => exact h.push m
  | start => exact h.start
  | receive hl hm => exact h.receive hl hm
  | finish hl => exact h.finish hl
  | close => exact h.close
  | post hh hr => exact h.post hh hr
  | join hh hl => exact h.join hh hl

theorem Sound.reaches (h : s.Sound field capacity) (hst : s.Reaches t) :
    t.Sound field capacity := by
  induction hst with
  | refl => exact h
  | tail _ hst ih => exact ih.step hst

/-- In whatever way the work of a worker, of those who push to it and of those who stop it goes on:
what was accepted is what was handled, then the message in hand, then what is in the mailbox, each
in its order. The mailbox holds no more than it has room for; a push is refused for want of room or
because the mailbox is closed, and for no other reason, and then changes nothing. Once the stop of a
running worker has returned, all that was ever accepted has been handled. -/
theorem accepted_eq_handled_append (field : Field β) (capacity : Nat) {s : Ledger β}
    (h : (init field capacity).Reaches s) :
    s.accepted = s.handled ++ (s.worker.inHand ++ s.worker.queued) ∧
    s.worker.field = after field s.handled ∧
    s.worker.mailbox.length ≤ max capacity 1 ∧
    (∀ m, ((s.worker.push m).value.1 = .error .full ↔
        s.worker.closed = false ∧ s.worker.mailbox.length = max capacity 1) ∧
      ((s.worker.push m).value.1 = .error .stopped ↔ s.worker.closed = true) ∧
      ((s.worker.push m).value.1 ≠ .ok () → s.push m = s)) ∧
    (s.halt = .returned →
      s.accepted = s.handled ∧ s.worker.mailbox = [] ∧ s.worker.loop = .exited) := by
  obtain ⟨hfield, horder, hcap, hroom, -, hphase⟩ := (sound_init field capacity).reaches h
  refine ⟨horder, hfield, hcap ▸ hroom, fun m => ?_, fun hh => ?_⟩
  · have hfull : s.worker.isFull = true ↔ s.worker.mailbox.length = max capacity 1 := by
      rw [← hcap, Worker.isFull, decide_eq_true_iff]
      exact ⟨Nat.le_antisymm hroom, fun he => Nat.le_of_eq he.symm⟩
    rw [← hfull]
    rcases hc : s.worker.closed with _ | _
    · rcases hf : s.worker.isFull with _ | _
      · simp [Worker.push_of_room hc hf]
      · have hp := Worker.push_of_full hc hf m
        simp [hp, push_of_refused hp]
    · have hp := Worker.push_of_closed hc m
      simp [hp, push_of_refused hp]
  · rw [hh] at hphase
    obtain ⟨⟩ | ⟨⟩ | ⟨⟩ | ⟨⟩ | ⟨hc, hs, hl, hm⟩ := hphase
    refine ⟨?_, hm, hl⟩
    rw [horder, Worker.unhandled, Worker.inHand, hl, Worker.queued, hm]
    exact List.append_nil _

/-- There is room for one mail. The first message panics, the second is refused once and accepted
once the first is in hand, and the stop has to wait for room. -/
theorem accepted_eq_handled_append_stopped :
    ∃ s : Ledger Unit, (init (Field.idle 1 {}) 0).Reaches s ∧ s.halt = .returned ∧
      s.accepted.map Message.kind = ["exec", "leave_field"] ∧ s.accepted = s.handled := by
  let f : Field Unit := Field.idle 1 {}
  let m : Message Unit := .job fun f => pure (f, .panicked "boom")
  let n : Message Unit := .leave 7
  have hfull : (init f 0).Reaches
      ⟨⟨f, 1, [.message m], false, .created, .unstarted⟩, [m], [], .unasked⟩ :=
    .head (.push _ m) (.head (.push _ n) .refl)
  have hwork : (init f 0).Reaches
      ⟨⟨f, 1, [.message n], true, .stopping, .handling m⟩, [m, n], [], .closed⟩ :=
    hfull.trans (.head (.start _) (.head (.receive _ rfl (List.cons_ne_nil _ _))
      (.head (.push _ n) (.head (.close _) .refl))))
  have hlast : (init f 0).Reaches
      ⟨⟨f, 1, [.shutdown], true, .stopping, .handling n⟩, [m, n], [m], .posted⟩ :=
    hwork.trans (.head (.finish _ rfl) (.head (.receive _ rfl (List.cons_ne_nil _ _))
      (.head (.post _ rfl rfl) .refl)))
  have hstop : (init f 0).Reaches
      ⟨⟨(f.handle n).value.1, 1, [], true, .stopped, .exited⟩, [m, n], [m, n], .returned⟩ :=
    hlast.trans (.head (.finish _ rfl) (.head (.receive _ rfl (List.cons_ne_nil _ _))
      (.head (.join _ rfl rfl) .refl)))
  exact ⟨_, hstop, rfl, rfl, ((accepted_eq_handled_append f 0 hstop).2.2.2.2 rfl).1⟩

end Ledger
end Fieldwatch
