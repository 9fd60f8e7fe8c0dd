import Fieldwatch.Field.Handling

/-! A field at work. Others put messages into its mailbox, which holds a bounded number of them;
the field's own loop takes them out one at a time, in order, and handles each to its end.

Every step of a producer, of the loop and of a stop is an operation of its own, so that they can be
interleaved in any order; `run`, `stop` and `stopFromWithin` put them together. -/

namespace Fieldwatch

inductive Stage where
  | created
  | running
  | stopping
  | stopped
deriving DecidableEq, Inhabited

def Stage.name : Stage → String
  | .created => "created"
  | .running => "running"
  | .stopping => "stopping"
  | .stopped => "stopped"

inductive Mail (β : Type) where
  | message (m : Message β)
  | shutdown

inductive Loop (β : Type) where
  | unstarted
  | waiting
  | handling (m : Message β)
  | exited

inductive PushError where
  | full
  | stopped
deriving DecidableEq, Inhabited

def PushError.message : PushError → String
  | .full => "field queue is full"
  | .stopped => "field worker is stopped"

structure Worker (β : Type) where
  field : Field β
  capacity : Nat
  mailbox : List (Mail β) := []
  closed : Bool := false
  stage : Stage := .created
  loop : Loop β := .unstarted

namespace Worker

variable {β : Type}

def create (field : Field β) (capacity : Nat) : Worker β :=
  { field := field, capacity := max capacity 1 }

def isFull (w : Worker β) : Bool := w.capacity ≤ w.mailbox.length

def pending (w : Worker β) : Nat := w.mailbox.length

def push (w : Worker β) (m : Message β) : Effects (Except PushError Unit × Worker β) :=
  if w.closed then do emit [.raise .messagesRejected 1]; pure (.error .stopped, w)
  else if w.isFull then do emit [.raise .messagesRejected 1]; pure (.error .full, w)
  else do
    emit [.raise .messagesPushed 1]
    pure (.ok (), { w with mailbox := w.mailbox ++ [.message m] })

def start (w : Worker β) : Effects (Worker β) :=
  if w.stage = .created then do
    emit [.raise .fieldsActive 1]
    pure { w with stage := .running, loop := .waiting }
  else pure w

def receive (w : Worker β) : Worker β :=
  match w.loop, w.mailbox with
  | .waiting, .message m :: rest => { w with loop := .handling m, mailbox := rest }
  | .waiting, .shutdown :: rest => { w with loop := .exited, mailbox := rest }
  | _, _ => w

/-- The loop brings the message that it is handling to its end. A panic ends the message and
nothing else. -/
def finish (w : Worker β) : Effects (Worker β) :=
  match w.loop with
  | .handling m => do
    let (field, ending) ← w.field.handle m
    emit [.raise .messagesProcessed 1]
    emit (if ending = .completed then [] else [.raise .handlerPanics 1])
    pure { w with field := field, loop := .waiting }
  | _ => pure w

def runFor : Nat → Worker β → Effects (Worker β)
  | 0, w => pure w
  | n + 1, w => do runFor n (← w.receive.finish)

def run (w : Worker β) : Effects (Worker β) := do
  let w ← w.finish
  runFor w.mailbox.length w

/-- The first step of a stop: the mailbox closes. A worker that was never started is stopped with
that. -/
def close (w : Worker β) : Worker β :=
  match w.stage with
  | .created => { w with stage := .stopped, closed := true }
  | .running => { w with stage := .stopping, closed := true }
  | .stopping | .stopped => w

/-- The second step of a stop: the last mail goes into the mailbox, behind all messages, if there is
room for it. -/
def postShutdown (w : Worker β) : Worker β :=
  if w.stage = .stopping && !w.isFull then { w with mailbox := w.mailbox ++ [.shutdown] } else w

def retire (w : Worker β) : Effects (Worker β) :=
  if w.stage = .stopping then do
    emit [.lower .fieldsActive 1]
    pure { w with stage := .stopped }
  else pure w

/-- Stops a worker from outside of its loop, and waits until the loop has handled all messages and
left. -/
def stop (w : Worker β) : Effects (Worker β) := do
  if w.stage = .running then
    let w ← w.close.run
    let w ← w.postShutdown.run
    w.retire
  else pure w.close

/-- Stops a worker from a message that it is handling. There is no waiting for room here. -/
def stopFromWithin (w : Worker β) : Effects (Worker β) := w.close.postShutdown.retire

end Worker
end Fieldwatch
