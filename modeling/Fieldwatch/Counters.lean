/-! Sixteen counters and the most recent step times. Counters are 64-bit words and wrap. -/

namespace Fieldwatch

inductive Counter where
  | fieldsActive
  | playersActive
  | npcsAlive
  | messagesPushed
  | messagesProcessed
  | messagesRejected
  | messagesMalformed
  | handlerPanics
  | aoiEvents
  | eventsDelivered
  | eventsDropped
  | tickTime
  | tickTimeP95
  | tickTimeP99
  | tickTimeMax
  | tickCount
deriving DecidableEq, Inhabited

namespace Counter

def all : List Counter :=
  [fieldsActive, playersActive, npcsAlive, messagesPushed, messagesProcessed, messagesRejected,
    messagesMalformed, handlerPanics, aoiEvents, eventsDelivered, eventsDropped, tickTime,
    tickTimeP95, tickTimeP99, tickTimeMax, tickCount]

end Counter

structure Counters where
  fieldsActive : UInt64 := 0
  playersActive : UInt64 := 0
  npcsAlive : UInt64 := 0
  messagesPushed : UInt64 := 0
  messagesProcessed : UInt64 := 0
  messagesRejected : UInt64 := 0
  messagesMalformed : UInt64 := 0
  handlerPanics : UInt64 := 0
  aoiEvents : UInt64 := 0
  eventsDelivered : UInt64 := 0
  eventsDropped : UInt64 := 0
  tickTime : UInt64 := 0
  tickTimeP95 : UInt64 := 0
  tickTimeP99 : UInt64 := 0
  tickTimeMax : UInt64 := 0
  tickCount : UInt64 := 0
  /-- The most recent step times in microseconds, oldest first. -/
  history : List UInt64 := []
deriving DecidableEq, Inhabited

namespace Counters

def get (m : Counters) : Counter → UInt64
  | .fieldsActive => m.fieldsActive
  | .playersActive => m.playersActive
  | .npcsAlive => m.npcsAlive
  | .messagesPushed => m.messagesPushed
  | .messagesProcessed => m.messagesProcessed
  | .messagesRejected => m.messagesRejected
  | .messagesMalformed => m.messagesMalformed
  | .handlerPanics => m.handlerPanics
  | .aoiEvents => m.aoiEvents
  | .eventsDelivered => m.eventsDelivered
  | .eventsDropped => m.eventsDropped
  | .tickTime => m.tickTime
  | .tickTimeP95 => m.tickTimeP95
  | .tickTimeP99 => m.tickTimeP99
  | .tickTimeMax => m.tickTimeMax
  | .tickCount => m.tickCount

def set (m : Counters) (c : Counter) (v : UInt64) : Counters :=
  match c with
  | .fieldsActive => { m with fieldsActive := v }
  | .playersActive => { m with playersActive := v }
  | .npcsAlive => { m with npcsAlive := v }
  | .messagesPushed => { m with messagesPushed := v }
  | .messagesProcessed => { m with messagesProcessed := v }
  | .messagesRejected => { m with messagesRejected := v }
  | .messagesMalformed => { m with messagesMalformed := v }
  | .handlerPanics => { m with handlerPanics := v }
  | .aoiEvents => { m with aoiEvents := v }
  | .eventsDelivered => { m with eventsDelivered := v }
  | .eventsDropped => { m with eventsDropped := v }
  | .tickTime => { m with tickTime := v }
  | .tickTimeP95 => { m with tickTimeP95 := v }
  | .tickTimeP99 => { m with tickTimeP99 := v }
  | .tickTimeMax => { m with tickTimeMax := v }
  | .tickCount => { m with tickCount := v }

@[simp] theorem get_set (m : Counters) (c d : Counter) (v : UInt64) :
    (m.set c v).get d = if c = d then v else m.get d := by
  cases c <;> cases d <;> rfl

@[simp] theorem history_set (m : Counters) (c : Counter) (v : UInt64) :
    (m.set c v).history = m.history := by
  cases c <;> rfl

def raise (m : Counters) (c : Counter) (n : UInt64) : Counters := m.set c (m.get c + n)

def lower (m : Counters) (c : Counter) (n : UInt64) : Counters := m.set c (m.get c - n)

def historyLength : Nat := 1000

def percentileThreshold : Nat := 10

def percentile (sorted : List UInt64) (fraction : Float32) : UInt64 :=
  let rank := (sorted.length.toUInt64.toFloat32 * fraction).toUInt64.toNat
  sorted.getD (min rank (sorted.length - 1)) 0

def recordStep (m : Counters) (us : UInt64) : Counters :=
  let history := m.history ++ [us]
  let history := history.drop (history.length - historyLength)
  let m := { m with tickTime := us, tickCount := m.tickCount + 1, history := history }
  if history.length < percentileThreshold then m
  else
    let sorted := history.mergeSort (· ≤ ·)
    { m with
      tickTimeP95 := percentile sorted 0.95
      tickTimeP99 := percentile sorted 0.99
      tickTimeMax := sorted.getLastD 0 }

end Counters
end Fieldwatch
