import Fieldwatch.Sessions
import Mathlib.Data.List.Perm.Basic
import Mathlib.Logic.Function.Basic

/-! What comes of the sessions of a server, while connections come and go, any number of senders
send and receivers receive, in any order. A history is the list of what was done, the latest first;
what it has come to is compared with what can be read off the history itself. -/

namespace Fieldwatch

namespace Sessions

variable (d : Sessions)

def refusal? (n : Notice) : Option DeliveryError :=
  match d.deliver n.receiver n.event with
  | .ok _ => none
  | .error e => some e

def pending (id : SessionId) : List Event := (d.opened[id]?.map (·.queue)).getD []

end Sessions

namespace Traffic

/-- One thing that is done. A sender first queues its event and counts what became of it afterwards;
others may come between. -/
inductive Act where
  | connect (player : EntityId) (capacity : Nat)
  | register (id : SessionId)
  | unregister (player : EntityId)
  | send (n : Notice)
  | count (i : Nat)
  | receive (id : SessionId) (n : Nat)
  | disconnect (id : SessionId)

end Traffic

structure Traffic where
  sessions : Sessions := {}
  received : SessionId → List Event := fun _ => []
  due : List Effect := []
  counters : Counters := {}

namespace Traffic

def act (t : Traffic) : Act → Traffic
  | .connect player capacity => { t with sessions := (t.sessions.connect player capacity).2 }
  | .register id => { t with sessions := t.sessions.register id }
  | .unregister player => { t with sessions := t.sessions.unregister player }
  | .send n =>
    let r := t.sessions.send n.receiver n.event
    { t with sessions := r.value, due := t.due ++ r.log }
  | .count i =>
    match t.due[i]? with
    | none => t
    | some e => { t with due := t.due.eraseIdx i, counters := t.counters.apply 0 e }
  | .receive id n =>
    let r := t.sessions.drain id n
    { t with
      sessions := r.2
      received := Function.update t.received id (t.received id ++ r.1) }
  | .disconnect id => { t with sessions := t.sessions.disconnect id }

def after : List Act → Traffic
  | [] => {}
  | a :: past => (after past).act a

/-- What the counters show once all that is due is counted. -/
def settled (t : Traffic) : Counters := t.due.foldl (Counters.apply 0) t.counters

def openings : List Act → List (EntityId × Nat)
  | [] => []
  | .connect player capacity :: past => openings past ++ [(player, capacity)]
  | _ :: past => openings past

def holder (player : EntityId) : List Act → Option SessionId
  | [] => none
  | .register id :: past =>
    if (openings past)[id]?.map Prod.fst = some player then some id else holder player past
  | .unregister p :: past => if p = player then none else holder player past
  | _ :: past => holder player past

def Gone (id : SessionId) : List Act → Prop
  | [] => False
  | .disconnect j :: past => j = id ∧ id < (openings past).length ∨ Gone id past
  | _ :: past => Gone id past

def delivered (id : SessionId) : List Act → List Event
  | [] => []
  | .send n :: past =>
    delivered id past ++
      if holder n.receiver past = some id ∧ (after past).sessions.refusal? n = none then [n.event]
      else []
  | _ :: past => delivered id past

def Act.notice? : Act → Option Notice
  | .send n => some n
  | _ => none

def sent (acts : List Act) : List Notice := acts.filterMap Act.notice?

def refusals : List Act → List (Option DeliveryError)
  | [] => []
  | .send n :: past => (after past).sessions.refusal? n :: refusals past
  | _ :: past => refusals past

end Traffic

namespace Session

variable (s : Session) (e : Event)

def terms : EntityId × Nat := (s.player, s.capacity)

def refusal? : Option DeliveryError :=
  if !s.connected then some .closed else if s.capacity ≤ s.queue.length then some .full else none

theorem refusal?_cases :
    (s.connected = false ∧ s.refusal? = some .closed) ∨
    (s.connected = true ∧ s.capacity ≤ s.queue.length ∧ s.refusal? = some .full) ∨
    (s.connected = true ∧ s.queue.length < s.capacity ∧ s.refusal? = none) := by
  unfold refusal?
  rcases hc : s.connected with _ | _
  · exact .inl ⟨rfl, rfl⟩
  · rcases Nat.lt_or_ge s.queue.length s.capacity with h | h
    · exact .inr (.inr ⟨rfl, h, by simp [h]⟩)
    · exact .inr (.inl ⟨rfl, h, by simp [h]⟩)

def offered : Session :=
  { s with queue := s.queue ++ if s.refusal? = none then [e] else [] }

theorem deliver_eq : s.deliver e =
    match s.refusal? with
    | none => .ok (s.offered e)
    | some r => .error r := by
  unfold deliver offered refusal?
  cases s.connected
  · rfl
  · by_cases h : s.capacity ≤ s.queue.length <;> simp [h]

theorem drain_eq (n : Nat) : s.drain n =
    if s.connected then (s.queue.take n, { s with queue := s.queue.drop n }) else ([], s) := rfl

end Session

namespace Sessions

variable (d : Sessions)

def modify (id : SessionId) (g : Session → Session) : Sessions :=
  { d with opened := d.opened.modify id g }

theorem getElem?_modify (id j : SessionId) (g : Session → Session) :
    (d.modify id g).opened[j]? = if id = j then d.opened[j]?.map g else d.opened[j]? := by
  rw [modify, Std.ExtTreeMap.getElem?_modify]
  by_cases h : id = j
  · rw [if_pos h, if_pos (by rw [h]; exact Std.ReflCmp.compare_self), h]
  · rw [if_neg h, if_neg (by simpa using h)]

theorem modify_eq_self {id : SessionId} {g : Session → Session}
    (h : d.opened[id]?.map g = d.opened[id]?) : d.modify id g = d := by
  have ho : (d.modify id g).opened = d.opened := Std.ExtTreeMap.ext_getElem? fun j => by
    rw [getElem?_modify]
    split
    · next hj => rw [← hj, h]
    · rfl
  exact congrArg (fun o => { d with opened := o }) ho

theorem insert_eq_modify {id : SessionId} {s : Session} (h : d.opened[id]? = some s)
    (g : Session → Session) : { d with opened := d.opened.insert id (g s) } = d.modify id g := by
  rw [modify]
  congr 1
  refine Std.ExtTreeMap.ext_getElem? fun j => ?_
  rw [Std.ExtTreeMap.getElem?_insert, Std.ExtTreeMap.getElem?_modify, h]
  rfl

theorem drain_eq (id : SessionId) (n : Nat) :
    d.drain id n = ((d.opened[id]?.map fun s => (s.drain n).1).getD [],
      d.modify id fun s => (s.drain n).2) := by
  unfold drain
  split
  · next h => rw [d.modify_eq_self (by rw [h]; rfl), h]; rfl
  · next s h => rw [← d.insert_eq_modify h, h]; rfl

theorem deliver_eq (n : Notice) : d.deliver n.receiver n.event =
    match d.current[n.receiver]?.bind fun id => d.opened[id]?.map fun s => (id, s.refusal?) with
    | none => .error .notFound
    | some (id, none) => .ok (d.modify id (·.offered n.event))
    | some (_, some r) => .error r := by
  unfold deliver deliverTo
  rcases d.current[n.receiver]? with _ | id
  · rfl
  · rcases h : d.opened[id]? with _ | s
    · simp [h]
    · simp only [h, Session.deliver_eq, Option.bind_some, Option.map_some]
      rcases s.refusal? with _ | r
      · exact congrArg Except.ok (d.insert_eq_modify h (·.offered n.event))
      · rfl

theorem refusal?_eq (n : Notice) : d.refusal? n =
    ((d.current[n.receiver]?.bind fun id => d.opened[id]?).map Session.refusal?).getD
      (some .notFound) := by
  unfold refusal?
  rw [deliver_eq]
  rcases d.current[n.receiver]? with _ | id
  · rfl
  · rcases h : d.opened[id]? with _ | s
    · simp [h]
    · simp only [h, Option.bind_some, Option.map_some, Option.getD_some]
      rcases s.refusal? with _ | r <;> rfl

theorem value_send (n : Notice) : (d.send n.receiver n.event).value =
    match d.current[n.receiver]? with
    | none => d
    | some id => d.modify id (·.offered n.event) := by
  unfold send
  rw [deliver_eq]
  rcases d.current[n.receiver]? with _ | id
  · rfl
  · -- a session that refuses the event stays as it is
    have hself : d.opened[id]?.bind Session.refusal? ≠ none ∨ d.opened[id]? = none →
        d.modify id (·.offered n.event) = d := by
      intro h
      refine d.modify_eq_self ?_
      rcases hs : d.opened[id]? with _ | s
      · rfl
      · have hr : s.refusal? ≠ none := by simpa [hs] using h
        simp [Session.offered, hr]
    rcases h : d.opened[id]? with _ | s
    · simp [h, hself]
    · rcases hr : s.refusal? with _ | r
      · simp only [h, hr, Option.bind_some, Option.map_some]
        rfl
      · simp only [h, hr, Option.bind_some, Option.map_some, hself (.inl (by simp [h, hr]))]
        cases r <;> rfl

def counted : Option DeliveryError → Option Counter
  | none => some .eventsDelivered
  | some .notFound => none
  | some .full | some .closed => some .eventsDropped

theorem log_send (n : Notice) : (d.send n.receiver n.event).log =
    (counted (d.refusal? n)).toList.map (.raise · 1) := by
  unfold send refusal?
  rcases d.deliver n.receiver n.event with r | d'
  · cases r <;> rfl
  · rfl

end Sessions
end Fieldwatch
