import Fieldwatch.Proofs.Sessions.Traffic

/-! Sessions lose, double and reorder nothing. Whatever is done, in whatever order: an event is
queued for the session that its receiver then has, or for none; what was received from a session,
followed by what waits in its queue, is what was queued for it; and the counters show what became of
all that was sent. -/

namespace Fieldwatch.Traffic

def touched (t : Traffic) (id : SessionId) (s : Session) : Act → Session
  | .send n => if t.sessions.current[n.receiver]? = some id then s.offered n.event else s
  | .receive j n => if j = id then (s.drain n).2 else s
  | .disconnect j => if j = id then { s with connected := false } else s
  | .connect .. | .register _ | .unregister _ | .count _ => s

section

variable (t : Traffic)

theorem terms_touched (id : SessionId) (s : Session) (a : Act) :
    (t.touched id s a).terms = s.terms := by
  cases a with
  | receive j n =>
    rw [touched]
    split
    · rw [Session.drain_eq]
      split <;> rfl
    · rfl
  | send n =>
    rw [touched]
    split <;> rfl
  | disconnect j =>
    rw [touched]
    split <;> rfl
  | _ => rfl

theorem opened_register (d : Sessions) (id : SessionId) : (d.register id).opened = d.opened := by
  unfold Sessions.register
  split <;> rfl

theorem act_count (i : Nat) : (t.act (.count i)).sessions = t.sessions ∧
    (t.act (.count i)).received = t.received := by
  unfold act
  dsimp only
  split <;> exact ⟨rfl, rfl⟩

theorem getElem?_connect (p : EntityId) (c : Nat) (id : SessionId) :
    (t.act (.connect p c)).sessions.opened[id]? =
      if t.sessions.opened.size = id then some { player := p, capacity := max c 1 }
      else t.sessions.opened[id]? := by
  change (t.sessions.opened.insert _ _)[id]? = _
  rw [Std.ExtTreeMap.getElem?_insert]
  by_cases h : t.sessions.opened.size = id <;> simp [h]

theorem getElem?_act {a : Act} (ha : ∀ p c, a ≠ .connect p c) (id : SessionId) :
    (t.act a).sessions.opened[id]? = t.sessions.opened[id]?.map (t.touched id · a) := by
  have hsame : ∀ (o : Option Session), o = o.map fun s => s := fun o => Option.map_id'.symm
  cases a with
  | connect p c => exact (ha p c rfl).elim
  | register j =>
    change (t.sessions.register j).opened[id]? = _
    rw [opened_register]
    exact hsame _
  | unregister p => exact hsame _
  | send n =>
    change ((t.sessions.send n.receiver n.event).value).opened[id]? = _
    rw [Sessions.value_send]
    rcases hc : t.sessions.current[n.receiver]? with _ | j
    · simp [touched, hc]
    · simp only [Sessions.getElem?_modify, touched, hc, Option.some.injEq]
      by_cases h : j = id <;> simp [h]
  | count i =>
    rw [(t.act_count i).1]
    exact hsame _
  | receive j n =>
    change (t.sessions.drain j n).2.opened[id]? = _
    simp only [Sessions.drain_eq, Sessions.getElem?_modify, touched]
    by_cases h : j = id <;> simp [h]
  | disconnect j =>
    change (t.sessions.modify j _).opened[id]? = _
    simp only [Sessions.getElem?_modify, touched]
    by_cases h : j = id <;> simp [h]

theorem size_act {a : Act} (ha : ∀ p c, a ≠ .connect p c) :
    (t.act a).sessions.opened.size = t.sessions.opened.size := by
  cases a with
  | connect p c => exact (ha p c rfl).elim
  | register j => exact congrArg _ (opened_register t.sessions j)
  | unregister p => rfl
  | send n =>
    change ((t.sessions.send n.receiver n.event).value).opened.size = _
    rw [Sessions.value_send]
    split
    · rfl
    · exact Std.ExtTreeMap.size_modify
  | count i => rw [(t.act_count i).1]
  | receive j n =>
    change (t.sessions.drain j n).2.opened.size = _
    rw [Sessions.drain_eq]
    exact Std.ExtTreeMap.size_modify
  | disconnect j => exact Std.ExtTreeMap.size_modify

end

theorem openings_of_ne {a : Act} (ha : ∀ p c, a ≠ .connect p c) (past : List Act) :
    openings (a :: past) = openings past := by
  cases a with
  | connect p c => exact (ha p c rfl).elim
  | _ => rfl

theorem opened_after (acts : List Act) :
    (after acts).sessions.opened.size = (openings acts).length ∧
    ∀ id : SessionId, (after acts).sessions.opened[id]?.map Session.terms =
      (openings acts)[id]?.map fun o : EntityId × Nat => (o.1, max o.2 1) := by
  induction acts with
  | nil => exact ⟨rfl, fun id => by simp [after, openings]⟩
  | cons a past ih =>
    obtain ⟨hsize, hterms⟩ := ih
    by_cases ha : ∃ p c, a = .connect p c
    · obtain ⟨p, c, rfl⟩ := ha
      have hnone : (after past).sessions.opened[(openings past).length]? = none := by
        have h := hterms (openings past).length
        rwa [List.getElem?_eq_none (Nat.le_refl _), Option.map_none, Option.map_eq_none_iff] at h
      constructor
      · change ((after past).sessions.opened.insert _ _).size = (openings past ++ [(p, c)]).length
        rw [Std.ExtTreeMap.size_insert, Std.ExtTreeMap.contains_eq_isSome_getElem?, hsize, hnone,
          List.length_append]
        rfl
      · intro id
        rw [after, getElem?_connect, openings, List.getElem?_append, hsize]
        rcases Nat.lt_trichotomy id (openings past).length with h | rfl | h
        · rw [if_neg (Nat.ne_of_gt h), if_pos h, hterms]
        · rw [if_pos rfl, if_neg (Nat.lt_irrefl _), Nat.sub_self]
          rfl
        · rw [if_neg (Nat.ne_of_lt h), if_neg (Nat.not_lt_of_lt h), hterms,
            List.getElem?_eq_none (Nat.le_of_lt h), List.getElem?_eq_none (by simp; omega)]
    · have ha : ∀ p c, a ≠ .connect p c := fun p c h => ha ⟨p, c, h⟩
      rw [openings_of_ne ha, after]
      refine ⟨(size_act _ ha).trans hsize, fun id => ?_⟩
      rw [getElem?_act _ ha, Option.map_map, ← hterms id]
      exact congrArg (fun g => Option.map g _) (funext fun s => terms_touched _ id s a)

theorem getElem?_openings {acts : List Act} {id : SessionId} {s : Session}
    (h : (after acts).sessions.opened[id]? = some s) :
    ∃ c, (openings acts)[id]? = some (s.player, c) ∧ s.capacity = max c 1 := by
  have ht := (opened_after acts).2 id
  rw [h, Option.map_some] at ht
  obtain ⟨⟨p, c⟩, ho, he⟩ := Option.map_eq_some_iff.1 ht.symm
  obtain ⟨rfl, hc⟩ := Prod.mk.inj he
  exact ⟨c, ho, hc.symm⟩

theorem getElem?_opened {acts : List Act} {id : SessionId} {p : EntityId} {c : Nat}
    (h : (openings acts)[id]? = some (p, c)) :
    ∃ s, (after acts).sessions.opened[id]? = some s ∧ s.player = p ∧ s.capacity = max c 1 := by
  have ht := (opened_after acts).2 id
  rw [h, Option.map_some] at ht
  obtain ⟨s, hs, he⟩ := Option.map_eq_some_iff.1 ht
  obtain ⟨hp, hc⟩ := Prod.mk.inj he
  exact ⟨s, hs, hp, hc⟩

theorem opened_eq_none_iff {acts : List Act} {id : SessionId} :
    (after acts).sessions.opened[id]? = none ↔ (openings acts).length ≤ id := by
  have ht := (opened_after acts).2 id
  rw [← List.getElem?_eq_none_iff]
  constructor
  · intro h
    rw [h, Option.map_none] at ht
    exact Option.map_eq_none_iff.1 ht.symm
  · intro h
    rw [h, Option.map_none] at ht
    exact Option.map_eq_none_iff.1 ht

/-- What holds of a session when it is opened, and is kept by whatever is done, holds of all
sessions that are open. -/
theorem opened_induction {P : List Act → SessionId → Session → Prop}
    (hnew : ∀ past p c, P (.connect p c :: past) (openings past).length
      { player := p, capacity := max c 1 })
    (hact : ∀ past a id s, (after past).sessions.opened[id]? = some s → P past id s →
      P (a :: past) id ((after past).touched id s a))
    {acts : List Act} {id : SessionId} {s : Session}
    (hs : (after acts).sessions.opened[id]? = some s) : P acts id s := by
  induction acts generalizing s with
  | nil => simp [after] at hs
  | cons a past ih =>
    rw [after] at hs
    by_cases ha : ∃ p c, a = .connect p c
    · obtain ⟨p, c, rfl⟩ := ha
      rw [getElem?_connect, (opened_after past).1] at hs
      split at hs
      · next hid =>
        cases hs
        exact hid ▸ hnew past p c
      · exact hact past _ id s hs (ih hs)
    · rw [getElem?_act _ fun p c h => ha ⟨p, c, h⟩] at hs
      obtain ⟨r, hr, rfl⟩ := Option.map_eq_some_iff.1 hs
      exact hact past a id r hr (ih hr)

theorem exists_of_holder {acts : List Act} {p : EntityId} {id : SessionId}
    (h : holder p acts = some id) : ∃ c, (openings acts)[id]? = some (p, c) := by
  induction acts with
  | nil => cases h
  | cons a past ih =>
    cases a with
    | connect q c =>
      obtain ⟨d, hd⟩ := ih h
      refine ⟨d, ?_⟩
      rw [openings, List.getElem?_append_left (List.getElem?_eq_some_iff.1 hd).1, hd]
    | register j =>
      rw [holder] at h
      split at h
      · next hj =>
        cases h
        obtain ⟨⟨q, c⟩, ho, rfl⟩ := Option.map_eq_some_iff.1 hj
        exact ⟨c, ho⟩
      · exact ih h
    | unregister q =>
      rw [holder] at h
      split at h
      · cases h
      · exact ih h
    | _ => exact ih h

theorem holder_ne {acts : List Act} {id : SessionId} (h : (openings acts).length ≤ id)
    (p : EntityId) : holder p acts ≠ some id := by
  intro hh
  obtain ⟨c, hc⟩ := exists_of_holder hh
  rw [List.getElem?_eq_none h] at hc
  cases hc

theorem current_after (acts : List Act) (p : EntityId) :
    (after acts).sessions.current[p]? = holder p acts := by
  induction acts with
  | nil => simp [after, holder]
  | cons a past ih =>
    cases a with
    | register id =>
      change ((after past).sessions.register id).current[p]? = _
      rw [Sessions.register, holder]
      rcases hs : (after past).sessions.opened[id]? with _ | s
      · rw [List.getElem?_eq_none (opened_eq_none_iff.1 hs)]
        simpa using ih
      · obtain ⟨c, ho, -⟩ := getElem?_openings hs
        simp only [ho, Option.map_some, Option.some.injEq]
        rw [Std.ExtTreeMap.getElem?_insert, ← ih]
        simp
    | unregister q =>
      change ((after past).sessions.current.erase q)[p]? = _
      rw [Std.ExtTreeMap.getElem?_erase, holder, ← ih]
      simp
    | send n =>
      change (((after past).sessions.send n.receiver n.event).value).current[p]? = holder p past
      rw [Sessions.value_send, ← ih]
      split <;> rfl
    | count i =>
      rw [after, ((after past).act_count i).1]
      exact ih
    | receive id n =>
      change ((after past).sessions.drain id n).2.current[p]? = holder p past
      rw [Sessions.drain_eq, ← ih]
      rfl
    | connect _ _ | disconnect _ => exact ih

theorem Gone.lt {acts : List Act} {id : SessionId} (h : Gone id acts) :
    id < (openings acts).length := by
  induction acts with
  | nil => exact h.elim
  | cons a past ih =>
    cases a with
    | connect p c =>
      rw [openings, List.length_append]
      exact Nat.lt_add_right _ (ih h)
    | disconnect j =>
      rcases h with ⟨-, h⟩ | h
      · exact h
      · exact ih h
    | _ => exact ih h

theorem connected_after {acts : List Act} {id : SessionId} {s : Session}
    (hs : (after acts).sessions.opened[id]? = some s) : s.connected = false ↔ Gone id acts := by
  refine opened_induction (P := fun acts id s => s.connected = false ↔ Gone id acts) ?_ ?_ hs
  · exact fun past p c => ⟨fun h => (nomatch h), fun h => (Nat.lt_irrefl _ (Gone.lt h)).elim⟩
  · intro past a id s hs ih
    cases a with
    | send n =>
      rw [touched]
      split <;> exact ih
    | receive j n =>
      rw [touched]
      split
      · rw [Session.drain_eq]
        split <;> exact ih
      · exact ih
    | disconnect j =>
      rw [touched, Gone]
      split
      · next hj =>
        have hlt : id < (openings past).length := Nat.lt_of_not_le fun hle => by
          rw [opened_eq_none_iff.2 hle] at hs
          cases hs
        exact ⟨fun _ => .inl ⟨hj, hlt⟩, fun _ => rfl⟩
      · next hj => exact ih.trans ⟨.inr, fun h => h.resolve_left fun h => hj h.1⟩
    | _ => exact ih

theorem length_queue_le {acts : List Act} {id : SessionId} {s : Session}
    (hs : (after acts).sessions.opened[id]? = some s) : s.queue.length ≤ s.capacity := by
  refine opened_induction (P := fun _ _ s => s.queue.length ≤ s.capacity) ?_ ?_ hs
  · exact fun past p c => Nat.zero_le _
  · intro past a id s _ ih
    cases a with
    | send n =>
      rw [touched]
      split
      · rw [Session.offered]
        rcases s.refusal?_cases with ⟨-, hr⟩ | ⟨-, -, hr⟩ | ⟨-, hroom, hr⟩
        · simpa [hr] using ih
        · simpa [hr] using ih
        · simpa [hr] using Nat.succ_le_of_lt hroom
      · exact ih
    | receive j n =>
      rw [touched]
      split
      · rw [Session.drain_eq]
        split
        · exact Nat.le_trans (by simp) ih
        · exact ih
      · exact ih
    | disconnect j =>
      rw [touched]
      split <;> exact ih
    | _ => exact ih

theorem received_touched (t : Traffic) (id : SessionId) (s : Session)
    (hs : t.sessions.opened[id]? = some s) (a : Act) :
    (t.act a).received id ++ (t.touched id s a).queue = t.received id ++ s.queue ++
      match a with
      | .send n =>
        if t.sessions.current[n.receiver]? = some id ∧ s.refusal? = none then [n.event] else []
      | _ => [] := by
  cases a with
  | send n =>
    rw [touched]
    by_cases hc : t.sessions.current[n.receiver]? = some id
    · simp [hc, Session.offered, act]
    · simp [hc, act]
  | count i =>
    rw [(t.act_count i).2, List.append_nil]
    rfl
  | receive j n =>
    rw [touched, act, Sessions.drain_eq]
    by_cases hj : j = id
    · subst hj
      dsimp only
      rw [hs, if_pos rfl, Function.update_self]
      rcases hc : s.connected with _ | _ <;> simp [Session.drain_eq, hc]
    · simp [hj, Function.update_of_ne (Ne.symm hj)]
  | disconnect j =>
    rw [touched, List.append_nil]
    split <;> rfl
  | connect _ _ | register _ | unregister _ => rw [List.append_nil]; rfl

theorem length_openings_le (a : Act) (past : List Act) :
    (openings past).length ≤ (openings (a :: past)).length := by
  cases a with
  | connect p c =>
    rw [openings, List.length_append]
    exact Nat.le_add_right _ _
  | _ => exact Nat.le_refl _

theorem unopened {acts : List Act} {id : SessionId} (h : (openings acts).length ≤ id) :
    (after acts).received id = [] ∧ delivered id acts = [] := by
  induction acts with
  | nil => exact ⟨rfl, rfl⟩
  | cons a past ih =>
    have hpast := Nat.le_trans (length_openings_le a past) h
    obtain ⟨hr, hd⟩ := ih hpast
    cases a with
    | send n =>
      refine ⟨hr, ?_⟩
      rw [delivered, hd, if_neg fun hh => holder_ne hpast _ hh.1]
      rfl
    | count i =>
      rw [after, ((after past).act_count i).2]
      exact ⟨hr, hd⟩
    | receive j n =>
      refine ⟨?_, hd⟩
      rw [after, act, Sessions.drain_eq]
      by_cases hj : j = id
      · subst hj
        simp [hr, opened_eq_none_iff.2 hpast]
      · dsimp only
        rw [Function.update_of_ne (Ne.symm hj), hr]
    | _ => exact ⟨hr, hd⟩

theorem refusal?_of_holder {acts : List Act} {n : Notice} {id : SessionId} {s : Session}
    (hh : holder n.receiver acts = some id) (hs : (after acts).sessions.opened[id]? = some s) :
    (after acts).sessions.refusal? n = s.refusal? := by
  rw [Sessions.refusal?_eq, current_after, hh, Option.bind_some, hs]
  rfl

theorem refusal?_of_no_holder {acts : List Act} {n : Notice} (hh : holder n.receiver acts = none) :
    (after acts).sessions.refusal? n = some .notFound := by
  rw [Sessions.refusal?_eq, current_after, hh]
  rfl

theorem received_append_queue {acts : List Act} {id : SessionId} {s : Session}
    (hs : (after acts).sessions.opened[id]? = some s) :
    (after acts).received id ++ s.queue = delivered id acts := by
  refine opened_induction
    (P := fun acts id s => (after acts).received id ++ s.queue = delivered id acts) ?_ ?_ hs
  · intro past p c
    obtain ⟨hr, hd⟩ : (after past).received _ = [] ∧ delivered _ past = [] :=
      unopened (Nat.le_refl (openings past).length)
    exact (List.append_nil _).trans (hr.trans hd.symm)
  · intro past a id s hs ih
    rw [after, received_touched _ _ _ hs, ih]
    cases a with
    | send n =>
      dsimp only
      rw [delivered, current_after]
      by_cases hh : holder n.receiver past = some id
      · rw [refusal?_of_holder hh hs]
      · simp [hh]
    | _ => exact List.append_nil _

theorem pending_of_some {d : Sessions} {id : SessionId} {s : Session}
    (h : d.opened[id]? = some s) : d.pending id = s.queue := by
  rw [Sessions.pending, h]
  rfl

theorem pending_of_none {d : Sessions} {id : SessionId} (h : d.opened[id]? = none) :
    d.pending id = [] := by
  rw [Sessions.pending, h]
  rfl

theorem pending_send (acts : List Act) (n : Notice) (id : SessionId) :
    (after (.send n :: acts)).sessions.pending id = (after acts).sessions.pending id ++
      if holder n.receiver acts = some id ∧ (after acts).sessions.refusal? n = none then [n.event]
      else [] := by
  have hact := (after acts).getElem?_act (a := .send n) (fun _ _ => Act.noConfusion) id
  rcases hs : (after acts).sessions.opened[id]? with _ | s
  · have hne := holder_ne (opened_eq_none_iff.1 hs) n.receiver
    rw [hs, Option.map_none] at hact
    rw [after, pending_of_none hact, pending_of_none hs, if_neg fun hh => hne hh.1]
    rfl
  · rw [hs, Option.map_some] at hact
    rw [after, pending_of_some hact, pending_of_some hs, touched, current_after]
    by_cases hh : holder n.receiver acts = some id
    · simp [hh, refusal?_of_holder hh hs, Session.offered]
    · simp [hh]

section Counting

theorem get_apply_raise (us : UInt64) (m : Counters) (c d : Counter) :
    (m.apply us (.raise c 1)).get d = m.get d + if c = d then 1 else 0 := by
  rw [Counters.apply, Counters.raise, Counters.get_set]
  by_cases h : c = d <;> simp [h]

theorem get_foldl_raises (us : UInt64) (cs : List Counter) (m : Counters) (c : Counter) :
    ((cs.map (Effect.raise · 1)).foldl (Counters.apply us) m).get c =
      m.get c + UInt64.ofNat (cs.count c) := by
  induction cs generalizing m with
  | nil => exact (UInt64.add_zero _).symm
  | cons d cs ih =>
    rw [List.map_cons, List.foldl_cons, ih, get_apply_raise, List.count_cons, UInt64.ofNat_add,
      UInt64.add_assoc, UInt64.add_comm (UInt64.ofNat _)]
    by_cases h : d = c <;> simp [h]

theorem due_after (acts : List Act) : ∃ cs : List Counter,
    (after acts).due = cs.map (Effect.raise · 1) ∧
    ∀ c, (after acts).counters.get c + UInt64.ofNat (cs.count c) =
      UInt64.ofNat ((refusals acts).countP (Sessions.counted · = some c)) := by
  induction acts with
  | nil => exact ⟨[], rfl, fun c => by cases c <;> rfl⟩
  | cons a past ih =>
    obtain ⟨cs, hdue, hcs⟩ := ih
    cases a with
    | send n =>
      refine ⟨cs ++ (Sessions.counted ((after past).sessions.refusal? n)).toList, ?_, fun c => ?_⟩
      · change (after past).due ++ ((after past).sessions.send n.receiver n.event).log = _
        rw [Sessions.log_send, hdue, List.map_append]
      · change (after past).counters.get c + _ = _
        rw [List.count_append, refusals, List.countP_cons, UInt64.ofNat_add, UInt64.ofNat_add,
          ← UInt64.add_assoc, hcs]
        rcases Sessions.counted ((after past).sessions.refusal? n) with _ | d
        · simp
        · by_cases h : d = c <;> simp [h]
    | count i =>
      have hr : refusals (.count i :: past) = refusals past := rfl
      rw [hr, after, act]
      rcases hi : cs[i]? with _ | d
      · rw [hdue, List.getElem?_map, hi]
        exact ⟨cs, hdue, hcs⟩
      · -- one of those that are due is so no more, but shows in its counter
        obtain ⟨hlt, rfl⟩ := List.getElem?_eq_some_iff.1 hi
        rw [hdue, List.getElem?_map, hi]
        refine ⟨cs.eraseIdx i, List.eraseIdx_map .., fun c => ?_⟩
        rw [← hcs c, ← (List.getElem_cons_eraseIdx_perm hlt).count_eq c, List.count_cons,
          Option.map_some]
        dsimp only
        rw [get_apply_raise, UInt64.ofNat_add, UInt64.add_assoc,
          UInt64.add_comm (UInt64.ofNat (List.count _ _))]
        by_cases h : cs[i] = c <;> simp [h]
    | _ => exact ⟨cs, hdue, hcs⟩

theorem get_settled (acts : List Act) (c : Counter) : (after acts).settled.get c =
    UInt64.ofNat ((refusals acts).countP (Sessions.counted · = some c)) := by
  obtain ⟨cs, hdue, hcs⟩ := due_after acts
  rw [settled, hdue, get_foldl_raises, hcs]

theorem length_refusals (acts : List Act) : (refusals acts).length = (sent acts).length := by
  induction acts with
  | nil => rfl
  | cons a past ih =>
    cases a with
    | send n => exact congrArg (· + 1) ih
    | _ => exact ih

theorem count_refusals (rs : List (Option DeliveryError)) :
    rs.countP (Sessions.counted · = some .eventsDelivered) = rs.count none ∧
    rs.countP (Sessions.counted · = some .eventsDropped) =
      rs.count (some .full) + rs.count (some .closed) ∧
    rs.count none + (rs.count (some .full) + rs.count (some .closed)) + rs.count (some .notFound) =
      rs.length := by
  induction rs with
  | nil => exact ⟨rfl, rfl, rfl⟩
  | cons r rs ih =>
    obtain ⟨hdelivered, hdropped, hall⟩ := ih
    simp only [List.countP_cons, List.count_cons, hdelivered, hdropped, List.length_cons, ← hall]
    rcases r with _ | r
    · simp [Sessions.counted]
      omega
    · cases r <;> simp [Sessions.counted] <;> omega

end Counting

/-- An event is refused for what its receiver has: no session, one that nobody receives from, or one
without room. That nobody receives from it counts more than that it has no room. -/
theorem refusal?_iff (acts : List Act) (n : Notice) :
    let why := (after acts).sessions.refusal? n
    (why = some .notFound ↔ holder n.receiver acts = none) ∧
    (why = some .closed ↔ ∃ id, holder n.receiver acts = some id ∧ Gone id acts) ∧
    (why = some .full ↔ ∃ id c, holder n.receiver acts = some id ∧ ¬ Gone id acts ∧
      (openings acts)[id]? = some (n.receiver, c) ∧
      ((after acts).sessions.pending id).length = max c 1) := by
  intro why
  rcases hh : holder n.receiver acts with _ | id
  · have hwhy : why = some .notFound := refusal?_of_no_holder hh
    simp [hwhy]
  · obtain ⟨c, ho⟩ := exists_of_holder hh
    obtain ⟨s, hs, -, hcap⟩ := getElem?_opened ho
    have hwhy : why = s.refusal? := refusal?_of_holder hh hs
    have hgone := connected_after hs
    have hle := length_queue_le hs
    rw [hcap] at hle
    rcases s.refusal?_cases with ⟨hc, hr⟩ | ⟨hc, hfull, hr⟩ | ⟨hc, hroom, hr⟩
    · have hg : Gone id acts := hgone.1 hc
      simp [hwhy, hr, hg]
    · have hg : ¬ Gone id acts := fun hg => by simp [hgone.2 hg] at hc
      have hlen : s.queue.length = max c 1 := Nat.le_antisymm hle (hcap ▸ hfull)
      simp [hwhy, hr, hg, ho, pending_of_some hs, hlen]
    · have hg : ¬ Gone id acts := fun hg => by simp [hgone.2 hg] at hc
      have hlen : s.queue.length ≠ max c 1 := Nat.ne_of_lt (hcap ▸ hroom)
      simp [hwhy, hr, hg, ho, pending_of_some hs, hlen]

example :
    let n : Notice := ⟨7, .activity 1 .dead⟩
    refusals [.send n, .register 1, .connect 7 4, .send n, .disconnect 0, .send n, .send n,
      .register 0, .connect 7 0, .send n] =
    [none, some .closed, some .full, none, some .notFound] := by
  decide +kernel

theorem received_append_pending (acts : List Act) (id : SessionId) :
    (after acts).received id ++ (after acts).sessions.pending id = delivered id acts := by
  rcases hs : (after acts).sessions.opened[id]? with _ | s
  · obtain ⟨hr, hd⟩ := unopened (opened_eq_none_iff.1 hs)
    rw [pending_of_none hs, hr, hd]
    rfl
  · rw [pending_of_some hs]
    exact received_append_queue hs

theorem length_pending_le {acts : List Act} {id : SessionId} {p : EntityId} {c : Nat}
    (h : (openings acts)[id]? = some (p, c)) :
    ((after acts).sessions.pending id).length ≤ max c 1 := by
  obtain ⟨s, hs, -, hcap⟩ := getElem?_opened h
  rw [pending_of_some hs, ← hcap]
  exact length_queue_le hs

/-- Whatever was done: an event is queued once if it is not refused, for the session that its
receiver then has, and for no other; it is refused for what that session is like; what was received
from a session and what waits in its queue, which is no longer than it may be, are what was queued
for it, in order; and once all is counted, the counters show what became of all that was sent. -/
theorem delivered_in_order (acts : List Act) :
    (∀ n id, (after (.send n :: acts)).sessions.pending id = (after acts).sessions.pending id ++
      if holder n.receiver acts = some id ∧ (after acts).sessions.refusal? n = none then [n.event]
      else []) ∧
    (∀ n, let why := (after acts).sessions.refusal? n
      (why = some .notFound ↔ holder n.receiver acts = none) ∧
      (why = some .closed ↔ ∃ id, holder n.receiver acts = some id ∧ Gone id acts) ∧
      (why = some .full ↔ ∃ id c, holder n.receiver acts = some id ∧ ¬ Gone id acts ∧
        (openings acts)[id]? = some (n.receiver, c) ∧
        ((after acts).sessions.pending id).length = max c 1)) ∧
    (∀ id, (after acts).received id ++ (after acts).sessions.pending id = delivered id acts) ∧
    (∀ (id : SessionId) p c, (openings acts)[id]? = some (p, c) →
      ((after acts).sessions.pending id).length ≤ max c 1) ∧
    let became := (refusals acts).count
    (after acts).settled.get .eventsDelivered = UInt64.ofNat (became none) ∧
    (after acts).settled.get .eventsDropped =
      UInt64.ofNat (became (some .full) + became (some .closed)) ∧
    became none + (became (some .full) + became (some .closed)) + became (some .notFound) =
      (sent acts).length := by
  obtain ⟨hdelivered, hdropped, hall⟩ := count_refusals (refusals acts)
  refine ⟨pending_send acts, refusal?_iff acts, received_append_pending acts,
    fun _ _ _ => length_pending_le, ?_, ?_, hall.trans (length_refusals acts)⟩
  · rw [get_settled, hdelivered]
  · rw [get_settled, hdropped]

end Fieldwatch.Traffic
