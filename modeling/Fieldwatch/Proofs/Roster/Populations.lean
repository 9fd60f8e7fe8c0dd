import Fieldwatch.Proofs.Sessions.Traffic
import Fieldwatch.Proofs.Worker.Upkeep
import Fieldwatch.Server

/-! What the counters of a server show once fields have been created, have worked and have been
stopped, over and over. A stop takes a worker off the count of active ones, but the players and the
monsters of its field stay counted for ever. -/

namespace Fieldwatch

namespace Happening

def effect? : Happening → Option Effect
  | .opened _ => none
  | .effect _ e => some e

end Happening

def effects (l : List Happening) : List Effect := l.filterMap Happening.effect?

theorem effects_append (l m : List Happening) : effects (l ++ m) = effects l ++ effects m :=
  List.filterMap_append

theorem effects_under {α : Type} (id : FieldId) (r : Effects α) :
    effects (r.under id).log = r.log := by
  change (r.log.map (Happening.effect id)).filterMap Happening.effect? = r.log
  rw [List.filterMap_map]
  exact List.filterMap_some

namespace Roster

variable (r : Roster)

def staff : List (Worker Unit) := r.workers.toList.map Prod.snd

theorem length_staff : r.staff.length = r.size := by
  rw [staff, List.length_map, Std.ExtTreeMap.length_toList]
  rfl

section Put

variable {r} {id : FieldId} {w : Worker Unit}

theorem nodup_toList (m : Std.ExtTreeMap FieldId (Worker Unit)) : m.toList.Nodup :=
  Std.ExtTreeMap.distinct_keys_toList.imp fun {a b} h he =>
    h (by rw [he]; exact Std.ReflCmp.compare_self)

theorem toList_perm {m : Std.ExtTreeMap FieldId (Worker Unit)} (h : m[id]? = some w) :
    m.toList.Perm ((id, w) :: (m.erase id).toList) := by
  have hnot : (id, w) ∉ (m.erase id).toList := by
    rw [Std.ExtTreeMap.mem_toList_iff_getElem?_eq_some]
    simp
  refine (List.perm_ext_iff_of_nodup (nodup_toList m) ((nodup_toList _).cons hnot)).2 ?_
  rintro ⟨j, v⟩
  rw [List.mem_cons, Std.ExtTreeMap.mem_toList_iff_getElem?_eq_some,
    Std.ExtTreeMap.mem_toList_iff_getElem?_eq_some, Std.ExtTreeMap.getElem?_erase]
  by_cases hj : id = j
  · subst hj
    simp [h, eq_comm]
  · simp [hj, Ne.symm hj]

theorem erase_put (r : Roster) (id : FieldId) (w : Worker Unit) :
    (r.put id w).workers.erase id = r.workers.erase id := by
  refine Std.ExtTreeMap.ext_getElem? fun j => ?_
  rw [put, Std.ExtTreeMap.getElem?_erase, Std.ExtTreeMap.getElem?_erase,
    Std.ExtTreeMap.getElem?_insert]
  split <;> rfl

def others (r : Roster) (id : FieldId) : List (Worker Unit) :=
  (r.workers.erase id).toList.map Prod.snd

theorem staff_put (r : Roster) (id : FieldId) (w : Worker Unit) :
    (r.put id w).staff.Perm (w :: r.others id) := by
  have hget : (r.put id w).workers[id]? = some w := Std.ExtTreeMap.getElem?_insert_self
  have h := (toList_perm hget).map Prod.snd
  rwa [erase_put] at h

theorem staff_of_some (h : r.get? id = some w) : r.staff.Perm (w :: r.others id) :=
  (toList_perm h).map Prod.snd

theorem staff_of_none (h : r.get? id = none) : r.staff = r.others id := by
  have he : r.workers.erase id = r.workers := Std.ExtTreeMap.ext_getElem? fun j => by
    rw [Std.ExtTreeMap.getElem?_erase]
    split
    · next hj => rw [← Std.LawfulEqCmp.eq_of_compare hj]; exact h.symm
    · rfl
  rw [others, he, staff]

end Put

def Keeps (m : Happenings Roster) : Prop := Upkeep r.staff (effects m.log) m.value.staff

variable {r}

theorem Keeps.bind {m : Happenings Roster} {k : Roster → Happenings Roster} (h : r.Keeps m)
    (hk : m.value.Keeps (k m.value)) : r.Keeps (m >>= k) := by
  have ht := Upkeep.trans h hk
  rwa [← effects_append] at ht

theorem keeps_updating {α : Type} {id : FieldId} {op : Worker Unit → Effects (α × Worker Unit)}
    (hop : ∀ w : Worker Unit, w.Keeps (Prod.snd <$> op w)) : r.Keeps (Prod.snd <$> r.updating id op) := by
  unfold updating
  rcases h : r.get? id with _ | w
  · exact .refl _
  · have hw := (hop w).frame (r.others id)
    rw [Emit.log_map, Emit.value_map] at hw
    have hlog : effects (Prod.snd <$> ((op w).under id >>= fun x =>
        pure (some x.1, r.put id x.2)) : Happenings Roster).log = (op w).log := by
      rw [Emit.log_map, Emit.log_bind, Emit.log_pure, List.append_nil, effects_under]
    rw [Keeps, hlog]
    exact hw.perm (staff_of_some h) (staff_put r id _)

theorem keeps_update {id : FieldId} {op : Worker Unit → Effects (Worker Unit)}
    (hop : ∀ w : Worker Unit, w.Keeps (op w)) : r.Keeps (r.update id op) := by
  refine keeps_updating fun w => ?_
  rw [Functor.map_map]
  exact (id_map (op w)).symm ▸ hop w

theorem keeps_post (id : FieldId) {m : Message Unit} (hm : m.IsFair) :
    r.Keeps (Prod.snd <$> r.post id m) := by
  have hpost : Prod.snd <$> r.post id m = Prod.snd <$> r.updating id (·.push m) :=
    Emit.ext rfl (by rw [Emit.log_map, Emit.log_map]; exact List.append_nil _)
  rw [hpost]
  exact keeps_updating fun w => Worker.keeps_push hm

theorem keeps_forEach {visit : FieldId → Roster → Happenings Roster}
    (h : ∀ id (r : Roster), r.Keeps (visit id r)) : r.Keeps (r.forEach visit) := by
  unfold forEach
  induction r.ids generalizing r with
  | nil => exact .refl _
  | cons id ids ih => exact (h id r).bind ih

theorem keeps_run : r.Keeps r.run := keeps_forEach fun _ _ => keeps_update fun _ => Worker.keeps_run

theorem newField_eq (r : Roster) (id : FieldId) (enum : Enumeration) : ∃ ds : List (Deed Unit),
    (∀ d ∈ ds, d.IsFair) ∧ r.newField id enum = (Field.idle id r.config enum).run ds := by
  unfold newField
  dsimp only
  split
  · refine ⟨[.populate {}], List.forall_mem_singleton.2 trivial, ?_⟩
    rw [Field.run, List.foldlM_cons, Field.perform]
    split
    · next hp => rw [hp]; exact (bind_pure _).symm
    · next hp => rw [hp]; exact (pure_bind _ _).symm
  · exact ⟨[], List.forall_mem_nil _, rfl⟩

theorem upkeep_create (id : FieldId) (config : FieldConfig) (enum : Enumeration) (capacity : Nat) :
    Upkeep [] [] [Worker.create (Field.idle id config enum) capacity] where
  fair _ := List.forall_mem_singleton.2 (List.forall_mem_nil _)
  room _ _ := List.forall_mem_nil _
  sound _ _ _ := List.forall_mem_singleton.2 (Herd.sound_empty _)
  balance_eq _ _ _ t := by
    rw [Tally.total_singleton]
    rcases t with _ | _ | _ <;> rfl

theorem upkeep_newWorker (r : Roster) (id : FieldId) (enum : Enumeration) :
    Upkeep [] (r.newWorker id enum).log [(r.newWorker id enum).value] := by
  obtain ⟨ds, hds, hnew⟩ := r.newField_eq id enum
  -- the field is populated before its worker starts, which is as if the worker had done it
  have hborn := upkeep_create id r.config enum r.config.queueCapacity
  have hfilled : Upkeep [Worker.create (Field.idle id r.config enum) r.config.queueCapacity]
      (((Field.idle id r.config enum).run ds).log ++ [])
      [Worker.create ((Field.idle id r.config enum).run ds).value r.config.queueCapacity] :=
    .of_run hds rfl (fun _ h => h) rfl fun t => t.counter.balance_nil
  have hstarted := (hborn.trans hfilled).trans Worker.keeps_start
  rw [List.nil_append, List.append_nil, ← hnew] at hstarted
  exact hstarted

theorem keeps_create (id : FieldId) (enum : Enumeration) : r.Keeps (r.create id enum) := by
  unfold create
  split
  · exact .refl _
  · next hid =>
    have hnone : r.get? id = none := by
      simpa [get?] using hid
    have hlog : effects (do
        Emit.ofLog [.opened id]
        return r.put id (← (r.newWorker id enum).under id) : Happenings Roster).log =
          (r.newWorker id enum).log := by
      rw [Emit.log_bind, effects_append, Emit.log_bind, Emit.log_pure, List.append_nil,
        effects_under]
      rfl
    rw [Keeps, hlog]
    have hw := (upkeep_newWorker r id enum).frame (r.others id)
    exact hw.perm (.of_eq (staff_of_none hnone)) (staff_put r id _)

section Forall

variable {P : Worker Unit → Prop} {id : FieldId}

theorem forall_staff_put (h : ∀ w ∈ r.staff, P w) {w : Worker Unit} (hw : P w) :
    ∀ v ∈ (r.put id w).staff, P v := by
  intro v hv
  rcases List.mem_cons.1 ((staff_put r id w).mem_iff.1 hv) with rfl | hv
  · exact hw
  · rcases ho : r.get? id with _ | u
    · exact h v (staff_of_none ho ▸ hv)
    · exact h v ((staff_of_some ho).mem_iff.2 (List.mem_cons_of_mem _ hv))

theorem forall_staff_updating {α : Type} {op : Worker Unit → Effects (α × Worker Unit)}
    (hop : ∀ w, P w → P (op w).value.2) (h : ∀ w ∈ r.staff, P w) :
    ∀ w ∈ (r.updating id op).value.2.staff, P w := by
  unfold updating
  rcases hw : r.get? id with _ | w
  · exact h
  · exact forall_staff_put h (hop w (h w ((staff_of_some hw).mem_iff.2 List.mem_cons_self)))

theorem forall_staff_run (hrun : ∀ w, P w → P w.run.value) (h : ∀ w ∈ r.staff, P w) :
    ∀ w ∈ r.run.value.staff, P w := by
  unfold run forEach
  induction r.ids generalizing r with
  | nil => exact h
  | cons id ids ih =>
    rw [List.foldlM_cons, Emit.value_bind]
    exact ih (forall_staff_updating hrun h)

end Forall

def stopped (r : Roster) : List (Worker Unit) := r.staff.map (·.stop.value)

theorem upkeep_stopEach (l : List (FieldId × Worker Unit)) : Upkeep (l.map Prod.snd)
    (effects (l.mapM fun (id, w) => w.stop.under id : Happenings (List (Worker Unit))).log)
    ((l.map Prod.snd).map (·.stop.value)) := by
  induction l with
  | nil => exact .refl _
  | cons x l ih =>
    obtain ⟨id, w⟩ := x
    have hfirst : Upkeep (w :: l.map Prod.snd) w.stop.log (w.stop.value :: l.map Prod.snd) :=
      Worker.keeps_stop.frame _
    -- the first worker is stopped beside the others, then they are beside it
    have hrest := (ih.frame [w.stop.value]).perm (List.perm_append_singleton _ _).symm
      (List.perm_append_singleton _ _).symm
    rw [List.mapM_cons, Emit.log_bind, effects_append, effects_under, Emit.log_bind, Emit.log_pure,
      List.append_nil]
    exact hfirst.trans hrest

theorem upkeep_stopAll (r : Roster) : Upkeep r.staff (effects r.stopAll.log) r.stopped := by
  have h := upkeep_stopEach r.workers.toList
  have hlog : effects r.stopAll.log = effects (r.workers.toList.mapM fun (id, w) =>
      w.stop.under id : Happenings (List (Worker Unit))).log := by
    unfold stopAll
    rw [Emit.log_bind, Emit.log_pure, List.append_nil]
  rw [hlog]
  exact h

end Roster

namespace Tally

variable (t : Tally)

theorem get_deliver (s : Server) (n : Notice) :
    (s.deliver n).counters.get t.counter = s.counters.get t.counter := by
  rw [Server.deliver]
  dsimp only
  rw [Sessions.log_send]
  rcases s.sessions.refusal? n with _ | _ | _ | _
  case some.notFound => rfl
  all_goals rcases t with _ | _ | _ <;> rfl

theorem get_foldl_perform (l : List Happening) (s : Server) :
    (l.foldl Server.perform s).counters.get t.counter =
      s.counters.get t.counter + UInt64.ofInt (t.counter.balance (effects l)) := by
  induction l generalizing s with
  | nil => exact (UInt64.add_zero _).symm
  | cons h l ih =>
    rw [List.foldl_cons, ih]
    have hstep : (s.perform h).counters.get t.counter = s.counters.get t.counter +
        UInt64.ofInt (t.counter.balance (effects [h])) := by
      unfold Server.perform
      split
      · exact (UInt64.add_zero _).symm
      · split
        · exact (t.get_deliver _ _).trans (UInt64.add_zero _).symm
        · exact (UInt64.add_zero _).symm
      · next e _ =>
        rw [t.get_apply]
        exact congrArg (_ + UInt64.ofInt ·) (Int.add_zero _).symm
    rw [hstep, UInt64.add_assoc, ← UInt64.ofInt_add, ← Counter.balance_append, ← effects_append]
    rfl

end Tally

namespace Server

theorem roster_foldl_perform (l : List Happening) (s : Server) :
    (l.foldl perform s).roster = s.roster := by
  induction l generalizing s with
  | nil => rfl
  | cons h l ih =>
    rw [List.foldl_cons, ih]
    unfold perform
    split
    · rfl
    · split <;> rfl
    · rfl

inductive Act where
  | create (id : FieldId) (enum : Enumeration)
  | post (id : FieldId) (m : Message Unit)
  | run
  | stopAll

def Act.IsFair : Act → Prop
  | .post _ m => m.IsFair
  | .create .. | .run | .stopAll => True

def act (s : Server) : Act → Server
  | .create id enum => s.createField id enum
  | .post id m => (s.post id m).2
  | .run => s.run
  | .stopAll => s.stopAll

def dismissing (s : Server) : Act → List (Worker Unit)
  | .stopAll => s.roster.stopped
  | .create .. | .post .. | .run => []

section History

variable (config : FieldConfig) (npcField : FieldId) (provide : FieldId → Outlet)

def after : List Act → Server
  | [] => create config npcField provide
  | a :: past => (after past).act a

def dismissed : List Act → List (Worker Unit)
  | [] => []
  | a :: past => (after config npcField provide past).dismissing a ++ dismissed past

end History

/-- One server becomes another one, whose counters have moved with its workers; `gone` are those
that were stopped on the way. -/
def Moves (s : Server) (gone : List (Worker Unit)) (t : Server) : Prop :=
  ∃ l, Upkeep s.roster.staff l (t.roster.staff ++ gone) ∧
    ∀ c : Tally, t.counters.get c.counter =
      s.counters.get c.counter + UInt64.ofInt (c.counter.balance l)

theorem moves_change (s : Server) {op : Roster → Happenings Roster} {gone : List (Worker Unit)}
    (h : Upkeep s.roster.staff (effects (op s.roster).log) ((op s.roster).value.staff ++ gone)) :
    s.Moves gone (s.change op) := by
  refine ⟨_, ?_, fun c => c.get_foldl_perform _ _⟩
  rw [change, roster_foldl_perform]
  exact h

theorem moves_of_keeps (s : Server) {op : Roster → Happenings Roster}
    (h : s.roster.Keeps (op s.roster)) : s.Moves [] (s.change op) :=
  s.moves_change (by rw [List.append_nil]; exact h)

theorem snd_changing {α : Type} (s : Server) (op : Roster → Happenings (α × Roster)) :
    (s.changing op).2 = s.change fun r => Prod.snd <$> op r := by
  rw [change, Emit.log_map]
  rfl

theorem moves_act (s : Server) {a : Act} (ha : a.IsFair) : s.Moves (s.dismissing a) (s.act a) := by
  cases a with
  | create id enum => exact s.moves_of_keeps (Roster.keeps_create id enum)
  | post id m =>
    rw [act, post, snd_changing]
    exact s.moves_of_keeps (Roster.keeps_post id ha)
  | run => exact s.moves_of_keeps Roster.keeps_run
  | stopAll =>
    refine s.moves_change ?_
    have hnone : ((s.roster.stopAll).value).staff = [] := rfl
    rw [hnone]
    exact s.roster.upkeep_stopAll

theorem running_act {s : Server} (h : ∀ w ∈ s.roster.staff, w.stage = .running) (a : Act) :
    ∀ w ∈ (s.act a).roster.staff, w.stage = .running := by
  cases a with
  | create id enum =>
    rw [act, createField, change, roster_foldl_perform]
    change ∀ w ∈ (s.roster.create id enum).value.staff, _
    unfold Roster.create
    split
    · exact h
    · exact Roster.forall_staff_put h rfl
  | post id m =>
    rw [act, post, snd_changing, change, roster_foldl_perform]
    exact Roster.forall_staff_updating (fun w hw => (w.stage_push m).trans hw) h
  | run =>
    rw [act, run, change, roster_foldl_perform]
    exact Roster.forall_staff_run (fun w hw => w.stage_run.trans hw) h
  | stopAll =>
    rw [act, stopAll, change, roster_foldl_perform]
    exact List.forall_mem_nil _

section History

variable (config : FieldConfig) (npcField : FieldId) (provide : FieldId → Outlet)

theorem stages_after (acts : List Act) :
    (∀ w ∈ (after config npcField provide acts).roster.staff, w.stage = .running) ∧
    ∀ w ∈ dismissed config npcField provide acts, w.stage = .stopped := by
  induction acts with
  | nil => exact ⟨List.forall_mem_nil _, List.forall_mem_nil _⟩
  | cons a past ih =>
    refine ⟨running_act ih.1 a, ?_⟩
    rw [dismissed, List.forall_mem_append]
    refine ⟨?_, ih.2⟩
    cases a with
    | stopAll =>
      intro w hw
      obtain ⟨v, hv, rfl⟩ := List.mem_map.1 hw
      exact Worker.stage_stop (ih.1 v hv)
    | create | post | run => exact List.forall_mem_nil _

theorem moves_after {acts : List Act} (hf : ∀ a ∈ acts, a.IsFair) :
    ∃ l, Upkeep [] l ((after config npcField provide acts).roster.staff ++
        dismissed config npcField provide acts) ∧
      ∀ c : Tally, (after config npcField provide acts).counters.get c.counter =
        UInt64.ofInt (c.counter.balance l) := by
  induction acts with
  | nil => exact ⟨[], .refl [], fun c => by rcases c with _ | _ | _ <;> rfl⟩
  | cons a past ih =>
    obtain ⟨ha, hpast⟩ := List.forall_mem_cons.1 hf
    obtain ⟨l, hl, hcounters⟩ := ih hpast
    obtain ⟨m, hm, hmoved⟩ := (after config npcField provide past).moves_act ha
    refine ⟨l ++ m, ?_, fun c => ?_⟩
    · have hall := hl.trans (hm.frame (dismissed config npcField provide past))
      rwa [List.append_assoc] at hall
    · rw [after, hmoved, hcounters, ← UInt64.ofInt_add, ← Counter.balance_append]

/-- Whatever was done: one counter shows how many fields there are, and is back at nothing once all
are stopped. The other two show the populations of all fields that there ever were, as they are or
as they were left: they are not back at nothing unless all fields that were stopped were empty. -/
theorem stopped_fields_stay_counted {acts : List Act} (hf : ∀ a ∈ acts, a.IsFair)
    (hr : ∀ w ∈ (after config npcField provide acts).roster.staff ++
      dismissed config npcField provide acts, w.field.herd.size ≤ Herd.room) :
    let s := after config npcField provide acts
    let ever := s.roster.staff ++ dismissed config npcField provide acts
    s.counters.get .fieldsActive = UInt64.ofNat s.roster.size ∧
    s.counters.get .playersActive = UInt64.ofNat (ever.map (·.field.players.size)).sum ∧
    s.counters.get .npcsAlive = UInt64.ofNat (ever.map (·.field.herd.alive)).sum ∧
    ∀ past, acts = .stopAll :: past → s.roster.staff = [] ∧ s.roster.size = 0 := by
  intro s ever
  obtain ⟨l, hl, hcounters⟩ := moves_after config npcField provide hf
  obtain ⟨hrunning, hstopped⟩ := stages_after config npcField provide acts
  have hshown : ∀ c : Tally, s.counters.get c.counter = UInt64.ofNat (c.total ever) := by
    intro c
    have hb := hl.balance_eq (List.forall_mem_nil _) hr (List.forall_mem_nil _) c
    have hempty : c.total ([] : List (Worker Unit)) = 0 := rfl
    rw [hcounters, hb, hempty, Int.natCast_zero, Int.sub_zero, Tally.ofInt_natCast]
  have hactive : Tally.activity.total ever = s.roster.size := by
    rw [Tally.total_append, Tally.total_of_running hrunning, Tally.total_of_stopped hstopped,
      Roster.length_staff]
    rfl
  refine ⟨(hshown .activity).trans (congrArg UInt64.ofNat hactive), hshown (.within .players),
    hshown (.within .monsters), ?_⟩
  rintro past rfl
  have hroster : s.roster.workers = ∅ := by
    change ((after config npcField provide past).act .stopAll).roster.workers = ∅
    rw [act, stopAll, change, roster_foldl_perform]
    rfl
  rw [Roster.staff, Roster.size, hroster]
  exact ⟨rfl, rfl⟩

end History

def visit : List Act :=
  [.stopAll, .run, .post 1 (.enter ⟨7, "ada", ⟨1, 2⟩, Player.defaultVitals⟩), .create 1 .byId]

theorem stopped_fields_stay_counted_visit :
    let s := after {} 1000 (fun _ => .sessions) visit
    let ever := s.roster.staff ++ dismissed {} 1000 (fun _ => .sessions) visit
    (∀ a ∈ visit, a.IsFair) ∧ (∀ w ∈ ever, w.field.herd.size ≤ Herd.room) ∧ s.roster.size = 0 ∧
    s.counters.get .playersActive = UInt64.ofNat (ever.map (·.field.players.size)).sum := by
  intro s ever
  have hf : ∀ a ∈ visit, a.IsFair := by simp [visit, Act.IsFair, Message.IsFair]
  have hr : ∀ w ∈ ever, w.field.herd.size ≤ Herd.room := by decide +kernel
  obtain ⟨-, hplayers, -, hstop⟩ := stopped_fields_stay_counted {} 1000 (fun _ => .sessions) hf hr
  exact ⟨hf, hr, (hstop _ rfl).2, hplayers⟩

/-- The player is counted for ever. -/
theorem player_outlasts_field :
    let s := after {} 1000 (fun _ => .sessions) visit
    s.roster.size = 0 ∧ s.counters.fieldsActive = 0 ∧ s.counters.playersActive = 1 := by
  decide +kernel

end Server
end Fieldwatch
