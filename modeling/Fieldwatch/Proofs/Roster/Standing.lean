import Fieldwatch.Proofs.Roster.Registration

/-! What state the worker of a field is in that one gets on asking for the field. It runs, unless
somebody who had it has stopped it on his own account: then it stays the worker of its field, and
takes no message, until all workers are taken out. -/

namespace Fieldwatch

variable {κ : Type}

namespace Office

variable [DecidableEq κ] {direct : Prop} {inside : Nat → κ → Prop} {s t : Office κ} {i : Nat}
  {u : Tenure κ Unit}

theorem Step.worker (hst : Step direct inside s t) (hu : s.hired[i]? = some u) :
    ∃ u', t.hired[i]? = some u' ∧ u.Reaches (fun _ => True) (inside i) u' := by
  have hplace : ∀ {j v v'}, s.hired[j]? = some v → v.Reaches (fun _ => True) (inside j) v' →
      ∃ u', (s.hired.set j v')[i]? = some u' ∧ u.Reaches (fun _ => True) (inside i) u' := by
    intro j v v' hv hreaches
    rw [List.getElem?_set]
    by_cases hij : j = i
    · subst hij
      cases hu.symm.trans hv
      rw [if_pos rfl, if_pos (List.getElem?_eq_some_iff.1 hu).1]
      exact ⟨v', rfl, hreaches⟩
    · rw [if_neg hij]
      exact ⟨u, hu, .refl⟩
  cases hst with
  | create id =>
    by_cases hid : id ∈ s.table
    · rw [create_of_mem hid]
      exact ⟨u, hu, .refl⟩
    · rw [create_of_notMem hid]
      exact ⟨u, getElem?_append_of_some hu, .refl⟩
  | @deliver k id m j v hk hv => exact hplace hv (.single ⟨_, .push v (m := m) trivial⟩)
  | @dismiss k e j todo v hk hf hv ha =>
    exact hplace hv (.single ⟨_, .callStop v (hf v (List.mem_of_getElem? hv)) ha⟩)
  | work hv hst => exact hplace hv (.single ⟨_, hst⟩)
  | look | survey | visit | leave | drain | depart => exact ⟨u, hu, .refl⟩

theorem Reaches.worker (hst : Reaches direct inside s t) (hu : s.hired[i]? = some u) :
    ∃ u', t.hired[i]? = some u' ∧ u.Reaches (fun _ => True) (inside i) u' := by
  induction hst with
  | refl => exact ⟨u, hu, .refl⟩
  | tail _ hst ih =>
    obtain ⟨v, hv, huv⟩ := ih
    obtain ⟨w, hw, hvw⟩ := hst.worker hv
    exact ⟨w, hw, huv.trans hvw⟩

/-- Whatever is done with an office and with the workers one gets from it: the worker that one gets
for a field belongs to that field. If nobody has ever called for a stop of it, which is so unless
somebody does on his own account, it runs and takes any message that it has room for. If somebody
has, it is stopped once the calls are over. A worker that is being stopped or is stopped takes no
message, and is all the same the one that everybody gets for the field, until all workers are taken
out. -/
theorem worker_runs_unless_stopped (config : FieldConfig) (npcField : FieldId) (direct : Prop)
    (inside : Nat → κ → Prop) {s : Office κ} (h : (found config npcField).Reaches direct inside s)
    (id : FieldId) (enum : Enumeration) :
    ∃ i t, (s.create id enum).table[id]? = some i ∧ (s.create id enum).hired[i]? = some t ∧
      t.id = id ∧
      (t.asked = false → t.worker.stage = .running ∧
        ∀ m, t.worker.isFull = false → (t.worker.push m).value.1 = .ok ()) ∧
      (¬ direct → t.asked = false) ∧
      (t.asked = true → (∀ k, t.calls k = none) → t.worker.stage = .stopped) ∧
      (t.worker.stage = .stopping ∨ t.worker.stage = .stopped →
        ∀ u, (s.create id enum).Reaches direct inside u → u.era = s.era →
          u.table[id]? = some i ∧ ∃ t', u.hired[i]? = some t' ∧
            (t'.worker.stage = .stopping ∨ t'.worker.stage = .stopped) ∧
            ∀ m, (t'.worker.push m).value = (.error .stopped, t'.worker)) := by
  have hfound := sound_found (κ := κ) config npcField
  have hcreate : (found config npcField).Reaches direct inside (s.create id enum) :=
    h.tail (.create s id enum)
  have hs := hfound.reaches hcreate
  obtain ⟨i, hi⟩ := s.exists_registered_create id enum
  obtain ⟨t, ht, hid, -⟩ := hs.get?_of_registered hi
  obtain ⟨hsound, hspawned⟩ := hs.workers t (List.mem_of_getElem? ht)
  refine ⟨i, t, hi, ht, hid, fun ha => ?_, fun hn => ?_, fun ha hq => ?_, fun hlate u hu he => ?_⟩
  · have hrunning := hsound.running_of_unasked ha (hspawned ▸ Nat.one_ne_zero)
    refine ⟨hrunning, fun m hr => ?_⟩
    rw [Worker.push_of_room (hsound.coherent.closed_eq_false (.inr hrunning)) hr]
  · have hundisturbed := (undisturbed_found config npcField).reaches hfound hn hcreate
    exact hundisturbed.unasked hs hi ht
  · exact (hsound.settled_of_quiet hq).2.1.2 ha
  · obtain ⟨t', ht', hreaches⟩ := hu.worker ht
    obtain ⟨hlate', -⟩ := hreaches.late hlate
    exact ⟨hs.registered_of_reaches hu (he.trans (s.era_create id enum).symm) hi, t', ht', hlate',
      (hsound.reaches hreaches).push_of_late hlate'⟩

/-- A worker is stopped by somebody who got it, and the field is asked for again. -/
theorem worker_runs_unless_stopped_asked : ∃ s : Office Unit,
    (found {} 1000).Reaches True (fun _ _ => False) s ∧ ∃ t, (s.create 1).hired[0]? = some t ∧
      t.id = 1 ∧ t.worker.stage = .stopped := by
  have hrun : ∃ s : Office Unit, (found {} 1000).Reaches True (fun _ _ => False) s ∧
      (s.create 1).table[(1 : FieldId)]? = some 0 ∧ ∃ t, (s.create 1).hired[0]? = some t ∧
        t.asked = true ∧ ∀ k, t.calls k = none :=
    ⟨_,
      .head (.create _ 1 .byId) <|
      .head (.work (i := 0) _ rfl (.callStop (k := ()) _ rfl nofun) (.inl trivial)) <|
      .head (.work (i := 0) _ rfl (.close (k := ()) _ rfl nofun) (.inl trivial)) <|
      .head (.work (i := 0) _ rfl (.post (k := ()) _ rfl id rfl) (.inl trivial)) <|
      .head (.work (i := 0) _ rfl (.receive _ rfl (List.cons_ne_nil _ _)) (.inl trivial)) <|
      .head (.work (i := 0) _ rfl (.join (k := ()) _ rfl rfl) (.inl trivial)) <|
      .head (.work (i := 0) _ rfl (.retire (k := ()) _ rfl nofun) (.inl trivial)) <|
      .head (.work (i := 0) _ rfl (.settle (k := ()) _ rfl nofun) (.inl trivial)) .refl,
      rfl, _, rfl, rfl, fun _ => rfl⟩
  obtain ⟨s, hreaches, htable, t, ht, ha, hq⟩ := hrun
  obtain ⟨i, t', hi, ht', hid, -, -, hstopped, -⟩ :=
    worker_runs_unless_stopped _ _ _ _ hreaches 1 .byId
  cases htable.symm.trans hi
  cases ht.symm.trans ht'
  exact ⟨s, hreaches, t, ht, hid, hstopped ha hq⟩

end Office

namespace Roster

/-- It takes no message, with nothing in its mailbox. -/
theorem stopped_field_stays_registered :
    let r : Roster := { config := {}, npcField := 1000 }
    let again := (((r.create 1).value.stopField 1).value.create 1).value
    (again.get? 1).map (fun w => (w.stage, w.pending)) = some (.stopped, 0) ∧
    (again.post 1 (.leave 7)).value.1 = false := by
  decide +kernel

end Roster
end Fieldwatch
