import Fieldwatch.Proofs.Roster.Lookup

/-! Which workers are registered, for how long, and what becomes of those that no longer are,
whatever several callers do at once. As long as nobody starts or stops a worker on his own
account, who takes it out of the table is the only one to stop it; so it is stopped once that
caller is done. -/

namespace Fieldwatch

variable {κ : Type}

namespace Tenure

def Fresh (t : Tenure κ Unit) : Prop := t.asked = false ∧ ∀ k, t.calls k = none

end Tenure

/-- How far a worker of era `e` with badge `i` has come, as long as only its dismissal stops it. -/
inductive Duty (era : Nat) (errands : κ → Option Errand) (i e : Nat) (t : Tenure κ Unit) : Prop
  | held (he : e = era) (hf : t.Fresh)
  | listed {k : κ} {todo : List Nat} (hk : errands k = some (.dismiss e todo)) (hi : i ∈ todo)
      (hf : t.Fresh)
  | called {k : κ} {todo : List Nat} (hk : errands k = some (.dismiss e todo)) (hi : i ∉ todo)
      (ha : t.asked = true) (ho : ∀ k' ≠ k, t.calls k' = none)
  | gone (he : e < era) (hk : ∀ k todo, errands k ≠ some (.dismiss e todo)) (ha : t.asked = true)
      (ho : ∀ k, t.calls k = none)

section Duty

variable {era i e : Nat} {errands errands' : κ → Option Errand} {t t' : Tenure κ Unit}

theorem Duty.reassign (h : Duty era errands i e t)
    (hto : ∀ k todo, errands k = some (.dismiss e todo) →
      ∃ todo', errands' k = some (.dismiss e todo') ∧ (i ∈ todo' ↔ i ∈ todo))
    (hback : ∀ k todo', errands' k = some (.dismiss e todo') →
      ∃ todo, errands k = some (.dismiss e todo)) : Duty era errands' i e t := by
  cases h with
  | held he hf => exact .held he hf
  | listed hk hi hf =>
    obtain ⟨todo', hk', hiff⟩ := hto _ _ hk
    exact .listed hk' (hiff.2 hi) hf
  | called hk hi ha ho =>
    obtain ⟨todo', hk', hiff⟩ := hto _ _ hk
    exact .called hk' (fun hi' => hi (hiff.1 hi')) ha ho
  | gone he hno ha ho =>
    refine .gone he (fun k todo' hk' => ?_) ha ho
    obtain ⟨todo, hk⟩ := hback k todo' hk'
    exact hno k todo hk

theorem Duty.congr (h : Duty era errands i e t) (hd : ∀ k todo,
    errands' k = some (.dismiss e todo) ↔ errands k = some (.dismiss e todo)) :
    Duty era errands' i e t :=
  h.reassign (fun k todo hk => ⟨todo, (hd k todo).2 hk, Iff.rfl⟩)
    fun k todo hk => ⟨todo, (hd k todo).1 hk⟩

theorem Duty.keep (h : Duty era errands i e t) (ha : t'.asked = t.asked)
    (hc : ∀ k, t.calls k = none → t'.calls k = none) : Duty era errands i e t' := by
  cases h with
  | held he hf => exact .held he ⟨ha.trans hf.1, fun k => hc k (hf.2 k)⟩
  | listed hk hi hf => exact .listed hk hi ⟨ha.trans hf.1, fun k => hc k (hf.2 k)⟩
  | called hk hi hasked ho => exact .called hk hi (ha.trans hasked) fun k hne => hc k (ho k hne)
  | gone he hk hasked ho => exact .gone he hk (ha.trans hasked) fun k => hc k (ho k)

end Duty

namespace Office

def Undisturbed (s : Office κ) : Prop := ∀ (i : Nat) (t : Tenure κ Unit) (e : Nat) (id : FieldId),
  s.hired[i]? = some t → s.opened[i]? = some (e, id) → Duty s.era s.errands i e t

variable {s t : Office κ} {i : Nat}

theorem undisturbed_found (config : FieldConfig) (npcField : FieldId) :
    (found config npcField : Office κ).Undisturbed := by
  intro i t e id ht
  rw [found, List.getElem?_nil] at ht
  cases ht

theorem Undisturbed.create (h : s.Undisturbed) (hs : s.hired.length = s.opened.length)
    (id : FieldId) (enum : Enumeration) : (s.create id enum).Undisturbed := by
  by_cases hid : id ∈ s.table
  · rw [create_of_mem hid]
    exact h
  · rw [create_of_notMem hid]
    intro i t e id' ht he
    dsimp only at ht he ⊢
    rcases getElem?_concat_iff.1 ht with ht | ⟨rfl, rfl⟩
    · have hi := (List.getElem?_eq_some_iff.1 ht).1
      exact h i t e id' ht ((getElem?_concat_iff.1 he).resolve_right fun hlast => by omega)
    · rw [hs, List.getElem?_concat_length] at he
      cases he
      exact .held rfl ⟨rfl, fun _ => rfl⟩

theorem Undisturbed.place (h : s.Undisturbed) {u u' : Tenure κ Unit} (hu : s.hired[i]? = some u)
    (hd : ∀ e, Duty s.era s.errands i e u → Duty s.era s.errands i e u') :
    (s.place i u').Undisturbed := by
  intro j t e id ht he
  change (s.hired.set i u')[j]? = some t at ht
  rw [List.getElem?_set] at ht
  split at ht
  · next hij =>
    subst hij
    split at ht
    · cases ht
      exact hd e (h _ _ e id hu he)
    · cases ht
  · exact h j t e id ht he

variable [DecidableEq κ] {k : κ}

theorem Undisturbed.assign (h : s.Undisturbed) {c : Option Errand}
    (hs : ∀ e todo, s.errands k ≠ some (.dismiss e todo))
    (hc : ∀ e todo, c ≠ some (.dismiss e todo)) :
    (s.assign k c).Undisturbed := by
  intro i t e id ht he
  refine (h i t e id ht he).congr fun j todo => ?_
  change Function.update s.errands k c j = _ ↔ _
  by_cases hj : j = k
  · subst hj
    rw [Function.update_self]
    exact iff_of_false (hc e todo) (hs e todo)
  · rw [Function.update_of_ne hj]

theorem Undisturbed.drain (h : s.Undisturbed) (hs : s.Sound) (hk : s.errands k = none)
    {l : List Nat} (hl : l.Perm s.badges) :
    Undisturbed { s.assign k (some (.dismiss s.era l)) with table := ∅, era := s.era + 1 } := by
  have hself : Function.update s.errands k (some (.dismiss s.era l)) k =
      some (.dismiss s.era l) := Function.update_self ..
  have hother : ∀ {j e todo}, s.errands j = some (.dismiss e todo) →
      Function.update s.errands k (some (.dismiss s.era l)) j = some (.dismiss e todo) := by
    intro j e todo hj
    have hjk : j ≠ k := by
      rintro rfl
      cases hk.symm.trans hj
    rw [Function.update_of_ne hjk]
    exact hj
  intro i t e id ht he
  cases h i t e id ht he with
  | held heq hf =>
    subst heq
    exact .listed hself (hl.mem_iff.2 (hs.mem_badges.2 ⟨id, he⟩)) hf
  | listed hj hi hf => exact .listed (hother hj) hi hf
  | called hj hi ha ho => exact .called (hother hj) hi ha ho
  | gone hlt hno ha ho =>
    refine .gone (Nat.lt_succ_of_lt hlt) (fun j todo hj => ?_) ha ho
    rcases update_eq_some hj with ⟨rfl, ⟨⟩⟩ | ⟨-, hj⟩
    · exact Nat.lt_irrefl _ hlt
    · exact hno j todo hj

theorem Undisturbed.fresh_of_listed (h : s.Undisturbed) (hs : s.Sound) {e : Nat} {todo : List Nat}
    (hk : s.errands k = some (.dismiss e todo)) (hi : i ∈ todo) {u : Tenure κ Unit}
    (hu : s.hired[i]? = some u) : u.Fresh := by
  obtain ⟨he, -, htodo⟩ := hs.fits hk
  obtain ⟨id, hid⟩ := htodo i hi
  cases h i u e id hu hid with
  | held heq => exact (Nat.ne_of_lt he heq).elim
  | listed hj hi' hf => exact hf
  | called hj hi' =>
    cases hs.alone hj hk
    cases hj.symm.trans hk
    exact (hi' hi).elim
  | gone _ hno => exact (hno k _ hk).elim

theorem Undisturbed.dismiss (h : s.Undisturbed) (hs : s.Sound) {e : Nat} {todo : List Nat}
    {u : Tenure κ Unit} (hk : s.errands k = some (.dismiss e (i :: todo)))
    (hu : s.hired[i]? = some u) : Undisturbed
      ((s.place i { u.turn k (some .stop) with asked := true }).assign k
        (some (.dismiss e todo))) := by
  have hself : Function.update s.errands k (some (.dismiss e todo)) k =
      some (.dismiss e todo) := Function.update_self ..
  obtain ⟨-, hnodup, htodo⟩ := hs.fits hk
  obtain ⟨id, hid⟩ := htodo i List.mem_cons_self
  have hfresh := h.fresh_of_listed hs hk List.mem_cons_self hu
  intro j t e' id' ht he'
  change (s.hired.set i _)[j]? = some t at ht
  by_cases hij : i = j
  · subst hij
    have hlt := (List.getElem?_eq_some_iff.1 hu).1
    rw [List.getElem?_set, if_pos rfl, if_pos hlt] at ht
    cases ht
    cases he'.symm.trans hid
    exact .called hself (List.nodup_cons.1 hnodup).1 rfl fun k' hne =>
      (Function.update_of_ne hne ..).trans (hfresh.2 k')
  · rw [List.getElem?_set_ne hij] at ht
    have hmem : j ∈ todo ↔ j ∈ i :: todo := by
      rw [List.mem_cons]
      exact (or_iff_right (Ne.symm hij)).symm
    refine (h j t e' id' ht he').reassign (fun k' todo' hj => ?_) fun k' todo' hj => ?_
    · by_cases hkk : k' = k
      · subst hkk
        cases hj.symm.trans hk
        exact ⟨todo, hself, hmem⟩
      · exact ⟨todo', (Function.update_of_ne hkk ..).trans hj, Iff.rfl⟩
    · rcases update_eq_some hj with ⟨rfl, ⟨⟩⟩ | ⟨-, hj⟩
      · exact ⟨_, hk⟩
      · exact ⟨_, hj⟩

theorem Undisturbed.depart (h : s.Undisturbed) (hs : s.Sound) {e : Nat}
    (hk : s.errands k = some (.dismiss e [])) (hf : s.Free k) : (s.assign k none).Undisturbed := by
  have hother : ∀ {j e' todo}, e' ≠ e → (s.errands j = some (.dismiss e' todo) ↔
      Function.update s.errands k none j = some (.dismiss e' todo)) := by
    intro j e' todo hne
    by_cases hjk : j = k
    · subst hjk
      rw [Function.update_self, hk]
      exact iff_of_false (fun heq => hne (by cases heq; rfl)) nofun
    · rw [Function.update_of_ne hjk]
  intro i t e' id ht he'
  by_cases hee : e' = e
  · subst hee
    -- nobody else has called for these stops, and those of `k` are over
    have hlt : e' < s.era := (hs.fits hk).1
    have hnone : ∀ j todo, Function.update s.errands k none j ≠ some (.dismiss e' todo) := by
      intro j todo hj
      rcases update_eq_some hj with ⟨rfl, ⟨⟩⟩ | ⟨hjk, hj⟩
      exact hjk (hs.alone hj hk)
    cases h i t e' id ht he' with
    | held heq => exact (Nat.ne_of_lt hlt heq).elim
    | listed hj hi =>
      cases hs.alone hj hk
      cases hj.symm.trans hk
      cases hi
    | called hj hi ha ho =>
      cases hs.alone hj hk
      refine .gone hlt hnone ha fun k' => ?_
      by_cases hkk : k' = k
      · exact hkk ▸ hf t (List.mem_of_getElem? ht)
      · exact ho k' hkk
    | gone _ hno => exact (hno k [] hk).elim
  · exact (h i t e' id ht he').congr fun j todo => (hother hee).symm

theorem Undisturbed.step {direct : Prop} {inside : Nat → κ → Prop} (h : s.Undisturbed)
    (hs : s.Sound) (hn : ¬ direct) (hst : Step direct inside s t) : t.Undisturbed := by
  have hkeep : ∀ {i u u'}, s.hired[i]? = some u → u'.asked = u.asked →
      (∀ k, u.calls k = none → u'.calls k = none) → (s.place i u').Undisturbed := by
    intro i u u' hu ha hc
    exact h.place hu fun e hd => hd.keep ha hc
  cases hst with
  | create id enum => exact h.create hs.length_eq id enum
  | look hk | survey hk => exact h.assign (fun e todo hj => by cases hk.symm.trans hj) nofun
  | visit hk | leave hk => exact h.assign (fun e todo hj => by cases hk.symm.trans hj) nofun
  | @deliver k id m i t hk ht =>
    have hpushed : (s.place i (t.push m)).Undisturbed := hkeep ht rfl fun _ hc => hc
    exact hpushed.assign (fun e todo hj => by cases hk.symm.trans hj) nofun
  | drain hk hl => exact h.drain hs hk hl
  | dismiss hk hf ht ha => exact h.dismiss hs hk ht
  | depart hk hf => exact h.depart hs hk hf
  | work ht hst hd =>
    have hbegun := hd.resolve_left hn
    exact hkeep ht (hst.asked_eq hbegun) hbegun

theorem Undisturbed.reaches {direct : Prop} {inside : Nat → κ → Prop} (h : s.Undisturbed)
    (hs : s.Sound) (hn : ¬ direct) (hst : Reaches direct inside s t) : t.Undisturbed := by
  induction hst with
  | refl => exact h
  | tail hsu hst ih => exact ih.step (hs.reaches hsu) hn hst

theorem Undisturbed.unasked (h : s.Undisturbed) (hs : s.Sound) {id : FieldId} {u : Tenure κ Unit}
    (hi : s.table[id]? = some i) (hu : s.hired[i]? = some u) : u.asked = false := by
  cases h i u s.era id hu ((hs.registered id i).1 hi) with
  | held _ hf => exact hf.1
  | listed hk | called hk => exact (Nat.lt_irrefl _ (hs.fits hk).1).elim
  | gone hlt => exact (Nat.lt_irrefl _ hlt).elim

theorem Undisturbed.stopped (h : s.Undisturbed) (hs : s.Sound) {e : Nat} {id : FieldId}
    (hi : s.opened[i]? = some (e, id)) (he : e < s.era)
    (hno : ∀ k todo, s.errands k ≠ some (.dismiss e todo)) :
    ∃ u, s.hired[i]? = some u ∧ u.id = id ∧ u.worker.stage = .stopped := by
  obtain ⟨u, hu, hid⟩ := hs.exists_hired hi
  have hsound := (hs.workers u (List.mem_of_getElem? hu)).1
  refine ⟨u, hu, hid, ?_⟩
  cases h i u e id hu hi with
  | held heq => exact (Nat.ne_of_lt he heq).elim
  | listed hk | called hk => exact (hno _ _ hk).elim
  | gone _ _ ha ho => exact (hsound.settled_of_quiet ho).2.1.2 ha

section Past

variable {direct : Prop} {inside : Nat → κ → Prop}

theorem Step.opened_prefix (hst : Step direct inside s t) : s.opened <+: t.opened := by
  cases hst with
  | create id =>
    by_cases hid : id ∈ s.table
    · rw [create_of_mem hid]
    · rw [create_of_notMem hid]
      exact List.prefix_append ..
  | look | deliver | survey | visit | leave | drain | dismiss | depart | work =>
    exact List.prefix_rfl

theorem Sound.registered_of_reaches (hs : s.Sound) (hst : Reaches direct inside s t)
    (he : t.era = s.era) {id : FieldId} (hi : s.table[id]? = some i) : t.table[id]? = some i := by
  have hprefix : s.opened <+: t.opened := by
    clear he
    induction hst with
    | refl => exact List.prefix_rfl
    | tail _ hst ih => exact ih.trans hst.opened_prefix
  obtain ⟨new, hnew⟩ := hprefix
  rw [(hs.reaches hst).registered, ← hnew, he]
  exact getElem?_append_of_some ((hs.registered id i).1 hi)

omit [DecidableEq κ] in
theorem exists_registered_create (s : Office κ) (id : FieldId) (enum : Enumeration) :
    ∃ i, (s.create id enum).table[id]? = some i := by
  by_cases hid : id ∈ s.table
  · rw [create_of_mem hid]
    exact Option.isSome_iff_exists.1 (Std.ExtTreeMap.mem_iff_isSome_getElem?.1 hid)
  · rw [create_of_notMem hid]
    exact ⟨_, Std.ExtTreeMap.getElem?_insert_self⟩

end Past

end Office
end Fieldwatch
