import Fieldwatch.Proofs.Worker.Course
import Fieldwatch.Roster

/-! The fields of a server while several callers use them at once. A worker that was handed out
stays the same worker for whoever has it, also when it is no longer registered; so workers go by
badges here, and the table has only the badge of a field. Creating and looking up a field is one
step each. What a caller does with the workers it has found, one after the other, are steps of its
own, between which others may do anything. -/

namespace Fieldwatch

variable {κ : Type}

inductive Errand where
  | deliver (id : FieldId) (m : Message Unit) (badge : Nat)
  | visit (roll : Std.ExtTreeMap FieldId Nat) (seen todo : List Nat)
  | dismiss (era : Nat) (todo : List Nat)

structure Office (κ : Type) where
  config : FieldConfig
  npcField : FieldId
  /-- Every worker that there ever was. Its badge is its place in this list. -/
  hired : List (Tenure κ Unit) := []
  table : Std.ExtTreeMap FieldId Nat := ∅
  errands : κ → Option Errand := fun _ => none
  era : Nat := 0
  wanted : List (Nat × FieldId) := []
  opened : List (Nat × FieldId) := []

namespace Office

def found (config : FieldConfig) (npcField : FieldId) : Office κ :=
  { config := config, npcField := npcField }

variable (s : Office κ)

def roster : Roster :=
  { config := s.config
    npcField := s.npcField
    workers := s.table.filterMap fun _ i => s.hired[i]?.map (·.worker) }

def badges : List Nat := s.table.toList.map Prod.snd

def hire (id : FieldId) (enum : Enumeration := .byId) : Tenure κ Unit :=
  (Tenure.init (s.roster.newField id enum).value s.config.queueCapacity).start

def create (id : FieldId) (enum : Enumeration := .byId) : Office κ :=
  if id ∈ s.table then { s with wanted := s.wanted ++ [(s.era, id)] }
  else { s with
    hired := s.hired ++ [s.hire id enum]
    table := s.table.insert id s.hired.length
    wanted := s.wanted ++ [(s.era, id)]
    opened := s.opened ++ [(s.era, id)] }

variable {s} {id : FieldId} {enum : Enumeration}

theorem create_of_mem (hid : id ∈ s.table) :
    s.create id enum = { s with wanted := s.wanted ++ [(s.era, id)] } := by
  rw [create, if_pos hid]

theorem create_of_notMem (hid : id ∉ s.table) : s.create id enum = { s with
    hired := s.hired ++ [s.hire id enum]
    table := s.table.insert id s.hired.length
    wanted := s.wanted ++ [(s.era, id)]
    opened := s.opened ++ [(s.era, id)] } := by
  rw [create, if_neg hid]

variable (s)

theorem era_create (id : FieldId) (enum : Enumeration) : (s.create id enum).era = s.era := by
  by_cases hid : id ∈ s.table
  · rw [create_of_mem hid]
  · rw [create_of_notMem hid]

def place (i : Nat) (t : Tenure κ Unit) : Office κ := { s with hired := s.hired.set i t }

def Free (k : κ) : Prop := ∀ t ∈ s.hired, t.calls k = none

variable [DecidableEq κ]

def assign (k : κ) (e : Option Errand) : Office κ :=
  { s with errands := Function.update s.errands k e }

/-- What may happen next. `inside i` are those callers who are the loop of worker `i`. Nobody starts
or stops a worker but who dismisses it, unless this may be done `direct`ly. -/
inductive Step (direct : Prop) (inside : Nat → κ → Prop) : Office κ → Office κ → Prop
  | create (s : Office κ) (id : FieldId) (enum : Enumeration) :
      Step direct inside s (s.create id enum)
  | look (s : Office κ) {k : κ} (hk : s.errands k = none) {id : FieldId} {i : Nat}
      (hi : s.table[id]? = some i) (m : Message Unit) :
      Step direct inside s (s.assign k (some (.deliver id m i)))
  | deliver (s : Office κ) {k : κ} {id : FieldId} {m : Message Unit} {i : Nat} {t : Tenure κ Unit}
      (hk : s.errands k = some (.deliver id m i)) (ht : s.hired[i]? = some t) :
      Step direct inside s ((s.place i (t.push m)).assign k none)
  | survey (s : Office κ) {k : κ} (hk : s.errands k = none) {l : List Nat} (hl : l.Perm s.badges) :
      Step direct inside s (s.assign k (some (.visit s.table [] l)))
  | visit (s : Office κ) {k : κ} {roll : Std.ExtTreeMap FieldId Nat} {seen todo : List Nat}
      {i : Nat} (hk : s.errands k = some (.visit roll seen (i :: todo))) :
      Step direct inside s (s.assign k (some (.visit roll (seen ++ [i]) todo)))
  | leave (s : Office κ) {k : κ} {roll : Std.ExtTreeMap FieldId Nat} {seen : List Nat}
      (hk : s.errands k = some (.visit roll seen [])) : Step direct inside s (s.assign k none)
  | drain (s : Office κ) {k : κ} (hk : s.errands k = none) {l : List Nat} (hl : l.Perm s.badges) :
      Step direct inside s
        { s.assign k (some (.dismiss s.era l)) with table := ∅, era := s.era + 1 }
  | dismiss (s : Office κ) {k : κ} {e i : Nat} {todo : List Nat} {t : Tenure κ Unit}
      (hk : s.errands k = some (.dismiss e (i :: todo))) (hf : s.Free k) (ht : s.hired[i]? = some t)
      (ha : t.MayAct (inside i) k) : Step direct inside s
        ((s.place i { t.turn k (some .stop) with asked := true }).assign k
          (some (.dismiss e todo)))
  | depart (s : Office κ) {k : κ} {e : Nat} (hk : s.errands k = some (.dismiss e []))
      (hf : s.Free k) : Step direct inside s (s.assign k none)
  | work (s : Office κ) {i : Nat} {t t' : Tenure κ Unit} {l : List Effect}
      (ht : s.hired[i]? = some t) (hst : t.Step (fun _ => True) (inside i) l t')
      (hd : direct ∨ ∀ k, t.calls k = none → t'.calls k = none) :
      Step direct inside s (s.place i t')

def Reaches (direct : Prop) (inside : Nat → κ → Prop) : Office κ → Office κ → Prop :=
  Relation.ReflTransGen (Step direct inside)

end Office

namespace Roster

variable (r : Roster) (id : FieldId) (enum : Enumeration)

theorem newField_value : (r.newField id enum).value.id = id ∧ (r.newField id enum).value.herd =
    if id = r.npcField then (Field.idle id r.config enum).herd.spawnAll ({} : SpawnGrid).cells
    else (Field.idle id r.config enum).herd := by
  unfold newField
  dsimp only
  split
  · have hordered : ({} : SpawnGrid).isOrdered = true := by decide +kernel
    unfold Field.populate Herd.populate
    rw [if_pos hordered]
    exact ⟨rfl, rfl⟩
  · exact ⟨rfl, rfl⟩

end Roster

theorem map_set_of_eq {α γ : Type} {f : α → γ} {l : List α} {n : Nat} {a c : α}
    (h : l[n]? = some a) (hf : f c = f a) : (l.set n c).map f = l.map f := by
  obtain ⟨hlt, rfl⟩ := List.getElem?_eq_some_iff.1 h
  calc (l.set n c).map f = (l.set n l[n]).map f := by rw [List.map_set, List.map_set, hf]
    _ = l.map f := by rw [List.set_getElem_self]

def Errand.Fits (opened : List (Nat × FieldId)) (era : Nat) : Errand → Prop
  | .deliver id _ i => ∃ e, opened[i]? = some (e, id)
  | .visit roll seen todo => (seen ++ todo).Perm (roll.toList.map Prod.snd) ∧ (seen ++ todo).Nodup ∧
      ∀ i ∈ seen ++ todo, i < opened.length
  | .dismiss e todo => e < era ∧ todo.Nodup ∧ ∀ i ∈ todo, ∃ id, opened[i]? = some (e, id)

theorem Errand.Fits.append {opened : List (Nat × FieldId)} {era : Nat} {e : Errand}
    (h : e.Fits opened era) (x : Nat × FieldId) : e.Fits (opened ++ [x]) era := by
  cases e with
  | deliver id m i =>
    obtain ⟨e, hi⟩ := h
    exact ⟨e, getElem?_append_of_some hi⟩
  | visit roll seen todo =>
    refine ⟨h.1, h.2.1, fun i hi => ?_⟩
    rw [List.length_append]
    exact Nat.lt_add_right _ (h.2.2 i hi)
  | dismiss e todo =>
    refine ⟨h.1, h.2.1, fun i hi => ?_⟩
    obtain ⟨id, hid⟩ := h.2.2 i hi
    exact ⟨id, getElem?_append_of_some hid⟩

theorem Errand.Fits.mono {opened : List (Nat × FieldId)} {era era' : Nat} {e : Errand}
    (h : e.Fits opened era) (hle : era ≤ era') : e.Fits opened era' := by
  cases e with
  | deliver | visit => exact h
  | dismiss => exact ⟨Nat.lt_of_lt_of_le h.1 hle, h.2⟩

namespace Office

variable {s t : Office κ}

/-- What holds at any time. The table lists the workers of the present era. -/
structure Sound [DecidableEq κ] (s : Office κ) : Prop where
  workers : ∀ t ∈ s.hired, t.Sound (fun _ => True) ∧ t.spawned = 1
  ids : s.hired.map (·.id) = s.opened.map Prod.snd
  once : s.opened.Nodup
  asked : ∀ x, x ∈ s.wanted ↔ x ∈ s.opened
  registered : ∀ (id : FieldId) (i : Nat), s.table[id]? = some i ↔ s.opened[i]? = some (s.era, id)
  past : ∀ x ∈ s.opened, x.1 ≤ s.era
  fits : ∀ {k e}, s.errands k = some e → e.Fits s.opened s.era
  alone : ∀ {k k' e todo todo'}, s.errands k = some (.dismiss e todo) →
    s.errands k' = some (.dismiss e todo') → k = k'

section Sound

variable [DecidableEq κ] {k : κ} {i : Nat} {id : FieldId}

theorem sound_found (config : FieldConfig) (npcField : FieldId) :
    (found config npcField : Office κ).Sound where
  workers := List.forall_mem_nil _
  ids := rfl
  once := List.nodup_nil
  asked _ := Iff.rfl
  registered id i := by simp [found]
  past := List.forall_mem_nil _
  fits := nofun
  alone := nofun

theorem Sound.exists_hired (h : s.Sound) {x : Nat × FieldId} (hx : s.opened[i]? = some x) :
    ∃ t, s.hired[i]? = some t ∧ t.id = x.2 := by
  have hid : (s.hired.map (·.id))[i]? = some x.2 := by rw [h.ids, List.getElem?_map, hx]; rfl
  rw [List.getElem?_map] at hid
  exact Option.map_eq_some_iff.1 hid

theorem Sound.length_eq (h : s.Sound) : s.hired.length = s.opened.length := by
  have hlength := congrArg List.length h.ids
  rwa [List.length_map, List.length_map] at hlength

theorem Sound.mem_badges (h : s.Sound) : i ∈ s.badges ↔ ∃ id, s.opened[i]? = some (s.era, id) := by
  rw [badges, List.mem_map]
  constructor
  · rintro ⟨⟨id, j⟩, hj, rfl⟩
    rw [Std.ExtTreeMap.mem_toList_iff_getElem?_eq_some] at hj
    exact ⟨id, (h.registered id j).1 hj⟩
  · rintro ⟨id, hid⟩
    have hi := (h.registered id i).2 hid
    exact ⟨(id, i), Std.ExtTreeMap.mem_toList_iff_getElem?_eq_some.2 hi, rfl⟩

theorem Sound.nodup_badges (h : s.Sound) : s.badges.Nodup := by
  refine List.pairwise_map.2 ?_
  refine s.table.distinct_keys_toList.imp_of_mem ?_
  rintro ⟨a, i⟩ ⟨b, j⟩ ha hb hne (rfl : i = j)
  rw [Std.ExtTreeMap.mem_toList_iff_getElem?_eq_some] at ha hb
  have hab := ((h.registered a i).1 ha).symm.trans ((h.registered b i).1 hb)
  have heq : a = b := congrArg (fun x : Option (Nat × FieldId) => (x.getD (0, a)).2) hab
  exact hne (heq ▸ Std.ReflCmp.compare_self)

theorem Sound.place (h : s.Sound) {t t' : Tenure κ Unit} (ht : s.hired[i]? = some t)
    (hs : t'.Sound fun _ => True) (hspawned : t'.spawned = 1) (hid : t'.id = t.id) :
    (s.place i t').Sound := by
  refine ⟨fun u hu => ?_, ?_, h.once, h.asked, h.registered, h.past, h.fits, h.alone⟩
  · rcases List.mem_or_eq_of_mem_set hu with hu | rfl
    · exact h.workers u hu
    · exact ⟨hs, hspawned⟩
  · exact (map_set_of_eq ht hid).trans h.ids

theorem Sound.assign (h : s.Sound) {c : Option Errand}
    (hc : ∀ e, c = some e → e.Fits s.opened s.era)
    (hd : ∀ e todo, c = some (.dismiss e todo) →
      ∀ k' todo', s.errands k' = some (.dismiss e todo') → k' = k) : (s.assign k c).Sound := by
  refine ⟨h.workers, h.ids, h.once, h.asked, h.registered, h.past, fun {j e} hj => ?_,
    fun {j j' e todo todo'} hj hj' => ?_⟩
  · change Function.update s.errands k c j = some e at hj
    rcases update_eq_some hj with ⟨rfl, hnew⟩ | ⟨-, hj⟩
    · exact hc e hnew
    · exact h.fits hj
  · change Function.update s.errands k c j = _ at hj
    change Function.update s.errands k c j' = _ at hj'
    rcases update_eq_some hj with ⟨rfl, hnew⟩ | ⟨-, hold⟩
    · rcases update_eq_some hj' with ⟨rfl, -⟩ | ⟨-, hold'⟩
      · rfl
      · exact (hd e todo hnew j' todo' hold').symm
    · rcases update_eq_some hj' with ⟨rfl, hnew⟩ | ⟨-, hold'⟩
      · exact hd e todo' hnew j todo hold
      · exact h.alone hold hold'

theorem Sound.mem_opened (h : s.Sound) : id ∈ s.table ↔ (s.era, id) ∈ s.opened := by
  rw [Std.ExtTreeMap.mem_iff_isSome_getElem?, Option.isSome_iff_exists, List.mem_iff_getElem?]
  exact exists_congr (h.registered id)

omit [DecidableEq κ] in
theorem registered_append {table : Std.ExtTreeMap FieldId Nat} {opened : List (Nat × FieldId)}
    {era : Nat} (h : ∀ (id : FieldId) (i : Nat), table[id]? = some i ↔ opened[i]? = some (era, id))
    (hnew : (era, id) ∉ opened) (id' : FieldId) (i : Nat) :
    (table.insert id opened.length)[id']? = some i ↔
      (opened ++ [(era, id)])[i]? = some (era, id') := by
  rw [Std.ExtTreeMap.getElem?_insert, getElem?_concat_iff]
  by_cases hid : id = id'
  · subst hid
    rw [if_pos Std.ReflCmp.compare_self]
    constructor
    · exact fun hlen => .inr ⟨(Option.some.inj hlen).symm, rfl⟩
    · rintro (hold | ⟨rfl, -⟩)
      · exact (hnew (List.mem_of_getElem? hold)).elim
      · rfl
  · rw [if_neg fun heq => hid (Std.LawfulEqCmp.eq_of_compare heq), h]
    exact (or_iff_left fun hlast => hid (Prod.mk.inj hlast.2).2).symm

theorem Sound.create (h : s.Sound) (id : FieldId) (enum : Enumeration) : (s.create id enum).Sound := by
  by_cases hid : id ∈ s.table
  · rw [create_of_mem hid]
    refine ⟨h.workers, h.ids, h.once, fun x => ?_, h.registered, h.past, h.fits, h.alone⟩
    have hopened := h.mem_opened.1 hid
    rw [List.mem_append, h.asked, List.mem_singleton]
    exact or_iff_left_of_imp fun hx => hx ▸ hopened
  · have hnew : (s.era, id) ∉ s.opened := fun hx => hid (h.mem_opened.2 hx)
    rw [create_of_notMem hid]
    refine ⟨?_, ?_, ?_, fun x => ?_, fun id' i => ?_, ?_, fun hk => (h.fits hk).append _, h.alone⟩
    · refine List.forall_mem_append.2 ⟨h.workers, List.forall_mem_singleton.2 ⟨?_, rfl⟩⟩
      exact Tenure.sound_start_init _ _ _
    · have hfield : (s.hire id enum).id = id := (s.roster.newField_value id enum).1
      rw [List.map_append, List.map_append, h.ids, List.map_singleton, hfield]
      rfl
    · exact List.nodup_append.2 ⟨h.once, List.nodup_singleton _, fun x hx y hy hxy =>
        hnew (List.mem_singleton.1 hy ▸ hxy ▸ hx)⟩
    · rw [List.mem_append, List.mem_append, h.asked]
    · rw [h.length_eq]
      exact registered_append h.registered hnew id' i
    · exact List.forall_mem_append.2 ⟨h.past, List.forall_mem_singleton.2 (Nat.le_refl _)⟩

theorem Sound.vacate (h : s.Sound) : Sound { s with table := ∅, era := s.era + 1 } where
  workers := h.workers
  ids := h.ids
  once := h.once
  asked := h.asked
  registered id i := by
    refine iff_of_false (by simp) fun hi => ?_
    exact Nat.not_succ_le_self _ (h.past _ (List.mem_of_getElem? hi))
  past x hx := Nat.le_succ_of_le (h.past x hx)
  fits hk := (h.fits hk).mono (Nat.le_succ _)
  alone := h.alone

theorem Sound.step {direct : Prop} {inside : Nat → κ → Prop} (h : s.Sound)
    (hst : Step direct inside s t) : t.Sound := by
  cases hst with
  | create id enum => exact h.create id enum
  | look hk hi m =>
    refine h.assign ?_ nofun
    rintro _ ⟨⟩
    exact ⟨s.era, (h.registered _ _).1 hi⟩
  | deliver hk ht =>
    obtain ⟨hsound, hspawned⟩ := h.workers _ (List.mem_of_getElem? ht)
    exact (h.place ht (hsound.push trivial) hspawned rfl).assign nofun nofun
  | survey hk hl =>
    refine h.assign ?_ nofun
    rintro _ ⟨⟩
    refine ⟨hl, hl.nodup_iff.2 h.nodup_badges, fun i hi => ?_⟩
    obtain ⟨id, hid⟩ := h.mem_badges.1 (hl.mem_iff.1 hi)
    exact (List.getElem?_eq_some_iff.1 hid).1
  | visit hk =>
    have hfits := h.fits hk
    refine h.assign ?_ nofun
    rintro _ ⟨⟩
    rw [Errand.Fits, List.append_assoc]
    exact hfits
  | leave hk | depart hk => exact h.assign nofun nofun
  | drain hk hl =>
    refine h.vacate.assign ?_ ?_
    · rintro _ ⟨⟩
      exact ⟨Nat.lt_succ_self _, hl.nodup_iff.2 h.nodup_badges,
        fun i hi => h.mem_badges.1 (hl.mem_iff.1 hi)⟩
    · -- whoever dismisses workers does so for an era that is over
      rintro _ _ ⟨⟩ k' todo' hk'
      exact (Nat.lt_irrefl _ (h.fits hk').1).elim
  | dismiss hk hf ht ha =>
    obtain ⟨hsound, hspawned⟩ := h.workers _ (List.mem_of_getElem? ht)
    have hcall := hsound.callStop (hf _ (List.mem_of_getElem? ht))
    obtain ⟨he, hnodup, htodo⟩ := h.fits hk
    refine (h.place ht hcall hspawned rfl).assign ?_ ?_
    · rintro _ ⟨⟩
      exact ⟨he, hnodup.of_cons, fun i hi => htodo i (List.mem_cons_of_mem _ hi)⟩
    · rintro _ _ ⟨⟩ k' todo' hk'
      exact h.alone hk' hk
  | work ht hst =>
    obtain ⟨hsound, hspawned⟩ := h.workers _ (List.mem_of_getElem? ht)
    have hsound' := hsound.step hst
    refine h.place ht hsound' (Nat.le_antisymm hsound'.spawned_le ?_) hst.id_eq
    exact hspawned ▸ hst.spawned_le

theorem Sound.reaches {direct : Prop} {inside : Nat → κ → Prop} (h : s.Sound)
    (hst : Reaches direct inside s t) : t.Sound := by
  induction hst with
  | refl => exact h
  | tail _ hst ih => exact ih.step hst

end Sound

end Office
end Fieldwatch
