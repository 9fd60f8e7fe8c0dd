import Fieldwatch.Proofs.Interest.Consistency

/-! What a change tells one player of one other entity. `told` picks that out of everything the
change announces, and `news` says what it has to be, from nothing but who sees whom before and
after. -/

namespace Fieldwatch.Interest

def told (log : List Delivery) (p s : EntityId) : List Sighting :=
  (log.filter fun d => d.watcher = p ∧ d.sighting.subject = s).map (·.sighting)

@[simp] theorem told_nil (p s : EntityId) : told [] p s = [] := rfl

theorem told_cons (d : Delivery) (log : List Delivery) (p s : EntityId) :
    told (d :: log) p s =
      if d.watcher = p ∧ d.sighting.subject = s then d.sighting :: told log p s
      else told log p s := by
  by_cases h : d.watcher = p ∧ d.sighting.subject = s <;> simp [told, h]

@[simp] theorem told_append (l m : List Delivery) (p s : EntityId) :
    told (l ++ m) p s = told l p s ++ told m p s := by simp [told]

theorem told_map_watchers {l : List EntityId} (hl : l.Nodup) (about : Sighting) (p s : EntityId) :
    told (l.map (⟨·, about⟩)) p s = if about.subject = s ∧ p ∈ l then [about] else [] := by
  induction l with
  | nil => simp
  | cons q l ih =>
    obtain ⟨hq, hl⟩ := List.nodup_cons.1 hl
    rw [List.map_cons, told_cons, ih hl]
    by_cases hp : q = p
    · subst hp
      by_cases hs : about.subject = s <;> simp [hs, hq]
    · simp [hp, Ne.symm hp]

theorem told_filterMap_subjects {l : List EntityId} (hl : l.Nodup) {f : EntityId → Option Delivery}
    (hf : ∀ {o d}, f o = some d → d.sighting.subject = o) (p s : EntityId) :
    told (l.filterMap f) p s = if s ∈ l then told (f s).toList p s else [] := by
  induction l with
  | nil => simp
  | cons o l ih =>
    obtain ⟨ho, hl⟩ := List.nodup_cons.1 hl
    have hcons : told ((o :: l).filterMap f) p s =
        told (f o).toList p s ++ told (l.filterMap f) p s := by
      cases h : f o <;> simp [h, ← told_append]
    rw [hcons, ih hl]
    by_cases hs : s = o
    · subst hs
      simp [ho]
    · have hno : told (f o).toList p s = [] := by
        cases h : f o with
        | none => rfl
        | some d => simp [told_cons, hf h, Ne.symm hs]
      simp [hs, hno]

theorem told_filter_watchers (q : EntityId → Bool) (l : List Delivery) (p s : EntityId) :
    told (l.filter (q ·.watcher)) p s = if q p then told l p s else [] := by
  induction l with
  | nil => simp
  | cons d l ih =>
    by_cases hd : d.watcher = p
    · subst hd
      cases hq : q d.watcher <;> simp_all [told_cons]
    · cases hq : q d.watcher <;> simp_all [told_cons]

theorem nodup_toList {α : Type} [Ord α] [Std.TransOrd α] [Std.LawfulEqOrd α]
    (t : Std.ExtTreeSet α) : t.toList.Nodup :=
  t.distinct_toList.imp fun h he => h (Std.LawfulEqCmp.compare_eq_iff_eq.2 he)

theorem count_filter_eq_ite {α : Type} [DecidableEq α] (q : α → Bool) (l : List α) (a : α) :
    (l.filter q).count a = if q a then l.count a else 0 := by
  split
  · next h => exact List.count_filter h
  · next h => exact List.count_eq_zero.2 fun hm => h (List.mem_filter.1 hm).2

namespace World

variable (w : World)

theorem told_announce (c : Sector) (about : Sighting) (p s : EntityId) :
    told (w.announce c about) p s =
      if about.subject = s ∧ p ≠ s ∧ p ∈ w.cells.watchers c then [about] else [] := by
  rw [announce, told_map_watchers ((nodup_toList _).filter _)]
  by_cases hs : about.subject = s
  · simp [hs, Std.ExtTreeSet.mem_toList, and_comm]
  · simp [hs]

theorem told_crossing (id : EntityId) (pos : Vec2) (old new : Sector) (p s : EntityId) :
    told (w.crossing id pos old new) p s =
      if id = s ∧ p ≠ s then
        (if p ∈ w.cells.watchers old ∧ p ∉ w.cells.watchers new then [⟨.leave, id, pos⟩] else []) ++
          if p ∈ w.cells.watchers new ∧ p ∉ w.cells.watchers old then [⟨.enter, id, pos⟩] else []
      else [] := by
  rw [crossing, told_append, told_filter_watchers (fun q => decide (q ∉ w.cells.watchers new)),
    told_filter_watchers (fun q => decide (q ∉ w.cells.watchers old)), told_announce, told_announce]
  by_cases ho : p ∈ w.cells.watchers old <;> by_cases hn : p ∈ w.cells.watchers new <;>
    simp [ho, hn]

theorem told_survey (h : w.Linked) (id : EntityId) (kind : SightingKind) (c : Sector)
    (p s : EntityId) :
    told (w.survey id kind c) p s =
      if p = id ∧ s ≠ id then
        match w.entities[s]? with
        | some d => if d.sector = c then [⟨kind, s, d.pos⟩] else []
        | none => []
      else [] := by
  rw [survey, told_filterMap_subjects ((nodup_toList _).filter _)]
  · have hr := h.residents s c
    cases hs : w.entities[s]? with
    | none => simp
    | some d =>
      have hr' : s ∈ w.cells.residents c ↔ d.sector = c := by simpa [hs] using hr
      by_cases hp : id = p
      · by_cases hi : s = id <;> by_cases hc : d.sector = c <;>
          simp [told_cons, Std.ExtTreeSet.mem_toList, hp, hi, hr', hc]
      · simp [told_cons, hp, Ne.symm hp]
  · intro o d hd
    obtain ⟨e, -, rfl⟩ := Option.map_eq_some_iff.1 hd
    rfl

theorem told_surveys (h : w.Linked) {s : EntityId} {d : Entity} (hs : w.entities[s]? = some d)
    {id : EntityId} (hi : s ≠ id) (kind : SightingKind) (l : List Sector) :
    told (l.flatMap (w.survey id kind)) id s =
      List.replicate (l.count d.sector) ⟨kind, s, d.pos⟩ := by
  induction l with
  | nil => rfl
  | cons c l ih =>
    rw [List.flatMap_cons, told_append, ih, told_survey w h]
    by_cases hc : d.sector = c
    · simp [hs, hi, hc, List.replicate_succ]
    · simp [hs, hi, hc, List.count_cons_of_ne (Ne.symm hc)]

theorem told_surveys_of_ne (h : w.Linked) (kind : SightingKind) {id p s : EntityId}
    (hn : p ≠ id ∨ w.entities[s]? = none) (l : List Sector) :
    told (l.flatMap (w.survey id kind)) p s = [] := by
  induction l with
  | nil => rfl
  | cons c l ih =>
    rw [List.flatMap_cons, told_append, ih, told_survey w h]
    rcases hn with hp | hs
    · simp [hp]
    · simp [hs]

end World
end Fieldwatch.Interest
