import Fieldwatch.Interest.Audience
import Fieldwatch.Proofs.Interest.Telling

/-! An audience hears nothing but deliveries. Whether a player belongs to those who see a subject is
decided by the last thing that it was told of the subject. -/

namespace Fieldwatch.Interest.Audience

variable (x : Audience) (p q s : EntityId)

def hear (ds : List Delivery) : Audience := ds.foldl (fun x d => x.observe d.watcher d.sighting) x

theorem of_observe (g : Sighting) : (x.observe p g).of s =
    if s = g.subject then
      if g.kind = .leave then (x.of s).filter (· ≠ p)
      else if p ∈ x.of s then x.of s else x.of s ++ [p]
    else x.of s := by
  by_cases hs : s = g.subject
  · subst hs
    cases hk : g.kind <;> by_cases hp : p ∈ x.of g.subject <;> simp [observe, hk, hp, of_put]
  · cases hk : g.kind <;> by_cases hp : p ∈ x.of g.subject <;>
      simp [observe, hk, hp, of_put, hs, Ne.symm hs]

theorem mem_of_observe (g : Sighting) : q ∈ (x.observe p g).of s ↔
    if p = q ∧ g.subject = s then g.kind ≠ .leave else q ∈ x.of s := by
  rw [of_observe]
  by_cases hs : s = g.subject
  · subst hs
    by_cases hk : g.kind = .leave <;> by_cases hq : p = q
    · simp [hk, hq]
    · simp [hk, hq, Ne.symm hq]
    · subst hq
      by_cases hp : p ∈ x.of g.subject <;> simp [hk, hp]
    · by_cases hp : p ∈ x.of g.subject <;> simp [hk, hp, hq, Ne.symm hq]
  · simp [hs, Ne.symm hs]

theorem nodup_of_observe (g : Sighting) (h : (x.of s).Nodup) : ((x.observe p g).of s).Nodup := by
  rw [of_observe]
  split
  · split
    · exact h.filter _
    · split
      · exact h
      · next hp =>
        refine List.nodup_append.2 ⟨h, List.pairwise_singleton .., ?_⟩
        intro a ha b hb hab
        exact hp (List.mem_singleton.1 hb ▸ hab ▸ ha)
  · exact h

def NoEmpty : Prop := ∀ s ∈ x.table, x.of s ≠ []

variable {x}

theorem mem_table_put {list : List EntityId} {t : EntityId} :
    t ∈ (x.put s list).table ↔ if s = t then list ≠ [] else t ∈ x.table := by
  unfold put
  by_cases hl : list = [] <;> by_cases hs : s = t <;> simp [hl, hs]

theorem NoEmpty.put (h : x.NoEmpty) (list : List EntityId) : (x.put s list).NoEmpty := by
  intro t ht
  rw [mem_table_put] at ht
  rw [of_put]
  split at ht
  · next hs => simpa [hs] using ht
  · next hs => simpa [hs] using h t ht

theorem NoEmpty.observe (h : x.NoEmpty) (g : Sighting) : (x.observe p g).NoEmpty := by
  unfold Audience.observe
  split
  · exact h.put _ _
  · split
    · exact h
    · exact h.put _ _

theorem noEmpty_forget : (x.forget p).NoEmpty := by
  intro s hs
  obtain ⟨list, hl⟩ := IdMap.mem_iff_exists.1 hs
  have hof : (x.forget p).of s = list := by simp [of, Std.ExtTreeMap.getD_eq_getD_getElem?, hl]
  rw [hof]
  simp only [forget, Std.ExtTreeMap.getElem?_filterMap'] at hl
  obtain ⟨old, -, hl⟩ := Option.bind_eq_some_iff.1 hl
  split at hl
  · cases hl
  · next hne =>
    cases hl
    simpa using hne

theorem mem_of_hear (ds : List Delivery) : p ∈ (x.hear ds).of s ↔
    match (told ds p s).getLast? with
    | some g => g.kind ≠ .leave
    | none => p ∈ x.of s := by
  induction ds generalizing x with
  | nil => rfl
  | cons d ds ih =>
    have hd : x.hear (d :: ds) = (x.observe d.watcher d.sighting).hear ds := rfl
    rw [hd, ih, told_cons, mem_of_observe]
    by_cases hm : d.watcher = p ∧ d.sighting.subject = s
    · rw [if_pos hm, if_pos hm, List.getLast?_cons]
      cases (told ds p s).getLast? <;> rfl
    · rw [if_neg hm, if_neg hm]

theorem nodup_of_hear (ds : List Delivery) (h : (x.of s).Nodup) : ((x.hear ds).of s).Nodup := by
  induction ds generalizing x with
  | nil => exact h
  | cons d ds ih => exact ih (nodup_of_observe x d.watcher s d.sighting h)

theorem NoEmpty.hear (h : x.NoEmpty) (ds : List Delivery) : (x.hear ds).NoEmpty := by
  induction ds generalizing x with
  | nil => exact h
  | cons d ds ih => exact ih (h.observe d.watcher d.sighting)

end Fieldwatch.Interest.Audience
