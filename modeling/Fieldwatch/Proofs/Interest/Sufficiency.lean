import Fieldwatch.Proofs.Interest.News

/-! What is told is enough. Whoever knows who saw whom before a change, and listens to what players
are told in it, knows who sees whom afterwards. The one exception is a player that is taken out: it
is told nothing, and sees nothing from then on. -/

namespace Fieldwatch.Interest.World

variable {w y : World} {p s id : EntityId} {e d : Entity}

/-- The last word on `s` says whether `p` sees it now; without a word nothing has changed. -/
def Conveys (w y : World) (p s : EntityId) (l : List Sighting) : Prop :=
  match l.getLast? with
  | some g => g.kind ≠ .leave ↔ y.sees p s
  | none => w.sees p s = y.sees p s

theorem conveys_viewNews (hm : y.sees p s → 1 ≤ y.multiplicity p s) :
    Conveys w y p s (w.viewNews y p s) := by
  unfold viewNews
  cases hw : w.sees p s <;> cases hy : y.sees p s
  · simp [Conveys, hw, hy]
  · have hk : y.multiplicity p s ≠ 0 := Nat.one_le_iff_ne_zero.1 (hm hy)
    simp [Conveys, hy, List.getLast?_replicate, hk]
  · simp [Conveys, hy]
  · simp [Conveys, hw, hy]

theorem conveys_moveNews (pos : Vec2) : Conveys w y p s (w.moveNews y p s pos) := by
  unfold moveNews
  cases hw : w.sees p s <;> cases hy : y.sees p s <;> simp [Conveys, hw, hy]

theorem conveys_nil (h : w.sees p s = y.sees p s) : Conveys w y p s [] := h

theorem sees_remove_of_ne (hp : p ≠ id) (hs : s ≠ id) :
    w.sees p s = (w.remove id).value.sees p s := by
  apply sees_congr <;> simp [entities_remove, hp, hs]

theorem sees_remove_self (h : p = id ∨ s = id) : (w.remove id).value.sees p s = false := by
  apply sees_of_none
  rcases h with rfl | rfl
  · exact .inl (by simp [entities_remove])
  · exact .inr (by simp [entities_remove])

/-- Fails for one that comes back: it has to forget what it saw before it went. -/
theorem conveys_add (h : w.Consistent) (hps : p ≠ s) (hid : w.entities[id]? = none)
    (isPlayer : Bool) (pos : Vec2) :
    Conveys w (w.add id isPlayer pos).value p s (told (w.add id isPlayer pos).log p s) := by
  have hy : (w.add id isPlayer pos).value.Consistent := h.apply (.add id isPlayer pos)
  rw [told_add h hps, news]
  by_cases hs : s = id
  · subst hs
    have hw : w.sees p s = false := sees_of_none (.inr hid)
    cases hv : (w.add s isPlayer pos).value.sees p s <;> simp [Conveys, hw, hv]
  · by_cases hp : p = id
    · subst hp
      -- one that was not there saw nothing, so that what it is shown is all it sees
      have hw : w.sees p s = false := sees_of_none (.inl hid)
      have hn := conveys_viewNews (w := w) (hy.one_le_multiplicity (p := p) (s := s))
      simpa [viewNews, hw, hs] using hn
    · have he : w.sees p s = (w.add id isPlayer pos).value.sees p s := by
        apply sees_congr <;> simp [entities_add, hp, hs]
      simpa [hs, hp] using conveys_nil he

theorem conveys_move (h : w.Consistent) (hps : p ≠ s) (pos : Vec2) :
    Conveys w (w.move id pos).value p s (told (w.move id pos).log p s) := by
  have hy : (w.move id pos).value.Consistent := h.apply (.move id pos)
  rw [told_move h hps, news]
  by_cases hs : s = id
  · rw [if_pos hs]
    exact conveys_moveNews pos
  · by_cases hp : p = id
    · rw [if_neg hs, if_pos hp]
      exact conveys_viewNews hy.one_le_multiplicity
    · rw [if_neg hs, if_neg hp]
      apply conveys_nil
      apply sees_congr <;> simp [entities_move, hp, hs]

theorem conveys_refresh (h : w.Consistent) (hps : p ≠ s) :
    Conveys w (w.refresh id).value p s (told (w.refresh id).log p s) := by
  rw [h.told_refresh hps]
  exact conveys_nil h.sees_refresh.symm

theorem conveys_setRadiusOf (h : w.Consistent) (hps : p ≠ s) (radius : Int) :
    Conveys w (w.setRadiusOf id radius).value p s (told (w.setRadiusOf id radius).log p s) := by
  have hy : (w.setRadiusOf id radius).value.Consistent := h.apply (.setRadiusOf id radius)
  rw [told_setRadiusOf h.linked hps]
  split
  · exact conveys_viewNews hy.one_le_multiplicity
  · next hp => exact conveys_nil (sees_setRadiusOf_of_ne hp radius).symm

theorem conveys_setRadius (h : w.Consistent) (hps : p ≠ s) (radius : Int) :
    Conveys w (w.setRadius radius).value p s (told (w.setRadius radius).log p s) := by
  have hy : (w.setRadius radius).value.Consistent := h.apply (.setRadius radius)
  rw [told_setRadius h.linked hps]
  exact conveys_viewNews hy.one_le_multiplicity

section Self

theorem told_surveys_same (h : w.Linked) (kind : SightingKind) (l : List Sector) :
    told (l.flatMap (w.survey id kind)) p p = [] := by
  induction l with
  | nil => rfl
  | cons c l ih =>
    rw [List.flatMap_cons, told_append, ih, told_survey w h]
    by_cases hp : p = id <;> simp [hp]

theorem told_announce_same (c : Sector) (about : Sighting) : told (w.announce c about) p p = [] := by
  simp [told_announce]

theorem told_refresh_same (h : w.Linked) : told (w.refresh id).log p p = [] := by
  unfold refresh
  split
  · rfl
  · split
    · simp [told_surveys_same h]
    · rfl

theorem told_remove_same : told (w.remove id).log p p = [] := by
  unfold remove
  split
  · rfl
  · exact told_announce_same ..

theorem told_add_same (h : w.Linked) (isPlayer : Bool) (pos : Vec2) :
    told (w.add id isPlayer pos).log p p = [] := by
  have hid : (w.remove id).value.entities[id]? = none := by simp [entities_remove]
  rw [log_add, told_append, told_append, told_remove_same,
    told_refresh_same ((h.remove id).placed hid isPlayer pos), told_announce_same]
  rfl

theorem told_move_same (h : w.Linked) (pos : Vec2) : told (w.move id pos).log p p =
    if p = id ∧ p ∈ w.players then [⟨.move, p, pos⟩] else [] := by
  cases hid : w.entities[id]? with
  | none =>
    have hn : ¬ (p = id ∧ p ∈ w.players) := by
      rintro ⟨rfl, hp⟩
      simp [mem_players, hid] at hp
    simp [move_of_none hid, hn]
  | some e =>
    have hself : told (if e.isPlayer then [⟨id, .move, id, pos⟩] else []) p p =
        if p = id ∧ p ∈ w.players then [⟨.move, p, pos⟩] else [] := by
      by_cases hp : p = id
      · subst hp
        by_cases he : e.isPlayer <;> simp [told_cons, mem_players, hid, he]
      · split <;> simp [told_cons, hp, Ne.symm hp]
    rw [log_move hid, told_append, told_append, told_announce_same, hself]
    split
    · rfl
    · simp [told_refresh_same (h.relocated hid pos), told_crossing]

theorem told_setRadiusOf_same (h : w.Linked) (radius : Int) :
    told (w.setRadiusOf id radius).log p p = [] := by
  by_cases hid : ∃ e, w.entities[id]? = some e ∧ e.isPlayer
  · obtain ⟨e, hid, he⟩ := hid
    rw [setRadiusOf_of_player hid he, told_refresh_same (h.retuned hid radius)]
  · rw [setRadiusOf_of_not_player fun e h' he => hid ⟨e, h', he⟩]
    rfl

theorem told_setRadius_same (h : w.Linked) (radius : Int) :
    told (w.setRadius radius).log p p = [] := by
  have key : ∀ (ids : List EntityId) (x : World), x.Linked →
      told (ids.foldlM (fun (w : World) id => w.setRadiusOf id radius) x).log p p = [] := by
    intro ids
    induction ids with
    | nil => intro x _; rfl
    | cons id ids ih =>
      intro x hx
      rw [List.foldlM_cons, Emit.log_bind, told_append, told_setRadiusOf_same hx,
        ih _ (hx.setRadiusOf id radius), List.append_nil]
  exact key w.players _ ⟨h.residents, h.watchers⟩

end Self

theorem mem_players_remove : p ∈ (w.remove id).value.players ↔ p ≠ id ∧ p ∈ w.players := by
  simp only [mem_players, entities_remove]
  by_cases hp : p = id <;> simp [hp]

theorem mem_players_add (isPlayer : Bool) (pos : Vec2) :
    p ∈ (w.add id isPlayer pos).value.players ↔
      if p = id then isPlayer = true else p ∈ w.players := by
  simp only [mem_players, entities_add]
  by_cases hp : p = id <;> simp [hp, Entity.newcomer]

theorem mem_players_move (pos : Vec2) : p ∈ (w.move id pos).value.players ↔ p ∈ w.players := by
  simp only [mem_players, entities_move]
  by_cases hp : p = id
  · cases h : w.entities[id]? <;> simp [hp, h]
  · simp [hp]

theorem mem_players_refresh : p ∈ (w.refresh id).value.players ↔ p ∈ w.players := by
  simp only [mem_players, entities_refresh]
  by_cases hp : p = id
  · cases h : w.entities[id]? <;> simp [hp, h]
  · simp [hp]

theorem mem_players_setRadiusOf (radius : Int) :
    p ∈ (w.setRadiusOf id radius).value.players ↔ p ∈ w.players := by
  simp only [mem_players, entities_setRadiusOf]
  by_cases hp : p = id
  · cases h : w.entities[id]? <;> simp [hp, h]
  · simp [hp]

end Fieldwatch.Interest.World
