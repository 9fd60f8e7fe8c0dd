import Fieldwatch.Proofs.Interest.Change

/-! The three tables of a world tell one story. Where an entity stands is written down with the
entity and with its sector, and what a player sees is written down with the player and with every
sector it sees. `Linked` says that both copies of both facts agree; it holds between the parts of a
change too, when the view of a player lags behind its place. `Consistent` adds that no view lags
behind, and holds after every change. -/

namespace Fieldwatch.Interest

namespace Cells

variable (c : Cells) (id p : EntityId) (t : Sector)

theorem residents_foldl_enrol (l : List Sector) :
    (l.foldl (·.enrol id ·) c).residents t = c.residents t := by
  induction l generalizing c with
  | nil => rfl
  | cons s l ih => rw [List.foldl_cons, ih, residents_enrol]

theorem residents_foldl_dismiss (l : List Sector) :
    (l.foldl (·.dismiss id ·) c).residents t = c.residents t := by
  induction l generalizing c with
  | nil => rfl
  | cons s l ih => rw [List.foldl_cons, ih, residents_dismiss]

theorem mem_watchers_foldl_enrol (l : List Sector) :
    p ∈ (l.foldl (·.enrol id ·) c).watchers t ↔ p ∈ c.watchers t ∨ p = id ∧ t ∈ l := by
  induction l generalizing c with
  | nil => simp
  | cons s l ih =>
    rw [List.foldl_cons, ih, watchers_enrol]
    by_cases hs : s = t
    · subst hs
      simp only [if_true, Std.ExtTreeSet.mem_insert, Std.LawfulEqCmp.compare_eq_iff_eq,
        List.mem_cons, true_or, and_true]
      constructor
      · rintro ((rfl | h) | ⟨rfl, -⟩)
        · exact .inr rfl
        · exact .inl h
        · exact .inr rfl
      · rintro (h | rfl)
        · exact .inl (.inr h)
        · exact .inl (.inl rfl)
    · simp [hs, Ne.symm hs]

theorem mem_watchers_foldl_dismiss (l : List Sector) :
    p ∈ (l.foldl (·.dismiss id ·) c).watchers t ↔ p ∈ c.watchers t ∧ ¬ (p = id ∧ t ∈ l) := by
  induction l generalizing c with
  | nil => simp
  | cons s l ih =>
    rw [List.foldl_cons, ih, watchers_dismiss]
    by_cases hs : s = t
    · subst hs
      simp only [if_true, Std.ExtTreeSet.mem_erase, ne_eq, Std.LawfulEqCmp.compare_eq_iff_eq,
        List.mem_cons, true_or, and_true]
      constructor
      · rintro ⟨⟨hp, h⟩, -⟩
        exact ⟨h, fun h' => hp h'.symm⟩
      · rintro ⟨h, hp⟩
        exact ⟨⟨fun h' => hp h'.symm, h⟩, fun h' => hp h'.1⟩
    · simp [hs, Ne.symm hs]

end Cells

namespace Entity

structure Sound (g : Grid) (e : Entity) : Prop where
  sector_eq : e.sector = g.locate e.pos
  one_le_radius : e.isPlayer → 1 ≤ e.radius
  mem_view : ∀ c, c ∈ e.view ↔ e.isPlayer ∧ c ∈ e.sector.neighbourhood e.radius

variable {g : Grid} {e : Entity}

theorem Sound.of_refreshed (hs : e.sector = g.locate e.pos) (hr : e.isPlayer → 1 ≤ e.radius)
    (hv : ¬ e.isPlayer → ∀ c, c ∉ e.view) : e.refreshed.Sound g where
  sector_eq := by simpa using hs
  one_le_radius := by simpa using hr
  mem_view c := by
    rw [mem_view_refreshed]
    by_cases he : e.isPlayer
    · simp [he]
    · simp [he, hv he c]

theorem Sound.not_mem_view (h : e.Sound g) (he : ¬ e.isPlayer) (c : Sector) : c ∉ e.view :=
  fun hc => he ((h.mem_view c).1 hc).1

theorem Sound.refreshed (h : e.Sound g) : e.refreshed.Sound g :=
  .of_refreshed h.sector_eq h.one_le_radius h.not_mem_view

theorem Sound.view_eq (h : e.Sound g) (he : e.isPlayer) :
    e.view = Std.ExtTreeSet.ofList (e.sector.neighbourhood e.radius) :=
  Std.ExtTreeSet.ext_mem fun c => by simp [h.mem_view, he, Std.ExtTreeSet.mem_ofList]

theorem Sound.refreshed_eq (h : e.Sound g) : e.refreshed = e := by
  unfold Entity.refreshed
  split
  · next he => rw [← h.view_eq he]
  · rfl

theorem Sound.arrivedAt (h : e.Sound g) (pos : Vec2) : (e.arrivedAt g pos).Sound g := by
  unfold Entity.arrivedAt
  split
  · next hs =>
    refine ⟨rfl, h.one_le_radius, fun c => ?_⟩
    simpa only [movedTo, ← hs] using h.mem_view c
  · exact .of_refreshed rfl h.one_le_radius h.not_mem_view

theorem Sound.reaching (h : e.Sound g) (radius : Int) : (e.reaching radius).Sound g := by
  unfold Entity.reaching
  split
  · exact .of_refreshed h.sector_eq (fun _ => Int.le_max_right ..) h.not_mem_view
  · exact h

theorem sound_newcomer {w : World} (h : 1 ≤ w.radius) (isPlayer : Bool) (pos : Vec2) :
    (newcomer w isPlayer pos).refreshed.Sound w.grid :=
  .of_refreshed rfl (fun _ => h) (fun _ _ => by simp [newcomer])

end Entity

namespace World

/-- The table of sectors repeats the table of entities. -/
structure Linked (w : World) : Prop where
  residents : ∀ id c, id ∈ w.cells.residents c ↔ ∃ e, w.entities[id]? = some e ∧ e.sector = c
  watchers : ∀ id c, id ∈ w.cells.watchers c ↔ ∃ e, w.entities[id]? = some e ∧ c ∈ e.view

structure Consistent (w : World) : Prop where
  one_le_radius : 1 ≤ w.radius
  sound : ∀ (id : EntityId) (e : Entity), w.entities[id]? = some e → e.Sound w.grid
  linked : w.Linked

variable {w : World} {id : EntityId} {e : Entity}

theorem Linked.refresh (h : w.Linked) (id : EntityId) : (w.refresh id).value.Linked := by
  cases hid : w.entities[id]? with
  | none => simpa [World.refresh, hid] using h
  | some e =>
    cases he : e.isPlayer with
    | false => simpa [World.refresh, hid, he] using h
    | true =>
      have hw : ∀ c, id ∈ w.cells.watchers c ↔ c ∈ e.view := fun c => by simp [h.watchers, hid]
      constructor
      · intro j c
        rw [entities_refresh]
        simp only [World.refresh, hid, he, if_true, Cells.residents_foldl_enrol,
          Cells.residents_foldl_dismiss, h.residents]
        by_cases hj : j = id <;> simp [hj, hid]
      · intro j c
        rw [entities_refresh]
        simp only [World.refresh, hid, he, if_true, Cells.mem_watchers_foldl_enrol,
          Cells.mem_watchers_foldl_dismiss, List.mem_filter, Std.ExtTreeSet.mem_toList]
        by_cases hj : j = id
        · subst hj
          simp only [hw, hid]
          by_cases hc : c ∈ e.view <;>
            simp [hc, Std.ExtTreeSet.mem_ofList, Entity.mem_view_refreshed, he]
        · simp [hj, h.watchers]

theorem Linked.remove (h : w.Linked) (id : EntityId) : (w.remove id).value.Linked := by
  cases hid : w.entities[id]? with
  | none => simpa [World.remove, hid] using h
  | some e =>
    constructor
    · intro j c
      rw [entities_remove]
      simp only [World.remove, hid, Cells.residents_foldl_dismiss, Cells.residents_evict]
      by_cases hj : j = id
      · subst hj
        by_cases hc : e.sector = c <;> simp [hc, h.residents, hid]
      · by_cases hc : e.sector = c <;> simp [hj, Ne.symm hj, hc, h.residents]
    · intro j c
      rw [entities_remove]
      simp only [World.remove, hid, Cells.mem_watchers_foldl_dismiss, Cells.watchers_evict,
        Std.ExtTreeSet.mem_toList]
      by_cases hj : j = id
      · subst hj
        simp [h.watchers, hid]
      · simp [hj, h.watchers]

theorem Linked.placed (h : w.Linked) (hid : w.entities[id]? = none) (isPlayer : Bool)
    (pos : Vec2) : (w.placed id isPlayer pos).Linked := by
  constructor
  · intro j c
    rw [entities_placed]
    simp only [World.placed, Cells.residents_place]
    by_cases hj : j = id
    · subst hj
      by_cases hc : w.grid.locate pos = c <;> simp [Entity.newcomer, hc, h.residents, hid]
    · by_cases hc : w.grid.locate pos = c <;> simp [hj, Ne.symm hj, hc, h.residents]
  · intro j c
    rw [entities_placed]
    simp only [World.placed, Cells.watchers_place]
    by_cases hj : j = id
    · subst hj
      simp [Entity.newcomer, h.watchers, hid]
    · simp [hj, h.watchers]

theorem Linked.relocated (h : w.Linked) (hid : w.entities[id]? = some e) (pos : Vec2) :
    (w.relocated id e pos).Linked := by
  constructor
  · intro j c
    rw [entities_relocated hid]
    simp only [World.relocated]
    by_cases hs : e.sector = w.grid.locate pos
    · by_cases hj : j = id <;> simp [hj, hs, hid, h.residents, Entity.movedTo]
    · simp only [hs, if_false, Cells.residents_place, Cells.residents_evict]
      by_cases hj : j = id
      · subst hj
        by_cases hn : w.grid.locate pos = c
        · simp [hn, hid, Entity.movedTo]
        · by_cases ho : e.sector = c <;> simp [hn, ho, hid, h.residents, Entity.movedTo]
      · by_cases hn : w.grid.locate pos = c <;> by_cases ho : e.sector = c <;>
          simp_all [Ne.symm hj, h.residents]
  · intro j c
    rw [entities_relocated hid]
    have hw : (w.relocated id e pos).cells.watchers c = w.cells.watchers c := by
      simp only [World.relocated]
      split <;> simp only [Cells.watchers_place, Cells.watchers_evict]
    rw [hw, h.watchers]
    by_cases hj : j = id <;> simp [hj, hid, Entity.movedTo]

theorem Linked.retuned (h : w.Linked) (hid : w.entities[id]? = some e) (radius : Int) :
    (w.retuned id e radius).Linked := by
  constructor
  · intro j c
    rw [entities_retuned hid]
    by_cases hj : j = id <;> simp [hj, hid, World.retuned, h.residents, Entity.tuned]
  · intro j c
    rw [entities_retuned hid]
    by_cases hj : j = id <;> simp [hj, hid, World.retuned, h.watchers, Entity.tuned]

theorem Linked.add (h : w.Linked) (id : EntityId) (isPlayer : Bool) (pos : Vec2) :
    (w.add id isPlayer pos).value.Linked := by
  have hid : (w.remove id).value.entities[id]? = none := by simp [entities_remove]
  exact ((h.remove id).placed hid isPlayer pos).refresh id

theorem Linked.move (h : w.Linked) (id : EntityId) (pos : Vec2) : (w.move id pos).value.Linked := by
  cases hid : w.entities[id]? with
  | none => simpa [move_of_none hid] using h
  | some e =>
    rw [value_move hid]
    split
    · exact h.relocated hid pos
    · exact (h.relocated hid pos).refresh id

theorem Linked.setRadiusOf (h : w.Linked) (id : EntityId) (radius : Int) :
    (w.setRadiusOf id radius).value.Linked := by
  by_cases hid : ∃ e, w.entities[id]? = some e ∧ e.isPlayer
  · obtain ⟨e, hid, he⟩ := hid
    rw [setRadiusOf_of_player hid he]
    exact (h.retuned hid radius).refresh id
  · rw [setRadiusOf_of_not_player (fun e h' he => hid ⟨e, h', he⟩)]
    exact h

theorem Linked.reached (h : w.Linked) (radius : Int) (ids : List EntityId) :
    (w.reached radius ids).Linked := by
  induction ids generalizing w with
  | nil => exact h
  | cons id ids ih => exact ih (h.setRadiusOf id radius)

theorem Linked.setRadius (h : w.Linked) (radius : Int) : (w.setRadius radius).value.Linked := by
  rw [value_setRadius]
  have h' : World.Linked { w with radius := max radius 1 } := ⟨h.residents, h.watchers⟩
  exact h'.reached radius w.players

theorem Linked.apply (h : w.Linked) : ∀ c : Change, (w.apply c).value.Linked
  | .add id isPlayer pos => h.add id isPlayer pos
  | .remove id => h.remove id
  | .move id pos => h.move id pos
  | .refresh id => h.refresh id
  | .setRadiusOf id radius => h.setRadiusOf id radius
  | .setRadius radius => h.setRadius radius

@[simp] theorem grid_reached (w : World) (radius : Int) (ids : List EntityId) :
    (w.reached radius ids).grid = w.grid := by
  induction ids generalizing w with
  | nil => rfl
  | cons id ids ih => exact (ih _).trans (grid_setRadiusOf ..)

@[simp] theorem radius_reached (w : World) (radius : Int) (ids : List EntityId) :
    (w.reached radius ids).radius = w.radius := by
  induction ids generalizing w with
  | nil => rfl
  | cons id ids ih => exact (ih _).trans (radius_setRadiusOf ..)

theorem grid_apply (w : World) (c : Change) : (w.apply c).value.grid = w.grid := by
  cases c with
  | add id isPlayer pos => simp [apply, value_add, placed]
  | setRadius radius => simp [apply, value_setRadius]
  | _ => simp [apply]

theorem Consistent.sound_apply (h : w.Consistent) (c : Change) {j : EntityId}
    (hj : (w.apply c).value.entities[j]? = some e) : e.Sound w.grid := by
  -- every change but a fresh entry replaces an entity by one that is as sound
  have keep : ∀ {f : Entity → Entity}, (∀ e : Entity, e.Sound w.grid → (f e).Sound w.grid) →
      w.entities[j]?.map f = some e → e.Sound w.grid := by
    intro f hf hm
    obtain ⟨d, hd, rfl⟩ := Option.map_eq_some_iff.1 hm
    exact hf d (h.sound j d hd)
  cases c with
  | add id isPlayer pos =>
    rw [apply, entities_add] at hj
    split at hj
    · cases hj
      exact Entity.sound_newcomer h.one_le_radius isPlayer pos
    · exact h.sound j e hj
  | remove id =>
    rw [apply, entities_remove] at hj
    split at hj
    · cases hj
    · exact h.sound j e hj
  | move id pos =>
    rw [apply, entities_move] at hj
    split at hj
    · exact keep (fun _ hd => hd.arrivedAt pos) hj
    · exact h.sound j e hj
  | refresh id =>
    rw [apply, entities_refresh] at hj
    split at hj
    · exact keep (fun _ hd => hd.refreshed) hj
    · exact h.sound j e hj
  | setRadiusOf id radius =>
    rw [apply, entities_setRadiusOf] at hj
    split at hj
    · exact keep (fun _ hd => hd.reaching radius) hj
    · exact h.sound j e hj
  | setRadius radius =>
    rw [apply, entities_setRadius] at hj
    exact keep (fun _ hd => hd.reaching radius) hj

theorem one_le_radius_apply (h : 1 ≤ w.radius) (c : Change) : 1 ≤ (w.apply c).value.radius := by
  cases c with
  | add id isPlayer pos => simpa [apply, value_add, placed] using h
  | setRadius radius =>
    rw [apply, value_setRadius, radius_reached]
    exact Int.le_max_right ..
  | _ => simpa [apply] using h

theorem Consistent.apply (h : w.Consistent) (c : Change) : (w.apply c).value.Consistent where
  one_le_radius := one_le_radius_apply h.one_le_radius c
  sound _ _ hj := by
    rw [grid_apply]
    exact h.sound_apply c hj
  linked := h.linked.apply c

theorem consistent_empty (size : Float32) (radius : Int) : (empty size radius).Consistent where
  one_le_radius := Int.le_max_right ..
  sound _ _ h := by simp [empty] at h
  linked := ⟨by simp [empty, Cells.residents], by simp [empty, Cells.watchers]⟩

/-- No view lags behind, so that looking again shows nothing new. -/
theorem Consistent.entities_refresh (h : w.Consistent) (id j : EntityId) :
    (w.refresh id).value.entities[j]? = w.entities[j]? := by
  rw [World.entities_refresh]
  split
  · cases hj : w.entities[j]? with
    | none => rfl
    | some e => rw [Option.map_some, (h.sound j e hj).refreshed_eq]
  · rfl

theorem Consistent.after (h : w.Consistent) (cs : List Change) : (w.after cs).Consistent := by
  induction cs generalizing w with
  | nil => exact h
  | cons c cs ih => exact ih (h.apply c)

theorem grid_after (w : World) (cs : List Change) : (w.after cs).grid = w.grid := by
  induction cs generalizing w with
  | nil => rfl
  | cons c cs ih => exact (ih _).trans (grid_apply w c)

/-- After any history of a world, the sector of an entity is that of its place; the entity is
resident there and nowhere else, and residents are entities; a player sees the neighbourhood of its
sector and nothing else, at a radius of one at least, and anything else sees nothing; and a sector
is watched by the players that see it. -/
theorem tables_agree_after (size : Float32) (radius : Int) (cs : List Change) :
    let w := (empty size radius).after cs
    (∀ (id : EntityId) (e : Entity), w.entities[id]? = some e →
      e.sector = (Grid.ofSize size).locate e.pos ∧
      (∀ c, id ∈ w.cells.residents c ↔ c = e.sector) ∧
      (if e.isPlayer then
        1 ≤ e.radius ∧ e.view = Std.ExtTreeSet.ofList (e.sector.neighbourhood e.radius)
      else e.view = ∅)) ∧
    (∀ c, ∀ id ∈ w.cells.residents c, id ∈ w.entities) ∧
    ∀ c id, id ∈ w.cells.watchers c ↔
      ∃ e, w.entities[id]? = some e ∧ e.isPlayer ∧ c ∈ e.view := by
  intro w
  have h : w.Consistent := (consistent_empty size radius).after cs
  have hg : w.grid = Grid.ofSize size := grid_after ..
  refine ⟨fun id e hid => ⟨?_, fun c => ?_, ?_⟩, fun c id hr => ?_, fun c id => ?_⟩
  · rw [← hg]
    exact (h.sound id e hid).sector_eq
  · rw [h.linked.residents]
    simp [hid, eq_comm]
  · have hs := h.sound id e hid
    split
    · next he => exact ⟨hs.one_le_radius he, hs.view_eq he⟩
    · next he => exact Std.ExtTreeSet.ext_mem fun c => by simp [hs.mem_view, he]
  · obtain ⟨e, hid, -⟩ := (h.linked.residents id c).1 hr
    exact Std.ExtTreeMap.mem_iff_isSome_getElem?.2 (by simp [hid])
  · rw [h.linked.watchers]
    constructor
    · rintro ⟨e, hid, hc⟩
      exact ⟨e, hid, ((h.sound id e hid).mem_view c).1 hc |>.1, hc⟩
    · rintro ⟨e, hid, -, hc⟩
      exact ⟨e, hid, hc⟩

end World
end Fieldwatch.Interest
