import Fieldwatch.Proofs.Interest.Consistency

/-! Moves of different entities commute. The table of sectors of a consistent world says nothing
that its entities do not say, apart from which sectors were ever entered or seen. A move adds to
those what its entity stands in and sees afterwards, which other moves have no part in. -/

namespace Fieldwatch.Interest

namespace Cells

variable (c : Cells) (id : EntityId) (s t : Sector)

theorem mem_table_place : t ∈ (c.place id s).table ↔ t ∈ c.table ∨ t = s := by
  simp only [place, Std.ExtTreeMap.mem_insert, Std.LawfulEqCmp.compare_eq_iff_eq]
  rw [or_comm, eq_comm]

theorem mem_table_evict : t ∈ (c.evict id s).table ↔ t ∈ c.table := Std.ExtTreeMap.mem_modify

theorem mem_table_foldl_enrol (l : List Sector) :
    t ∈ (l.foldl (·.enrol id ·) c).table ↔ t ∈ c.table ∨ t ∈ l := by
  induction l generalizing c with
  | nil => simp
  | cons s l ih =>
    have hs : t ∈ (c.enrol id s).table ↔ t ∈ c.table ∨ t = s := by
      simp only [enrol, Std.ExtTreeMap.mem_insert, Std.LawfulEqCmp.compare_eq_iff_eq]
      rw [or_comm, eq_comm]
    rw [List.foldl_cons, ih, hs, List.mem_cons, or_assoc]

theorem mem_table_foldl_dismiss (l : List Sector) :
    t ∈ (l.foldl (·.dismiss id ·) c).table ↔ t ∈ c.table := by
  induction l generalizing c with
  | nil => rfl
  | cons s l ih =>
    have hs : t ∈ (c.dismiss id s).table ↔ t ∈ c.table := Std.ExtTreeMap.mem_modify
    rw [List.foldl_cons, ih, hs]

variable {c t}

theorem mem_table_of_resident (h : id ∈ c.residents t) : t ∈ c.table := by
  refine Classical.byContradiction fun ht => ?_
  rw [residents, Std.ExtTreeMap.getD_eq_fallback ht] at h
  exact Std.ExtTreeSet.not_mem_empty h

theorem mem_table_of_watcher (h : id ∈ c.watchers t) : t ∈ c.table := by
  refine Classical.byContradiction fun ht => ?_
  rw [watchers, Std.ExtTreeMap.getD_eq_fallback ht] at h
  exact Std.ExtTreeSet.not_mem_empty h

theorem getElem?_table (h : t ∈ c.table) : c.table[t]? = some ⟨c.residents t, c.watchers t⟩ := by
  rcases hl : c.table[t]? with _ | l
  · rw [Std.ExtTreeMap.mem_iff_isSome_getElem?, hl] at h
    cases h
  · have hd : c.table.getD t {} = l := by rw [Std.ExtTreeMap.getD_eq_getD_getElem?, hl]; rfl
    rw [residents, watchers, hd]

theorem eq_of_tables {d : Cells} (hr : ∀ t, c.residents t = d.residents t)
    (hw : ∀ t, c.watchers t = d.watchers t) (ht : ∀ t, t ∈ c.table ↔ t ∈ d.table) : c = d := by
  suffices h : c.table = d.table by
    rcases c with ⟨ct⟩
    rcases d with ⟨dt⟩
    exact congrArg _ h
  refine Std.ExtTreeMap.ext_getElem? fun t => ?_
  by_cases hc : t ∈ c.table
  · rw [getElem?_table hc, getElem?_table ((ht t).1 hc), hr, hw]
  · rw [Std.ExtTreeMap.getElem?_eq_none hc,
      Std.ExtTreeMap.getElem?_eq_none fun hd => hc ((ht t).2 hd)]

end Cells

def Entity.Touches (e : Entity) (t : Sector) : Prop := t = e.sector ∨ t ∈ e.view

namespace World

variable {w y : World} {id : EntityId} {e : Entity} {t : Sector}

theorem Linked.mem_table (h : w.Linked) (he : w.entities[id]? = some e) (ht : e.Touches t) :
    t ∈ w.cells.table := by
  rcases ht with rfl | ht
  · exact Cells.mem_table_of_resident id ((h.residents id _).2 ⟨e, he, rfl⟩)
  · exact Cells.mem_table_of_watcher id ((h.watchers id t).2 ⟨e, he, ht⟩)

theorem Linked.eq_of_tables (hw : w.Linked) (hy : y.Linked) (hg : w.grid = y.grid)
    (hr : w.radius = y.radius) (he : ∀ j : EntityId, w.entities[j]? = y.entities[j]?)
    (ht : ∀ t, t ∈ w.cells.table ↔ t ∈ y.cells.table) : w = y := by
  have hent : w.entities = y.entities := Std.ExtTreeMap.ext_getElem? fun j => he j
  have hcells : w.cells = y.cells := by
    refine Cells.eq_of_tables (fun t => Std.ExtTreeSet.ext_mem fun id => ?_)
      (fun t => Std.ExtTreeSet.ext_mem fun id => ?_) ht
    · rw [hw.residents, hy.residents, hent]
    · rw [hw.watchers, hy.watchers, hent]
  rcases w with ⟨wg, wr, we, wc⟩
  rcases y with ⟨yg, yr, ye, yc⟩
  simp only at hg hr hent hcells
  rw [hg, hr, hent, hcells]

theorem mem_table_refresh (w : World) (id : EntityId) (t : Sector) :
    t ∈ (w.refresh id).value.cells.table ↔ t ∈ w.cells.table ∨
      ∃ e, w.entities[id]? = some e ∧ e.isPlayer ∧
        t ∈ e.sector.neighbourhood e.radius ∧ t ∉ e.view := by
  unfold refresh
  rcases hid : w.entities[id]? with _ | e
  · simp
  · by_cases he : e.isPlayer
    · simp [he, Cells.mem_table_foldl_enrol, Cells.mem_table_foldl_dismiss]
    · simp [he]

theorem mem_table_relocated (w : World) (id : EntityId) (e : Entity) (pos : Vec2) (t : Sector) :
    t ∈ (w.relocated id e pos).cells.table ↔
      t ∈ w.cells.table ∨ e.sector ≠ w.grid.locate pos ∧ t = w.grid.locate pos := by
  unfold relocated
  by_cases hs : e.sector = w.grid.locate pos
  · simp [hs]
  · simp [hs, Cells.mem_table_place, Cells.mem_table_evict]

theorem mem_table_of_mem_move (hid : w.entities[id]? = some e) {pos : Vec2}
    (ht : t ∈ (w.move id pos).value.cells.table) :
    t ∈ w.cells.table ∨ (e.arrivedAt w.grid pos).Touches t := by
  rw [value_move hid] at ht
  split at ht
  · next hs =>
    rw [mem_table_relocated] at ht
    rcases ht with ht | ⟨hne, -⟩
    · exact .inl ht
    · exact (hne hs).elim
  · next hs =>
    have hrel : (w.relocated id e pos).entities[id]? = some (e.movedTo w.grid pos) := by
      rw [entities_relocated hid, if_pos rfl, hid]
      rfl
    rw [mem_table_refresh, mem_table_relocated, hrel] at ht
    rcases ht with (ht | ⟨-, rfl⟩) | ⟨-, ⟨⟩, hp, ht, -⟩
    · exact .inl ht
    · exact .inr (.inl (e.sector_arrivedAt w.grid pos).symm)
    · refine .inr (.inr ?_)
      rw [Entity.arrivedAt, if_neg hs, Entity.mem_view_refreshed, if_pos hp]
      exact ht

theorem mem_table_move_of_old (w : World) (id : EntityId) (pos : Vec2) (ht : t ∈ w.cells.table) :
    t ∈ (w.move id pos).value.cells.table := by
  rcases hid : w.entities[id]? with _ | e
  · rwa [move_of_none hid]
  · have hrel : t ∈ (w.relocated id e pos).cells.table := (mem_table_relocated ..).2 (.inl ht)
    rw [value_move hid]
    split
    · exact hrel
    · exact (mem_table_refresh ..).2 (.inl hrel)

/-- Sectors are never forgotten, and a move brings in those that the moved one then stands in or
sees. -/
theorem Linked.mem_table_move (h : w.Linked) (id : EntityId) (pos : Vec2) (t : Sector) :
    t ∈ (w.move id pos).value.cells.table ↔ t ∈ w.cells.table ∨
      ∃ e, w.entities[id]? = some e ∧ (e.arrivedAt w.grid pos).Touches t := by
  constructor
  · intro ht
    rcases hid : w.entities[id]? with _ | e
    · rw [move_of_none hid] at ht
      exact .inl ht
    · exact (mem_table_of_mem_move hid ht).imp_right fun ht => ⟨e, rfl, ht⟩
  · rintro (ht | ⟨e, hid, ht⟩)
    · exact mem_table_move_of_old w id pos ht
    · have hmove : (w.move id pos).value.entities[id]? = some (e.arrivedAt w.grid pos) := by
        rw [entities_move, if_pos rfl, hid]
        rfl
      exact (h.move id pos).mem_table hmove ht

theorem Linked.move_comm (h : w.Linked) {a b : EntityId} (hab : a ≠ b) (p q : Vec2) :
    ((w.move a p).value.move b q).value = ((w.move b q).value.move a p).value := by
  have ha : (w.move b q).value.entities[a]? = w.entities[a]? := by rw [entities_move, if_neg hab]
  have hb : (w.move a p).value.entities[b]? = w.entities[b]? := by
    rw [entities_move, if_neg hab.symm]
  refine ((h.move a p).move b q).eq_of_tables ((h.move b q).move a p) ?_ ?_ (fun j => ?_)
    fun t => ?_
  · simp only [grid_move]
  · simp only [radius_move]
  · simp only [entities_move, grid_move]
    by_cases hja : j = a
    · subst hja
      simp [hab]
    · simp [hja]
  · rw [(h.move a p).mem_table_move, (h.move b q).mem_table_move, h.mem_table_move,
      h.mem_table_move, ha, hb, grid_move, grid_move]
    exact or_right_comm

end World
end Fieldwatch.Interest
