import Fieldwatch.Identity
import Fieldwatch.Grid

/-! What is known about each sector: who stands in it and which players see it. Sectors that were
never entered or seen are not in the table, and have neither residents nor watchers. -/

namespace Fieldwatch.Interest

structure Cell where
  residents : IdSet := ∅
  watchers : IdSet := ∅

structure Cells where
  table : SectorMap Cell := ∅

namespace Cells

variable (c : Cells) (id : EntityId) (s : Sector)

def residents : IdSet := (c.table.getD s {}).residents

def watchers : IdSet := (c.table.getD s {}).watchers

def place : Cells :=
  ⟨c.table.insert s { residents := (c.residents s).insert id, watchers := c.watchers s }⟩

def evict : Cells := ⟨c.table.modify s fun l => { l with residents := l.residents.erase id }⟩

def enrol : Cells :=
  ⟨c.table.insert s { residents := c.residents s, watchers := (c.watchers s).insert id }⟩

def dismiss : Cells := ⟨c.table.modify s fun l => { l with watchers := l.watchers.erase id }⟩

/-- A change that leaves an empty cell empty cannot tell a missing sector from an empty one. -/
theorem getD_modify_empty (m : SectorMap Cell) (f : Cell → Cell) (hf : f {} = {}) (t : Sector) :
    (m.modify s f).getD t {} = if s = t then f (m.getD s {}) else m.getD t {} := by
  by_cases h : s = t
  · subst h
    cases hs : m[s]? <;> simp [Std.ExtTreeMap.getD_eq_getD_getElem?, hs, hf]
  · simp [Std.ExtTreeMap.getD_modify, h]

theorem residents_place (t : Sector) :
    (c.place id s).residents t = if s = t then (c.residents s).insert id else c.residents t := by
  by_cases h : s = t <;> simp [place, residents, Std.ExtTreeMap.getD_insert, h]

theorem watchers_place (t : Sector) : (c.place id s).watchers t = c.watchers t := by
  by_cases h : s = t <;> simp [place, watchers, Std.ExtTreeMap.getD_insert, h]

theorem residents_evict (t : Sector) :
    (c.evict id s).residents t = if s = t then (c.residents s).erase id else c.residents t := by
  simp only [evict, residents]
  rw [getD_modify_empty s _ _ (by simp)]
  by_cases h : s = t <;> simp [h]

theorem watchers_evict (t : Sector) : (c.evict id s).watchers t = c.watchers t := by
  simp only [evict, watchers]
  rw [getD_modify_empty s _ _ (by simp)]
  by_cases h : s = t <;> simp [h]

theorem residents_enrol (t : Sector) : (c.enrol id s).residents t = c.residents t := by
  by_cases h : s = t <;> simp [enrol, residents, Std.ExtTreeMap.getD_insert, h]

theorem watchers_enrol (t : Sector) :
    (c.enrol id s).watchers t = if s = t then (c.watchers s).insert id else c.watchers t := by
  by_cases h : s = t <;> simp [enrol, watchers, Std.ExtTreeMap.getD_insert, h]

theorem residents_dismiss (t : Sector) : (c.dismiss id s).residents t = c.residents t := by
  simp only [dismiss, residents]
  rw [getD_modify_empty s _ _ (by simp)]
  by_cases h : s = t <;> simp [h]

theorem watchers_dismiss (t : Sector) :
    (c.dismiss id s).watchers t = if s = t then (c.watchers s).erase id else c.watchers t := by
  simp only [dismiss, watchers]
  rw [getD_modify_empty s _ _ (by simp)]
  by_cases h : s = t <;> simp [h]

end Cells
end Fieldwatch.Interest
