import Fieldwatch.Proofs.Roster.Office

/-! How an office looks to those who know the ids of the fields only: what several callers do at
once comes out as operations on one roster. -/

namespace Fieldwatch

variable {κ : Type}

namespace Happening

def opened? : Happening → Option FieldId
  | .opened id => some id
  | .effect .. => none

end Happening

def openings (l : List Happening) : List FieldId := l.filterMap Happening.opened?

theorem openings_under {α : Type} (id : FieldId) (r : Effects α) :
    openings (r.under id).log = [] := by
  change (r.log.map (Happening.effect id)).filterMap Happening.opened? = []
  rw [List.filterMap_map]
  exact List.filterMap_none _

namespace Roster

variable {r r' : Roster}

theorem ext_get? (hc : r.config = r'.config) (hn : r.npcField = r'.npcField)
    (hg : ∀ id, r.get? id = r'.get? id) : r = r' := by
  have hw : r.workers = r'.workers := Std.ExtTreeMap.ext_getElem? hg
  cases r
  cases r'
  cases hc
  cases hn
  cases hw
  rfl

theorem get?_put (r : Roster) (id : FieldId) (w : Worker Unit) (id' : FieldId) :
    (r.put id w).get? id' = if id = id' then some w else r.get? id' := by
  rw [get?, put, Std.ExtTreeMap.getElem?_insert]
  by_cases hid : id = id'
  · subst hid
    rw [if_pos rfl, if_pos Std.ReflCmp.compare_self]
  · rw [if_neg hid, if_neg fun heq => hid (Std.LawfulEqCmp.eq_of_compare heq)]
    rfl

theorem create_of_mem {id : FieldId} {enum : Enumeration} (hid : id ∈ r.workers) :
    r.create id enum = pure r := by
  rw [create, if_pos hid]

theorem create_of_notMem {id : FieldId} {enum : Enumeration} (hid : id ∉ r.workers) :
    (r.create id enum).value = r.put id (r.newWorker id enum).value ∧
      openings (r.create id enum).log = [id] := by
  rw [create, if_neg hid]
  refine ⟨rfl, ?_⟩
  have hunder := openings_under id (r.newWorker id enum)
  rw [Emit.log_bind, Emit.log_bind, Emit.log_pure, List.append_nil, openings, List.filterMap_append]
  exact congrArg (id :: ·) hunder

theorem post_of_some {id : FieldId} {w : Worker Unit} (h : r.get? id = some w) (m : Message Unit) :
    (r.post id m).value.2 = r.put id (w.push m).value.2 ∧
      ((r.post id m).value.1 = true ↔ (w.push m).value.1 = .ok ()) := by
  rw [post, updating, h]
  dsimp only
  rcases w.push m with ⟨⟨answer, v⟩, l⟩
  refine ⟨rfl, ?_⟩
  rcases answer with e | ⟨⟩
  · exact iff_of_false Bool.false_ne_true (fun hok => by cases hok)
  · exact iff_of_true rfl rfl

theorem ids_pairwise (r : Roster) : r.ids.Pairwise (· < ·) :=
  r.workers.ordered_keys.imp fun h => Std.compare_eq_lt.1 h

end Roster

namespace Office

variable [DecidableEq κ] {s t : Office κ} {i : Nat} {id : FieldId}

omit [DecidableEq κ] in
theorem get?_roster (s : Office κ) (id : FieldId) :
    s.roster.get? id = s.table[id]?.bind fun i => s.hired[i]?.map (·.worker) :=
  Std.ExtTreeMap.getElem?_filterMap'

theorem Sound.get?_of_registered (h : s.Sound) (hi : s.table[id]? = some i) :
    ∃ t, s.hired[i]? = some t ∧ t.id = id ∧ s.roster.get? id = some t.worker := by
  obtain ⟨t, ht, hid⟩ := h.exists_hired ((h.registered id i).1 hi)
  refine ⟨t, ht, hid, ?_⟩
  rw [get?_roster, hi, Option.bind_some, ht]
  rfl

theorem Sound.mem_roster (h : s.Sound) (id : FieldId) : id ∈ s.roster.workers ↔ id ∈ s.table := by
  have hget : s.roster.workers[id]? = s.roster.get? id := rfl
  rw [Std.ExtTreeMap.mem_iff_isSome_getElem?, Std.ExtTreeMap.mem_iff_isSome_getElem?, hget]
  rcases hi : s.table[id]? with _ | i
  · rw [get?_roster, hi]
    rfl
  · obtain ⟨t, -, -, hget⟩ := h.get?_of_registered hi
    rw [hget]
    rfl

theorem Sound.roster_place (h : s.Sound) {u : Tenure κ Unit} (hi : s.table[id]? = some i) :
    (s.place i u).roster = s.roster.put id u.worker := by
  refine Roster.ext_get? rfl rfl fun id' => ?_
  have hopened := (h.registered id i).1 hi
  obtain ⟨t, ht, -⟩ := h.get?_of_registered hi
  have hlt := (List.getElem?_eq_some_iff.1 ht).1
  rw [get?_roster, Roster.get?_put, get?_roster]
  change (s.table[id']?.bind fun j => (s.hired.set i u)[j]?.map (·.worker)) = _
  by_cases heq : id = id'
  · subst heq
    rw [hi, if_pos rfl, Option.bind_some, List.getElem?_set, if_pos rfl, if_pos hlt]
    rfl
  · rw [if_neg heq]
    rcases hj : s.table[id']? with _ | j
    · rfl
    · have hij : i ≠ j := by
        rintro rfl
        have hboth := hopened.symm.trans ((h.registered id' i).1 hj)
        exact heq (Prod.mk.inj (Option.some.inj hboth)).2
      rw [Option.bind_some, Option.bind_some, List.getElem?_set_ne hij]

theorem Sound.roster_deliver (h : s.Sound) {u : Tenure κ Unit} (hi : s.table[id]? = some i)
    (hu : s.hired[i]? = some u) (m : Message Unit) :
    (s.place i (u.push m)).roster = (s.roster.post id m).value.2 ∧
      ((s.roster.post id m).value.1 = true ↔ (u.worker.push m).value.1 = .ok ()) := by
  obtain ⟨t, ht, -, hget⟩ := h.get?_of_registered hi
  cases hu.symm.trans ht
  obtain ⟨hvalue, haccepted⟩ := Roster.post_of_some hget m
  exact ⟨(h.roster_place hi).trans hvalue.symm, haccepted⟩

end Office
end Fieldwatch
