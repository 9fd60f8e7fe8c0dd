import Fieldwatch.Interest.World

/-! The changes of a world as data, so that the history of a world is a list. What a change does to
the table of entities is said for each entity on its own: a change either replaces the entities it
is about, one by one, or leaves them alone. -/

namespace Fieldwatch

theorem IdMap.getElem?_insert {α : Type} (m : IdMap α) (id j : EntityId) (a : α) :
    (m.insert id a)[j]? = if j = id then some a else m[j]? := by
  by_cases hj : j = id
  · simp [hj]
  · simp [Std.ExtTreeMap.getElem?_insert, hj, Ne.symm hj]

theorem IdMap.getElem?_erase {α : Type} (m : IdMap α) (id j : EntityId) :
    (m.erase id)[j]? = if j = id then none else m[j]? := by
  by_cases hj : j = id
  · simp [hj]
  · simp [Std.ExtTreeMap.getElem?_erase, hj, Ne.symm hj]

theorem IdMap.mem_iff_exists {α : Type} {m : IdMap α} {id : EntityId} :
    id ∈ m ↔ ∃ a, m[id]? = some a := by
  rw [Std.ExtTreeMap.mem_iff_isSome_getElem?, Option.isSome_iff_exists]

theorem getElem?_append_of_some {α : Type} {l m : List α} {a : α} {n : Nat} (h : l[n]? = some a) :
    (l ++ m)[n]? = some a := by
  rw [List.getElem?_append_left (List.getElem?_eq_some_iff.1 h).1]
  exact h

theorem getElem?_concat_iff {α : Type} {l : List α} {a c : α} {n : Nat} :
    (l ++ [c])[n]? = some a ↔ l[n]? = some a ∨ n = l.length ∧ c = a := by
  constructor
  · intro h
    rcases Nat.lt_or_ge n l.length with hn | hn
    · rw [List.getElem?_append_left hn] at h
      exact .inl h
    · have hlen := (List.getElem?_eq_some_iff.1 h).1
      rw [List.length_append, List.length_singleton] at hlen
      obtain rfl : n = l.length := by omega
      rw [List.getElem?_concat_length] at h
      exact .inr ⟨rfl, Option.some.inj h⟩
  · rintro (h | ⟨rfl, rfl⟩)
    · exact getElem?_append_of_some h
    · exact List.getElem?_concat_length

namespace Interest

inductive Change where
  | add (id : EntityId) (isPlayer : Bool) (pos : Vec2)
  | remove (id : EntityId)
  | move (id : EntityId) (pos : Vec2)
  | refresh (id : EntityId)
  | setRadiusOf (id : EntityId) (radius : Int)
  | setRadius (radius : Int)

namespace Entity

def refreshed (e : Entity) : Entity :=
  if e.isPlayer then { e with view := Std.ExtTreeSet.ofList (e.sector.neighbourhood e.radius) } else e

def movedTo (g : Grid) (pos : Vec2) (e : Entity) : Entity :=
  { e with pos := pos, sector := g.locate pos }

/-- After its move to `pos`. A view is only looked at again when the sector changes. -/
def arrivedAt (g : Grid) (pos : Vec2) (e : Entity) : Entity :=
  if e.sector = g.locate pos then e.movedTo g pos else (e.movedTo g pos).refreshed

def tuned (radius : Int) (e : Entity) : Entity := { e with radius := max radius 1 }

def reaching (radius : Int) (e : Entity) : Entity :=
  if e.isPlayer then (e.tuned radius).refreshed else e

def newcomer (w : World) (isPlayer : Bool) (pos : Vec2) : Entity :=
  { isPlayer := isPlayer, pos := pos, sector := w.grid.locate pos, radius := w.radius, view := ∅ }

variable (e : Entity)

theorem mem_view_refreshed {c : Sector} :
    c ∈ e.refreshed.view ↔
      if e.isPlayer then c ∈ e.sector.neighbourhood e.radius else c ∈ e.view := by
  unfold refreshed
  split <;> simp_all [Std.ExtTreeSet.mem_ofList]

@[simp] theorem isPlayer_refreshed : e.refreshed.isPlayer = e.isPlayer := by
  unfold refreshed; split <;> rfl

@[simp] theorem pos_refreshed : e.refreshed.pos = e.pos := by unfold refreshed; split <;> rfl

@[simp] theorem sector_refreshed : e.refreshed.sector = e.sector := by
  unfold refreshed; split <;> rfl

@[simp] theorem radius_refreshed : e.refreshed.radius = e.radius := by
  unfold refreshed; split <;> rfl

@[simp] theorem sector_arrivedAt (g : Grid) (pos : Vec2) :
    (e.arrivedAt g pos).sector = g.locate pos := by
  unfold arrivedAt; split <;> simp [movedTo]

@[simp] theorem isPlayer_arrivedAt (g : Grid) (pos : Vec2) :
    (e.arrivedAt g pos).isPlayer = e.isPlayer := by
  unfold arrivedAt; split <;> simp [movedTo]

@[simp] theorem pos_arrivedAt (g : Grid) (pos : Vec2) : (e.arrivedAt g pos).pos = pos := by
  unfold arrivedAt; split <;> simp [movedTo]

@[simp] theorem radius_arrivedAt (g : Grid) (pos : Vec2) :
    (e.arrivedAt g pos).radius = e.radius := by
  unfold arrivedAt; split <;> simp [movedTo]

@[simp] theorem isPlayer_reaching (radius : Int) : (e.reaching radius).isPlayer = e.isPlayer := by
  unfold reaching; split <;> simp [tuned]

@[simp] theorem pos_reaching (radius : Int) : (e.reaching radius).pos = e.pos := by
  unfold reaching; split <;> simp [tuned]

@[simp] theorem sector_reaching (radius : Int) : (e.reaching radius).sector = e.sector := by
  unfold reaching; split <;> simp [tuned]

theorem reaching_reaching (radius : Int) :
    (e.reaching radius).reaching radius = e.reaching radius := by
  cases he : e.isPlayer <;> simp [reaching, refreshed, tuned, he]

end Entity

namespace World

variable (w : World) (id j : EntityId)

def apply : Change → Emit Delivery World
  | .add id isPlayer pos => w.add id isPlayer pos
  | .remove id => w.remove id
  | .move id pos => w.move id pos
  | .refresh id => w.refresh id
  | .setRadiusOf id radius => w.setRadiusOf id radius
  | .setRadius radius => w.setRadius radius

def after (cs : List Change) : World := cs.foldl (fun w c => (w.apply c).value) w

theorem getElem?_insert_of_some {α : Type} {m : IdMap α} {id : EntityId} {a : α}
    (h : m[id]? = some a) (f : α → α) (j : EntityId) :
    (m.insert id (f a))[j]? = if j = id then m[j]?.map f else m[j]? := by
  rw [IdMap.getElem?_insert]
  by_cases hj : j = id
  · rw [if_pos hj, if_pos hj, hj, h, Option.map_some]
  · rw [if_neg hj, if_neg hj]

theorem entities_refresh : (w.refresh id).value.entities[j]? =
    if j = id then w.entities[j]?.map Entity.refreshed else w.entities[j]? := by
  unfold refresh
  cases h : w.entities[id]? with
  | none => by_cases hj : j = id <;> simp_all
  | some e =>
    cases he : e.isPlayer with
    | true =>
      have := getElem?_insert_of_some h Entity.refreshed j
      simpa [Entity.refreshed, he] using this
    | false => by_cases hj : j = id <;> simp_all [Entity.refreshed]

theorem entities_remove : (w.remove id).value.entities[j]? =
    if j = id then none else w.entities[j]? := by
  unfold remove
  cases h : w.entities[id]? with
  | none => by_cases hj : j = id <;> simp_all
  | some e => exact IdMap.getElem?_erase w.entities id j

@[simp] theorem grid_refresh : (w.refresh id).value.grid = w.grid := by
  unfold refresh
  split
  · rfl
  · split <;> rfl

@[simp] theorem radius_refresh : (w.refresh id).value.radius = w.radius := by
  unfold refresh
  split
  · rfl
  · split <;> rfl

@[simp] theorem grid_remove : (w.remove id).value.grid = w.grid := by
  unfold remove; split <;> rfl

@[simp] theorem radius_remove : (w.remove id).value.radius = w.radius := by
  unfold remove; split <;> rfl

/-- The world with a newcomer that has not looked around yet. -/
def placed (isPlayer : Bool) (pos : Vec2) : World :=
  { w with
    entities := w.entities.insert id (.newcomer w isPlayer pos)
    cells := w.cells.place id (w.grid.locate pos) }

theorem value_add (isPlayer : Bool) (pos : Vec2) : (w.add id isPlayer pos).value =
    (((w.remove id).value.placed id isPlayer pos).refresh id).value := rfl

theorem entities_placed (isPlayer : Bool) (pos : Vec2) :
    (w.placed id isPlayer pos).entities[j]? =
      if j = id then some (.newcomer w isPlayer pos) else w.entities[j]? :=
  IdMap.getElem?_insert w.entities id j _

theorem entities_add (isPlayer : Bool) (pos : Vec2) : (w.add id isPlayer pos).value.entities[j]? =
    if j = id then some (Entity.newcomer w isPlayer pos).refreshed else w.entities[j]? := by
  rw [value_add, entities_refresh, entities_placed, entities_remove]
  by_cases hj : j = id <;> simp [hj, Entity.newcomer]

def relocated (e : Entity) (pos : Vec2) : World :=
  { w with
    entities := w.entities.insert id (e.movedTo w.grid pos)
    cells :=
      if e.sector = w.grid.locate pos then w.cells
      else (w.cells.evict id e.sector).place id (w.grid.locate pos) }

variable {w id} {e : Entity}

theorem entities_relocated (h : w.entities[id]? = some e) (pos : Vec2) (j : EntityId) :
    (w.relocated id e pos).entities[j]? =
      if j = id then w.entities[j]?.map (Entity.movedTo w.grid pos) else w.entities[j]? :=
  getElem?_insert_of_some h _ j

theorem move_of_none (h : w.entities[id]? = none) (pos : Vec2) : w.move id pos = pure w := by
  simp [move, h]

theorem value_move (h : w.entities[id]? = some e) (pos : Vec2) : (w.move id pos).value =
    if e.sector = w.grid.locate pos then w.relocated id e pos
    else ((w.relocated id e pos).refresh id).value := by
  by_cases hs : e.sector = w.grid.locate pos <;> simp [move, h, hs, relocated, Entity.movedTo]

variable (w id)

theorem entities_move (pos : Vec2) : (w.move id pos).value.entities[j]? =
    if j = id then w.entities[j]?.map (Entity.arrivedAt w.grid pos) else w.entities[j]? := by
  cases h : w.entities[id]? with
  | none => by_cases hj : j = id <;> simp_all [move_of_none]
  | some e =>
    rw [value_move h]
    by_cases hj : j = id <;> by_cases hs : e.sector = w.grid.locate pos <;>
      simp_all [entities_refresh, entities_relocated, Entity.arrivedAt]

@[simp] theorem grid_move (pos : Vec2) : (w.move id pos).value.grid = w.grid := by
  cases h : w.entities[id]? with
  | none => simp [move_of_none h]
  | some e => rw [value_move h]; split <;> simp [relocated]

@[simp] theorem radius_move (pos : Vec2) : (w.move id pos).value.radius = w.radius := by
  cases h : w.entities[id]? with
  | none => simp [move_of_none h]
  | some e => rw [value_move h]; split <;> simp [relocated]

def retuned (e : Entity) (radius : Int) : World :=
  { w with entities := w.entities.insert id (e.tuned radius) }

variable {w id}

theorem entities_retuned (h : w.entities[id]? = some e) (radius : Int) (j : EntityId) :
    (w.retuned id e radius).entities[j]? =
      if j = id then w.entities[j]?.map (Entity.tuned radius) else w.entities[j]? :=
  getElem?_insert_of_some h _ j

theorem setRadiusOf_of_player (h : w.entities[id]? = some e) (he : e.isPlayer) (radius : Int) :
    w.setRadiusOf id radius = (w.retuned id e radius).refresh id := by
  simp [setRadiusOf, h, he, retuned, Entity.tuned]

theorem setRadiusOf_of_not_player (h : ∀ e, w.entities[id]? = some e → ¬ e.isPlayer)
    (radius : Int) : w.setRadiusOf id radius = pure w := by
  unfold setRadiusOf
  split
  · rfl
  · next e he => simp [h e he]

variable (w id)

theorem entities_setRadiusOf (radius : Int) : (w.setRadiusOf id radius).value.entities[j]? =
    if j = id then w.entities[j]?.map (Entity.reaching radius) else w.entities[j]? := by
  by_cases h : ∃ e, w.entities[id]? = some e ∧ e.isPlayer
  · obtain ⟨e, h, he⟩ := h
    rw [setRadiusOf_of_player h he, entities_refresh, entities_retuned h]
    by_cases hj : j = id <;> simp_all [Entity.reaching]
  · rw [setRadiusOf_of_not_player (fun e h' he => h ⟨e, h', he⟩)]
    by_cases hj : j = id
    · subst hj
      cases h' : w.entities[j]? <;> simp_all [Entity.reaching]
    · simp [hj]

@[simp] theorem grid_setRadiusOf (radius : Int) : (w.setRadiusOf id radius).value.grid = w.grid := by
  unfold setRadiusOf
  split
  · rfl
  · split <;> simp

@[simp] theorem radius_setRadiusOf (radius : Int) :
    (w.setRadiusOf id radius).value.radius = w.radius := by
  unfold setRadiusOf
  split
  · rfl
  · split <;> simp

theorem mem_players : j ∈ w.players ↔ ∃ e, w.entities[j]? = some e ∧ e.isPlayer := by
  simp only [players, List.mem_map, List.mem_filter, Prod.exists,
    Std.ExtTreeMap.mem_toList_iff_getElem?_eq_some]
  constructor
  · rintro ⟨k, e, ⟨h, he⟩, rfl⟩
    exact ⟨e, h, he⟩
  · rintro ⟨e, h, he⟩
    exact ⟨j, e, ⟨h, he⟩, rfl⟩

theorem nodup_players : w.players.Nodup := by
  have h := w.entities.distinct_keys_toList
  refine List.Pairwise.map _ ?_ (h.filter _)
  simp

def reached (radius : Int) (ids : List EntityId) : World :=
  ids.foldl (fun w id => (w.setRadiusOf id radius).value) w

theorem value_setRadius (radius : Int) : (w.setRadius radius).value =
    reached { w with radius := max radius 1 } radius w.players :=
  Emit.value_foldlM ..

theorem entities_reached (radius : Int) (ids : List EntityId) :
    (w.reached radius ids).entities[j]? =
      if j ∈ ids then w.entities[j]?.map (Entity.reaching radius) else w.entities[j]? := by
  induction ids generalizing w with
  | nil => rfl
  | cons id ids ih =>
    have h : w.reached radius (id :: ids) = (w.setRadiusOf id radius).value.reached radius ids := rfl
    rw [h, ih, entities_setRadiusOf]
    by_cases hj : j = id <;> by_cases hm : j ∈ ids <;>
      simp [hj, hm, Function.comp_def, Entity.reaching_reaching]

theorem entities_setRadius (radius : Int) : (w.setRadius radius).value.entities[j]? =
    w.entities[j]?.map (Entity.reaching radius) := by
  rw [value_setRadius, entities_reached]
  split
  · rfl
  · next hj =>
    -- an entity that is not visited is no player, and has nothing to reach for
    cases h : w.entities[j]? with
    | none => rfl
    | some e =>
      have he : ¬ e.isPlayer := fun he => hj ((mem_players w j).2 ⟨e, h, he⟩)
      simp [Entity.reaching, he]

end World
end Interest
end Fieldwatch
