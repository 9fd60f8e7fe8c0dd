import Fieldwatch.Proofs.Interest.Sufficiency

/-! What a player can know of the world by listening. `replay` is what it has written down who notes
every sighting that it is sent, and `sight` is all there is to know for it: where each entity is
that it sees, and where it is itself. Whoever knew its sight of the world before a change knows its
sight of the world afterwards. -/

namespace Fieldwatch

namespace Sighting

variable (g : Sighting)

def place? : Option Vec2 := if g.kind = .leave then none else some g.pos

def note (known : IdMap Vec2) : IdMap Vec2 :=
  match g.kind with
  | .leave => known.erase g.subject
  | .enter | .move | .snapshot => known.insert g.subject g.pos

theorem getElem?_note (known : IdMap Vec2) (s : EntityId) :
    (g.note known)[s]? = if s = g.subject then g.place? else known[s]? := by
  cases hk : g.kind <;> simp [note, place?, hk, IdMap.getElem?_insert, IdMap.getElem?_erase]

end Sighting

namespace Interest

def lastKnown (known : Option Vec2) (l : List Sighting) : Option Vec2 :=
  l.foldl (fun _ g => g.place?) known

@[simp] theorem lastKnown_nil (known : Option Vec2) : lastKnown known [] = known := rfl

@[simp] theorem lastKnown_append (known : Option Vec2) (l m : List Sighting) :
    lastKnown known (l ++ m) = lastKnown (lastKnown known l) m := List.foldl_append

theorem lastKnown_replicate (known : Option Vec2) {k : Nat} (hk : 1 ≤ k) (g : Sighting) :
    lastKnown known (List.replicate k g) = g.place? := by
  obtain ⟨k, rfl⟩ := Nat.exists_eq_add_of_le' hk
  rw [List.replicate_succ', lastKnown_append]
  rfl

def replay (p : EntityId) (ds : List Delivery) : IdMap Vec2 :=
  (ds.filter (·.watcher = p)).foldl (fun known d => d.sighting.note known) ∅

theorem getElem?_replay (p s : EntityId) (ds : List Delivery) :
    (replay p ds)[s]? = lastKnown none (told ds p s) := by
  have key : ∀ (ds : List Delivery) (known : IdMap Vec2),
      ((ds.filter (·.watcher = p)).foldl (fun known d => d.sighting.note known) known)[s]? =
        lastKnown known[s]? (told ds p s) := by
    intro ds
    induction ds with
    | nil => exact fun _ => rfl
    | cons d ds ih =>
      intro known
      by_cases hp : d.watcher = p
      · rw [List.filter_cons_of_pos (by simpa using hp), List.foldl_cons, ih,
          Sighting.getElem?_note, told_cons]
        by_cases hs : s = d.sighting.subject
        · rw [if_pos hs, if_pos ⟨hp, hs.symm⟩]
          rfl
        · rw [if_neg hs, if_neg fun h => hs h.2.symm]
      · rw [List.filter_cons_of_neg (by simpa using hp), ih, told_cons, if_neg fun h => hp h.1]
  have h := key ds ∅
  rwa [Std.ExtTreeMap.getElem?_empty] at h

namespace World

variable {w y : World} {p s id : EntityId}

def sight (w : World) (p s : EntityId) : Option Vec2 :=
  if s = p ∧ p ∈ w.players ∨ w.sees p s then some (w.posOf s) else none

theorem sight_of_ne (hps : p ≠ s) :
    w.sight p s = if w.sees p s then some (w.posOf s) else none := by
  simp [sight, Ne.symm hps]

theorem mem_players_of_sees (h : w.sees p s) : p ∈ w.players := by
  obtain ⟨e, -, he, -, hpl, -⟩ := (sees_eq_true_iff w p s).1 h
  exact (mem_players w p).2 ⟨e, he, hpl⟩

theorem sight_self : w.sight p p = if p ∈ w.players then some (w.posOf p) else none := by
  rw [sight]
  congr 1
  simpa using mem_players_of_sees

theorem sight_self_congr (hp : p ∈ y.players ↔ p ∈ w.players) (hpos : y.posOf p = w.posOf p) :
    w.sight p p = y.sight p p := by
  rw [sight_self, sight_self, hpos]
  simp only [hp]

theorem sight_congr (hps : p ≠ s) (hv : w.sees p s = y.sees p s) (hpos : y.posOf s = w.posOf s) :
    w.sight p s = y.sight p s := by
  rw [sight_of_ne hps, sight_of_ne hps, hv, hpos]

theorem posOf_congr (h : y.entities[s]?.map Entity.pos = w.entities[s]?.map Entity.pos) :
    y.posOf s = w.posOf s := by rw [posOf, posOf, h]

theorem lastKnown_viewNews (hps : p ≠ s) (hpos : y.posOf s = w.posOf s)
    (hm : y.sees p s → 1 ≤ y.multiplicity p s) :
    lastKnown (w.sight p s) (w.viewNews y p s) = y.sight p s := by
  rw [sight_of_ne hps, sight_of_ne hps, viewNews, hpos]
  cases hw : w.sees p s <;> cases hy : y.sees p s
  · rfl
  · have hk := lastKnown_replicate none (hm hy) ⟨.snapshot, s, w.posOf s⟩
    simpa [Sighting.place?] using hk
  · rfl
  · rfl

theorem lastKnown_moveNews (hps : p ≠ s) {pos : Vec2} (hpos : y.sees p s → y.posOf s = pos) :
    lastKnown (w.sight p s) (w.moveNews y p s pos) = y.sight p s := by
  rw [sight_of_ne hps, sight_of_ne hps, moveNews]
  cases hw : w.sees p s <;> cases hy : y.sees p s
  · rfl
  · simp [lastKnown, Sighting.place?, hpos hy]
  · rfl
  · simp [lastKnown, Sighting.place?, hpos hy]

theorem isSome_of_sees (h : w.sees p s) : w.entities[s]?.isSome := by
  obtain ⟨-, d, -, hd, -⟩ := (sees_eq_true_iff w p s).1 h
  rw [hd, Option.isSome_some]

theorem posOf_add (isPlayer : Bool) (pos : Vec2) :
    (w.add id isPlayer pos).value.posOf id = pos := by
  simp [posOf, entities_add, Entity.newcomer]

theorem posOf_add_of_ne (hs : s ≠ id) (isPlayer : Bool) (pos : Vec2) :
    (w.add id isPlayer pos).value.posOf s = w.posOf s :=
  posOf_congr (by rw [entities_add, if_neg hs])

theorem posOf_remove_of_ne (hs : s ≠ id) : (w.remove id).value.posOf s = w.posOf s :=
  posOf_congr (by rw [entities_remove, if_neg hs])

theorem posOf_move (hid : w.entities[id]?.isSome) (pos : Vec2) :
    (w.move id pos).value.posOf id = pos := by
  obtain ⟨e, he⟩ := Option.isSome_iff_exists.1 hid
  simp [posOf, entities_move, he]

theorem posOf_move_of_ne (hs : s ≠ id) (pos : Vec2) : (w.move id pos).value.posOf s = w.posOf s :=
  posOf_congr (by rw [entities_move, if_neg hs])

theorem posOf_setRadius (radius : Int) : (w.setRadius radius).value.posOf s = w.posOf s := by
  apply posOf_congr
  rw [entities_setRadius, Option.map_map]
  congr 1
  funext e
  exact e.pos_reaching radius

/-- Fails for one that is put in anew: it is told of what it sees now, not of what it saw before. -/
theorem lastKnown_add (h : w.Consistent) (hp : p ≠ id) (isPlayer : Bool) (pos : Vec2)
    (s : EntityId) :
    lastKnown (w.sight p s) (told (w.add id isPlayer pos).log p s) =
      (w.add id isPlayer pos).value.sight p s := by
  by_cases hps : p = s
  · subst hps
    rw [told_add_same h.linked, lastKnown_nil]
    refine sight_self_congr ?_ (posOf_add_of_ne hp isPlayer pos)
    rw [mem_players_add, if_neg hp]
  rw [told_add h hps, news]
  by_cases hs : s = id
  · subst hs
    rw [if_pos rfl, sight_of_ne hps, sight_of_ne hps, posOf_add]
    cases hw : w.sees p s <;> cases hy : (w.add s isPlayer pos).value.sees p s <;>
      simp [lastKnown, Sighting.place?]
  · rw [if_neg hs, if_neg fun hn => hp hn.1, lastKnown_nil]
    refine sight_congr hps ?_ (posOf_add_of_ne hs isPlayer pos)
    apply sees_congr <;> simp [entities_add, hp, hs]

theorem lastKnown_remove (h : w.Consistent) (hp : p ≠ id) (s : EntityId) :
    lastKnown (w.sight p s) (told (w.remove id).log p s) = (w.remove id).value.sight p s := by
  by_cases hps : p = s
  · subst hps
    rw [told_remove_same, lastKnown_nil]
    refine sight_self_congr ?_ (posOf_remove_of_ne hp)
    rw [mem_players_remove, and_iff_right hp]
  rw [told_remove h hps]
  by_cases hs : s = id
  · subst hs
    rw [sight_of_ne hps, sight_of_ne hps, sees_remove_self (.inr rfl)]
    cases hw : w.sees p s <;> simp [lastKnown, Sighting.place?]
  · rw [if_neg fun hn => hs hn.1, lastKnown_nil]
    exact sight_congr hps (sees_remove_of_ne hp hs) (posOf_remove_of_ne hs)

theorem lastKnown_move_self (h : w.Consistent) (id : EntityId) (pos : Vec2) :
    lastKnown (w.sight p p) (told (w.move id pos).log p p) = (w.move id pos).value.sight p p := by
  rw [told_move_same h.linked]
  by_cases hm : p = id ∧ p ∈ w.players
  · obtain ⟨rfl, hp⟩ := hm
    obtain ⟨e, he, -⟩ := (mem_players w p).1 hp
    rw [if_pos ⟨rfl, hp⟩, sight_self, sight_self, if_pos ((mem_players_move pos).2 hp),
      posOf_move (by rw [he]; rfl)]
    rfl
  · rw [if_neg hm, lastKnown_nil, sight_self, sight_self]
    simp only [mem_players_move]
    split
    · next hp => rw [posOf_move_of_ne fun hid => hm ⟨hid, hp⟩]
    · rfl

theorem lastKnown_move (h : w.Consistent) (id : EntityId) (pos : Vec2) (s : EntityId) :
    lastKnown (w.sight p s) (told (w.move id pos).log p s) = (w.move id pos).value.sight p s := by
  by_cases hps : p = s
  · subst hps
    exact lastKnown_move_self h id pos
  have hy : (w.move id pos).value.Consistent := h.apply (.move id pos)
  rw [told_move h hps, news]
  by_cases hs : s = id
  · subst hs
    rw [if_pos rfl]
    refine lastKnown_moveNews hps fun hv => posOf_move ?_ pos
    have hs := isSome_of_sees hv
    rwa [entities_move, if_pos rfl, Option.isSome_map] at hs
  · by_cases hp : p = id
    · rw [if_neg hs, if_pos hp]
      exact lastKnown_viewNews hps (posOf_move_of_ne hs pos) hy.one_le_multiplicity
    · rw [if_neg hs, if_neg hp, lastKnown_nil]
      refine sight_congr hps ?_ (posOf_move_of_ne hs pos)
      apply sees_congr <;> simp [entities_move, hp, hs]

theorem lastKnown_setRadius (h : w.Consistent) (radius : Int) (s : EntityId) :
    lastKnown (w.sight p s) (told (w.setRadius radius).log p s) =
      (w.setRadius radius).value.sight p s := by
  have hy : (w.setRadius radius).value.Consistent := h.apply (.setRadius radius)
  by_cases hps : p = s
  · subst hps
    rw [told_setRadius_same h.linked, lastKnown_nil]
    exact sight_self_congr (mem_players_setRadius radius) (posOf_setRadius radius)
  · rw [told_setRadius h.linked hps]
    exact lastKnown_viewNews hps (posOf_setRadius radius) hy.one_le_multiplicity

theorem lastKnown_add_newcomer (h : w.Consistent) (hps : p ≠ s) (isPlayer : Bool)
    (pos : Vec2) : lastKnown none (told (w.add p isPlayer pos).log p s) =
      (w.add p isPlayer pos).value.sight p s := by
  have hy : (w.add p isPlayer pos).value.Consistent := h.apply (.add p isPlayer pos)
  rw [told_add h hps, news, if_neg (Ne.symm hps), sight_of_ne hps]
  cases hv : (w.add p isPlayer pos).value.sees p s
  · simp
  · have hk := lastKnown_replicate none (hy.one_le_multiplicity hv)
      ⟨.snapshot, s, (w.add p isPlayer pos).value.posOf s⟩
    simpa [Sighting.place?] using hk

end World
end Interest
end Fieldwatch
