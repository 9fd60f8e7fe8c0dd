import Fieldwatch.Proofs.Interest.Telling

/-! A change announces exactly the changes of sight that it makes. For a player and another entity,
`news` says what the player has to hear, from who is seen before and after the change; what it is
told is that and nothing else, in that order. -/

namespace Fieldwatch.Interest.World

variable (w y : World) (p s id : EntityId)

def sees : Bool :=
  match w.entities[p]?, w.entities[s]? with
  | some e, some d => e.isPlayer && e.view.contains d.sector
  | _, _ => false

def posOf : Vec2 := (w.entities[s]?.map Entity.pos).getD .zero

def multiplicity : Nat :=
  match w.entities[p]?, w.entities[s]? with
  | some e, some d => (e.sector.neighbourhood e.radius).count d.sector
  | _, _ => 0

def viewNews : List Sighting :=
  if w.sees p s then if y.sees p s then [] else [⟨.leave, s, y.posOf s⟩]
  else if y.sees p s then List.replicate (y.multiplicity p s) ⟨.snapshot, s, y.posOf s⟩ else []

def moveNews (pos : Vec2) : List Sighting :=
  match w.sees p s, y.sees p s with
  | true, true => [⟨.move, s, pos⟩]
  | true, false => [⟨.leave, s, pos⟩]
  | false, true => [⟨.enter, s, pos⟩, ⟨.move, s, pos⟩]
  | false, false => []

/-- The news of `s` for `p` in a change from `w` to `y`. To put in what is there is to take it out
first. -/
def news : Change → List Sighting
  | .add id _ pos =>
    if s = id then
      (if w.sees p s then [⟨.leave, s, w.posOf s⟩] else []) ++
        (if y.sees p s then [⟨.enter, s, pos⟩] else [])
    else if p = id ∧ y.sees p s then
      List.replicate (y.multiplicity p s) ⟨.snapshot, s, y.posOf s⟩
    else []
  | .remove id => if s = id ∧ w.sees p s then [⟨.leave, s, w.posOf s⟩] else []
  | .move id pos => if s = id then w.moveNews y p s pos else if p = id then w.viewNews y p s else []
  | .refresh _ => []
  | .setRadiusOf id _ => if p = id then w.viewNews y p s else []
  | .setRadius _ => w.viewNews y p s

theorem sees_eq_true_iff : w.sees p s = true ↔ ∃ e d, w.entities[p]? = some e ∧
    w.entities[s]? = some d ∧ e.isPlayer ∧ d.sector ∈ e.view := by
  unfold sees
  cases w.entities[p]? <;> cases w.entities[s]? <;> simp

variable {w y p s id} {e d : Entity}

theorem sees_of_some (hp : w.entities[p]? = some e) (hs : w.entities[s]? = some d) :
    w.sees p s = (e.isPlayer && e.view.contains d.sector) := by simp [sees, hp, hs]

theorem sees_of_none (h : w.entities[p]? = none ∨ w.entities[s]? = none) : w.sees p s = false := by
  unfold sees
  rcases h with h | h
  · simp [h]
  · cases w.entities[p]? <;> simp [h]

theorem sees_congr
    (hp : w.entities[p]?.map (fun e => (e.isPlayer, e.view)) =
      y.entities[p]?.map fun e => (e.isPlayer, e.view))
    (hs : w.entities[s]?.map Entity.sector = y.entities[s]?.map Entity.sector) :
    w.sees p s = y.sees p s := by
  unfold sees
  cases hw : w.entities[p]? <;> cases hy : y.entities[p]? <;>
    cases hw' : w.entities[s]? <;> cases hy' : y.entities[s]? <;> simp_all

theorem posOf_of_some (hs : w.entities[s]? = some d) : w.posOf s = d.pos := by simp [posOf, hs]

theorem multiplicity_of_some (hp : w.entities[p]? = some e) (hs : w.entities[s]? = some d) :
    w.multiplicity p s = (e.sector.neighbourhood e.radius).count d.sector := by
  simp [multiplicity, hp, hs]

theorem multiplicity_congr (hp : w.entities[p]? = y.entities[p]?)
    (hs : w.entities[s]?.map Entity.sector = y.entities[s]?.map Entity.sector) :
    w.multiplicity p s = y.multiplicity p s := by
  unfold multiplicity
  rw [hp]
  cases y.entities[p]? with
  | none => rfl
  | some e => cases hw : w.entities[s]? <;> cases hy : y.entities[s]? <;> simp_all

theorem viewNews_congr {x : World} (h : w.sees p s = x.sees p s) :
    w.viewNews y p s = x.viewNews y p s := by rw [viewNews, viewNews, h]

theorem viewNews_of_eq (h : w.sees p s = y.sees p s) : w.viewNews y p s = [] := by
  unfold viewNews
  rw [h]
  split <;> rfl

theorem Consistent.mem_watchers (h : w.Consistent) (hs : w.entities[s]? = some d) :
    p ∈ w.cells.watchers d.sector ↔ w.sees p s := by
  rw [h.linked.watchers, sees_eq_true_iff]
  constructor
  · rintro ⟨e, hp, hc⟩
    exact ⟨e, d, hp, hs, ((h.sound p e hp).mem_view _).1 hc |>.1, hc⟩
  · rintro ⟨e, d', hp, hs', -, hc⟩
    obtain rfl : d = d' := by simpa [hs] using hs'
    exact ⟨e, hp, hc⟩

theorem Consistent.one_le_multiplicity (h : w.Consistent) (hv : w.sees p s = true) :
    1 ≤ w.multiplicity p s := by
  obtain ⟨e, d, hp, hs, -, hc⟩ := (sees_eq_true_iff w p s).1 hv
  rw [multiplicity_of_some hp hs]
  exact List.count_pos_iff.2 (((h.sound p e hp).mem_view _).1 hc).2

theorem told_remove (h : w.Consistent) (hps : p ≠ s) : told (w.remove id).log p s =
    if s = id ∧ w.sees p s then [⟨.leave, s, w.posOf s⟩] else [] := by
  cases hid : w.entities[id]? with
  | none =>
    have hn : ¬ (s = id ∧ w.sees p s = true) := by
      rintro ⟨rfl, hv⟩
      rw [sees_of_none (.inr hid)] at hv
      cases hv
    simp [remove, hid, hn]
  | some e =>
    simp only [remove, hid, told_announce]
    by_cases hs : s = id
    · subst hs
      simp [hps, h.mem_watchers hid, posOf_of_some hid]
    · simp [hs, Ne.symm hs]

theorem told_refresh_of_ne (h : w.Linked) (hp : p ≠ id) : told (w.refresh id).log p s = [] := by
  unfold refresh
  split
  · rfl
  · split
    · simp [told_surveys_of_ne w h _ (.inl hp)]
    · rfl

theorem log_refresh (hid : w.entities[id]? = some e) (he : e.isPlayer) : (w.refresh id).log =
    (e.view.toList.filter (· ∉ e.refreshed.view)).flatMap (w.survey id .leave) ++
      ((e.sector.neighbourhood e.radius).filter (· ∉ e.view)).flatMap (w.survey id .snapshot) := by
  simp [refresh, hid, he, Entity.refreshed]

theorem told_refresh_self (h : w.Linked) (hps : p ≠ s) (hp : w.entities[p]? = some e)
    (he : e.isPlayer) : told (w.refresh p).log p s = w.viewNews (w.refresh p).value p s := by
  have hp' : (w.refresh p).value.entities[p]? = some e.refreshed := by simp [entities_refresh, hp]
  have hs : (w.refresh p).value.entities[s]? = w.entities[s]? := by
    simp [entities_refresh, Ne.symm hps]
  rw [log_refresh hp he, told_append]
  cases hd : w.entities[s]? with
  | none =>
    rw [told_surveys_of_ne w h _ (.inr hd), told_surveys_of_ne w h _ (.inr hd), viewNews_of_eq]
    · rfl
    · rw [sees_of_none (.inr hd), sees_of_none (.inr (hs.trans hd))]
  | some d =>
    rw [told_surveys w h hd (Ne.symm hps), told_surveys w h hd (Ne.symm hps), viewNews,
      sees_of_some hp hd, sees_of_some hp' (hs.trans hd), posOf_of_some (hs.trans hd),
      multiplicity_of_some hp' (hs.trans hd), count_filter_eq_ite, count_filter_eq_ite,
      (nodup_toList _).count]
    -- dropped and gained sectors are disjoint, so `s` is told of from one list only
    have hm : d.sector ∈ e.refreshed.view ↔ d.sector ∈ e.sector.neighbourhood e.radius := by
      simp [Entity.mem_view_refreshed, he]
    by_cases hv : d.sector ∈ e.view <;> by_cases hn : d.sector ∈ e.refreshed.view
    · simp [he, hv, hn]
    · simp [Std.ExtTreeSet.mem_toList, he, hv, hn]
    · simp [he, hv, hn]
    · simp [hv, hn, List.count_eq_zero.2 (mt hm.2 hn)]

theorem refresh_of_not_player (hid : ∀ e, w.entities[id]? = some e → ¬ e.isPlayer) :
    w.refresh id = pure w := by
  unfold refresh
  split
  · rfl
  · next e he => simp [hid e he]

theorem told_refresh (h : w.Linked) (hps : p ≠ s) : told (w.refresh id).log p s =
    if p = id then w.viewNews (w.refresh id).value p s else [] := by
  by_cases hp : p = id
  · subst hp
    rw [if_pos rfl]
    by_cases hid : ∃ e, w.entities[p]? = some e ∧ e.isPlayer
    · obtain ⟨e, hid, he⟩ := hid
      exact told_refresh_self h hps hid he
    · rw [refresh_of_not_player fun e h' he => hid ⟨e, h', he⟩]
      exact (viewNews_of_eq rfl).symm
  · rw [if_neg hp, told_refresh_of_ne h hp]

theorem Consistent.sees_refresh (h : w.Consistent) :
    (w.refresh id).value.sees p s = w.sees p s := by
  apply sees_congr <;> rw [h.entities_refresh]

theorem Consistent.told_refresh (h : w.Consistent) (hps : p ≠ s) :
    told (w.refresh id).log p s = [] := by
  rw [World.told_refresh h.linked hps, viewNews_of_eq h.sees_refresh.symm, ite_self]

theorem log_add (isPlayer : Bool) (pos : Vec2) : (w.add id isPlayer pos).log =
    (w.remove id).log ++ (((w.remove id).value.placed id isPlayer pos).refresh id).log ++
      (w.add id isPlayer pos).value.announce (w.grid.locate pos) ⟨.enter, id, pos⟩ := by
  have hg : (w.remove id).value.grid = w.grid := grid_remove ..
  rw [value_add, ← hg, List.append_assoc]
  simp only [add, Emit.log_bind, Emit.log_ofLog, Emit.log_pure, List.append_nil]
  rfl

theorem told_add (h : w.Consistent) (hps : p ≠ s) (isPlayer : Bool) (pos : Vec2) :
    told (w.add id isPlayer pos).log p s =
      w.news (w.add id isPlayer pos).value p s (.add id isPlayer pos) := by
  have hr : (w.remove id).value.entities[id]? = none := by simp [entities_remove]
  have hy : (w.add id isPlayer pos).value.Consistent := h.apply (.add id isPlayer pos)
  have hid : (w.add id isPlayer pos).value.entities[id]? =
      some (Entity.newcomer w isPlayer pos).refreshed := by simp [entities_add]
  have hn : ((w.remove id).value.placed id isPlayer pos).sees id s = false := by
    unfold sees
    cases ((w.remove id).value.placed id isPlayer pos).entities[s]? <;>
      simp [entities_placed, Entity.newcomer]
  have hw := hy.mem_watchers (p := p) hid
  simp only [Entity.sector_refreshed, Entity.newcomer] at hw
  rw [log_add, told_append, told_append, told_remove h hps,
    told_refresh ((h.linked.remove id).placed hr isPlayer pos) hps, told_announce, ← value_add, news]
  by_cases hs : s = id
  · subst hs
    simp [hps, hw]
  · by_cases hp : p = id
    · subst hp
      simp [hs, Ne.symm hs, viewNews, hn]
    · simp [hs, Ne.symm hs, hp]

theorem log_move (hid : w.entities[id]? = some e) (pos : Vec2) : (w.move id pos).log =
    (if e.sector = w.grid.locate pos then []
      else ((w.relocated id e pos).refresh id).log ++
        (w.move id pos).value.crossing id pos e.sector (w.grid.locate pos)) ++
      (w.move id pos).value.announce (w.grid.locate pos) ⟨.move, id, pos⟩ ++
      (if e.isPlayer then [⟨id, .move, id, pos⟩] else []) := by
  rw [value_move hid]
  by_cases hs : e.sector = w.grid.locate pos
  · simp [move, hid, hs, relocated, Entity.movedTo]
  · simp [move, hid, hs, relocated, Entity.movedTo]

theorem Linked.mem_watchers_congr (hw : w.Linked) (hy : y.Linked)
    (hp : y.entities[p]? = w.entities[p]?) (c : Sector) :
    p ∈ y.cells.watchers c ↔ p ∈ w.cells.watchers c := by rw [hy.watchers, hw.watchers, hp]

theorem told_move_subject (h : w.Consistent) (hps : p ≠ s) (hs : w.entities[s]? = some e)
    (pos : Vec2) : told (w.move s pos).log p s = w.moveNews (w.move s pos).value p s pos := by
  have hy : (w.move s pos).value.Consistent := h.apply (.move s pos)
  have hs' : (w.move s pos).value.entities[s]? = some (e.arrivedAt w.grid pos) := by
    simp [entities_move, hs]
  have hold : p ∈ (w.move s pos).value.cells.watchers e.sector ↔ w.sees p s := by
    rw [h.linked.mem_watchers_congr hy.linked (by simp [entities_move, hps]), h.mem_watchers hs]
  have hnew : p ∈ (w.move s pos).value.cells.watchers (w.grid.locate pos) ↔
      (w.move s pos).value.sees p s := by
    rw [← hy.mem_watchers hs', Entity.sector_arrivedAt]
  have hself : told (if e.isPlayer then [⟨s, .move, s, pos⟩] else []) p s = [] := by
    split <;> simp [told_cons, Ne.symm hps]
  -- those who see `s` hear of the move, and of the crossing if they see it on one side only
  rw [log_move hs, told_append, told_append, told_announce, hself, moveNews]
  by_cases hc : e.sector = w.grid.locate pos
  · have he : w.sees p s = (w.move s pos).value.sees p s := by
      rw [Bool.eq_iff_iff, ← hold, ← hnew, hc]
    cases hv : (w.move s pos).value.sees p s <;> simp_all
  · rw [if_neg hc, told_append, told_refresh_of_ne (h.linked.relocated hs pos) hps, told_crossing]
    cases hv : w.sees p s <;> cases hn : (w.move s pos).value.sees p s <;> simp_all

theorem told_move_watcher (h : w.Consistent) (hps : p ≠ s) (hp : w.entities[p]? = some e)
    (pos : Vec2) : told (w.move p pos).log p s = w.viewNews (w.move p pos).value p s := by
  have hself : told (if e.isPlayer then [⟨p, .move, p, pos⟩] else []) p s = [] := by
    split <;> simp [told_cons, hps]
  have hr : w.sees p s = (w.relocated p e pos).sees p s := by
    apply sees_congr
    · simp [entities_relocated hp, hp, Entity.movedTo]
    · simp [entities_relocated hp, Ne.symm hps]
  rw [log_move hp, told_append, told_append, told_announce, hself]
  by_cases hc : e.sector = w.grid.locate pos
  · have hy : (w.move p pos).value = w.relocated p e pos := by rw [value_move hp, if_pos hc]
    simp [hc, hps, hy, viewNews_of_eq hr]
  · have hy : (w.move p pos).value = ((w.relocated p e pos).refresh p).value := by
      rw [value_move hp, if_neg hc]
    rw [if_neg hc, told_append, told_refresh (h.linked.relocated hp pos) hps, told_crossing, hy,
      viewNews_congr hr]
    simp [hps]

theorem told_move_of_ne (h : w.Consistent) (hp : p ≠ id) (hs : s ≠ id) (pos : Vec2) :
    told (w.move id pos).log p s = [] := by
  cases hid : w.entities[id]? with
  | none => simp [move_of_none hid]
  | some e =>
    have hself : told (if e.isPlayer then [⟨id, .move, id, pos⟩] else []) p s = [] := by
      split <;> simp [told_cons, Ne.symm hp]
    rw [log_move hid, told_append, told_append, told_announce, hself]
    split
    · simp [Ne.symm hs]
    · rw [told_append, told_refresh_of_ne (h.linked.relocated hid pos) hp, told_crossing]
      simp [Ne.symm hs]

theorem told_move (h : w.Consistent) (hps : p ≠ s) (pos : Vec2) :
    told (w.move id pos).log p s = w.news (w.move id pos).value p s (.move id pos) := by
  rw [news]
  cases hid : w.entities[id]? with
  | none =>
    rw [move_of_none hid]
    by_cases hs : s = id
    · subst hs
      simp [moveNews, sees_of_none (.inr hid)]
    · simp [hs, viewNews_of_eq]
  | some e =>
    by_cases hs : s = id
    · subst hs
      rw [if_pos rfl, told_move_subject h hps hid]
    · by_cases hp : p = id
      · subst hp
        rw [if_neg hs, if_pos rfl, told_move_watcher h hps hid]
      · rw [if_neg hs, if_neg hp, told_move_of_ne h hp hs]

theorem told_setRadiusOf (h : w.Linked) (hps : p ≠ s) (radius : Int) :
    told (w.setRadiusOf id radius).log p s =
      if p = id then w.viewNews (w.setRadiusOf id radius).value p s else [] := by
  by_cases hid : ∃ e, w.entities[id]? = some e ∧ e.isPlayer
  · obtain ⟨e, hid, he⟩ := hid
    rw [setRadiusOf_of_player hid he, told_refresh (h.retuned hid radius) hps]
    split
    · next hp =>
      subst hp
      apply viewNews_congr
      apply sees_congr
      · simp [entities_retuned hid, hid, Entity.tuned]
      · simp [entities_retuned hid, Ne.symm hps]
    · rfl
  · rw [setRadiusOf_of_not_player fun e h' he => hid ⟨e, h', he⟩]
    simp [viewNews_of_eq]

theorem sees_setRadiusOf_of_ne (hp : p ≠ id) (radius : Int) :
    (w.setRadiusOf id radius).value.sees p s = w.sees p s := by
  apply sees_congr
  · simp [entities_setRadiusOf, hp]
  · rw [entities_setRadiusOf]
    by_cases hs : s = id <;> simp [hs, Function.comp_def]

theorem map_entities_reached {α : Type} {f : Entity → α} {radius : Int}
    (hf : ∀ e : Entity, f (e.reaching radius) = f e) (ids : List EntityId) (s : EntityId) :
    (w.reached radius ids).entities[s]?.map f = w.entities[s]?.map f := by
  rw [entities_reached]
  split
  · simp [Function.comp_def, hf]
  · rfl

theorem viewNews_reached_of_not_mem {ids : List EntityId} (hp : p ∉ ids) (radius : Int) :
    w.viewNews (y.reached radius ids) p s = w.viewNews y p s := by
  have hp' : (y.reached radius ids).entities[p]? = y.entities[p]? := by simp [entities_reached, hp]
  have hs : (y.reached radius ids).entities[s]?.map Entity.sector =
      y.entities[s]?.map Entity.sector := map_entities_reached (by simp) ids s
  have hv : (y.reached radius ids).sees p s = y.sees p s := sees_congr (by rw [hp']) hs
  have hm : (y.reached radius ids).multiplicity p s = y.multiplicity p s :=
    multiplicity_congr hp' hs
  have ho : (y.reached radius ids).posOf s = y.posOf s := by
    rw [posOf, posOf, map_entities_reached (by simp)]
  rw [viewNews, viewNews, hv, hm, ho]

theorem told_reached (h : w.Linked) (hps : p ≠ s) (radius : Int) {ids : List EntityId}
    (hids : ids.Nodup) :
    told (ids.foldlM (fun (w : World) id => w.setRadiusOf id radius) w).log p s =
      if p ∈ ids then w.viewNews (w.reached radius ids) p s else [] := by
  induction ids generalizing w with
  | nil => simp
  | cons id ids ih =>
    obtain ⟨hn, hids⟩ := List.nodup_cons.1 hids
    have hr : w.reached radius (id :: ids) = (w.setRadiusOf id radius).value.reached radius ids := rfl
    rw [List.foldlM_cons, Emit.log_bind, told_append, told_setRadiusOf h hps,
      ih (h.setRadiusOf id radius) hids, hr]
    by_cases hp : p = id
    · subst hp
      simp [hn, viewNews_reached_of_not_mem]
    · rw [if_neg hp, List.nil_append, viewNews_congr (sees_setRadiusOf_of_ne hp radius)]
      simp [hp]

theorem sees_eq_false_of_not_player (hp : p ∉ w.players) : w.sees p s = false := by
  rw [Bool.eq_false_iff]
  intro hv
  obtain ⟨e, -, he, -, hpl, -⟩ := (sees_eq_true_iff w p s).1 hv
  exact hp ((mem_players w p).2 ⟨e, he, hpl⟩)

theorem mem_players_setRadius (radius : Int) :
    p ∈ (w.setRadius radius).value.players ↔ p ∈ w.players := by
  simp only [mem_players, entities_setRadius]
  cases w.entities[p]? <;> simp

theorem told_setRadius (h : w.Linked) (hps : p ≠ s) (radius : Int) :
    told (w.setRadius radius).log p s = w.viewNews (w.setRadius radius).value p s := by
  have h' : World.Linked { w with radius := max radius 1 } := ⟨h.residents, h.watchers⟩
  have ht := told_reached h' hps radius (nodup_players w)
  rw [← value_setRadius] at ht
  refine ht.trans ?_
  split
  · rfl
  · next hp =>
    have hp' : p ∉ (w.setRadius radius).value.players := mt (mem_players_setRadius radius).1 hp
    rw [viewNews_of_eq]
    rw [sees_eq_false_of_not_player hp, sees_eq_false_of_not_player hp']

/-- At any point of any history of a world, a change tells a player of another entity what the news
are and nothing else; and what a player comes to see, it is shown at least once. -/
theorem told_after_eq_news (size : Float32) (radius : Int) (cs : List Change) (c : Change)
    {p s : EntityId} (hps : p ≠ s) :
    let w := (empty size radius).after cs
    let r := w.apply c
    told r.log p s = w.news r.value p s c ∧
      (r.value.sees p s → 1 ≤ r.value.multiplicity p s) := by
  intro w r
  have h : w.Consistent := (consistent_empty size radius).after cs
  refine ⟨?_, (h.apply c).one_le_multiplicity⟩
  cases c with
  | add id isPlayer pos => exact told_add h hps isPlayer pos
  | remove id => exact told_remove h hps
  | move id pos => exact told_move h hps pos
  | refresh id => exact h.told_refresh hps
  | setRadiusOf id radius => exact told_setRadiusOf h.linked hps radius
  | setRadius radius => exact told_setRadius h.linked hps radius

/-- One that comes within sight of another: who stands still hears that it entered and moved, who
moved is shown what stood there. -/
theorem told_approaching :
    (2 : EntityId) ≠ 1 ∧ (1 : EntityId) ≠ 2 ∧
    let w := (empty 10 1).after [.add 2 true ⟨5, 5⟩, .add 1 true ⟨25, 5⟩]
    let r := w.apply (.move 1 ⟨15, 5⟩)
    told r.log 2 1 = w.news r.value 2 1 (.move 1 ⟨15, 5⟩) ∧
      (told r.log 2 1).map (·.kind) = [.enter, .move] ∧
      told r.log 1 2 = w.news r.value 1 2 (.move 1 ⟨15, 5⟩) ∧
      (told r.log 1 2).map (·.kind) = [.snapshot] :=
  have h21 : (2 : EntityId) ≠ 1 := by decide
  have h12 : (1 : EntityId) ≠ 2 := by decide
  ⟨h21, h12, (told_after_eq_news 10 1 [.add 2 true ⟨5, 5⟩, .add 1 true ⟨25, 5⟩] _ h21).1,
    by decide +kernel,
    (told_after_eq_news 10 1 [.add 2 true ⟨5, 5⟩, .add 1 true ⟨25, 5⟩] _ h12).1, by decide +kernel⟩

end Fieldwatch.Interest.World
