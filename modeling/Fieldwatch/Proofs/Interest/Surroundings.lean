import Fieldwatch.Proofs.Interest.Index

/-! How often a neighbourhood lists a sector. Coordinates below zero are left out of a span, those
beyond the last one are taken for the last one. A span is therefore the existing coordinates in
increasing order, followed by the last one once for every coordinate that is beyond it: a
neighbourhood that reaches beyond the last row or column repeats that row or column, and a player
that comes to see it is shown those who stand there as many times. -/

namespace Fieldwatch.Sector

def Precedes (s t : Sector) : Prop := s.y < t.y ∨ s.y = t.y ∧ s.x < t.x

def reach (centre radius : Int) : List Int :=
  ((List.range (2 * radius + 1).toNat).map fun (i : Nat) => centre - radius + i).filter fun i =>
    0 ≤ i ∧ i ≤ maxCoord

def overhang (centre radius : Int) : Nat := (centre + radius - maxCoord).toNat

def copies (centre radius i : Int) : Nat :=
  if 0 ≤ i ∧ i ≤ maxCoord ∧ (i - centre).natAbs ≤ radius then
    if i = maxCoord then overhang centre radius + 1 else 1
  else 0

variable {centre radius i : Int} {c s t : Sector}

theorem mem_reach : i ∈ reach centre radius ↔
    0 ≤ i ∧ i ≤ maxCoord ∧ (i - centre).natAbs ≤ radius := by
  simp only [reach, List.mem_filter, List.mem_map, List.mem_range, decide_eq_true_eq]
  constructor
  · rintro ⟨⟨k, hk, rfl⟩, h⟩
    omega
  · rintro ⟨h0, h1, h2⟩
    exact ⟨⟨(i - (centre - radius)).toNat, by omega, by omega⟩, h0, h1⟩

theorem pairwise_reach (centre radius : Int) : (reach centre radius).Pairwise (· < ·) := by
  refine List.Pairwise.filter _ (List.pairwise_map.2 ?_)
  exact List.pairwise_lt_range.imp fun h => by omega

theorem nodup_reach (centre radius : Int) : (reach centre radius).Nodup :=
  (pairwise_reach centre radius).imp Int.ne_of_lt

theorem filter_min_range {low : Int} (h : low ≤ maxCoord + 1) (n : Nat) :
    ((List.range n).map fun (i : Nat) => min (low + i) maxCoord).filter (0 ≤ ·) =
      (((List.range n).map fun (i : Nat) => low + i).filter fun i => 0 ≤ i ∧ i ≤ maxCoord) ++
        List.replicate (low + n - (maxCoord + 1)).toNat maxCoord := by
  induction n with
  | zero =>
    have h0 : (low + (0 : Nat) - (maxCoord + 1)).toNat = 0 := by omega
    rw [h0]
    rfl
  | succ n ih =>
    rw [List.range_succ, List.map_append, List.map_append, List.filter_append, List.filter_append,
      ih]
    by_cases hn : low + n ≤ maxCoord
    · have h0 : (low + n - (maxCoord + 1)).toNat = 0 := by omega
      have h1 : (low + (n + 1 : Nat) - (maxCoord + 1)).toNat = 0 := by omega
      rw [h0, h1, List.map_singleton, Int.min_eq_left hn]
      simp [hn, List.filter_cons]
    · have h1 : (low + (n + 1 : Nat) - (maxCoord + 1)).toNat =
          (low + n - (maxCoord + 1)).toNat + 1 := by omega
      have hm : min (low + n) maxCoord = maxCoord := Int.min_eq_right (by omega)
      rw [h1, List.replicate_succ']
      simp [hn, hm, show (0 : Int) ≤ maxCoord by decide]

theorem span_eq (h : centre ≤ maxCoord) (hr : 0 ≤ radius) : span centre radius =
    reach centre radius ++ List.replicate (overhang centre radius) maxCoord := by
  have hk : (centre - radius + (2 * radius + 1).toNat - (maxCoord + 1)).toNat =
      overhang centre radius := by
    unfold overhang
    omega
  rw [span, filter_min_range (by omega), hk, reach]

theorem count_span (h : centre ≤ maxCoord) (hr : 0 ≤ radius) (i : Int) :
    (span centre radius).count i = copies centre radius i := by
  rw [span_eq h hr, List.count_append, (nodup_reach centre radius).count, List.count_replicate,
    copies]
  simp only [mem_reach]
  by_cases hi : i = maxCoord
  · subst hi
    split
    · simp [Nat.add_comm]
    · next hn =>
      have : overhang centre radius = 0 := by
        unfold overhang maxCoord at *
        omega
      simp [this]
  · simp [hi, Ne.symm hi]

theorem count_row (xs : List Int) (y : Int) (s : Sector) :
    (xs.map fun x => (⟨x, y⟩ : Sector)).count s = if s.y = y then xs.count s.x else 0 := by
  obtain ⟨sx, sy⟩ := s
  induction xs with
  | nil => simp
  | cons x xs ih =>
    rw [List.map_cons, List.count_cons, ih, List.count_cons]
    by_cases hy : y = sy
    · by_cases hx : x = sx <;> simp [hy, hx]
    · simp [hy, Ne.symm hy]

theorem count_rows (xs ys : List Int) (s : Sector) :
    (ys.flatMap fun y => xs.map fun x => (⟨x, y⟩ : Sector)).count s =
      ys.count s.y * xs.count s.x := by
  induction ys with
  | nil => simp
  | cons y ys ih =>
    rw [List.flatMap_cons, List.count_append, ih, count_row, List.count_cons]
    by_cases hy : y = s.y
    · simp [hy, Nat.add_mul, Nat.add_comm]
    · simp [hy, Ne.symm hy]

theorem count_neighbourhood (hx : c.x ≤ maxCoord) (hy : c.y ≤ maxCoord) (hr : 0 ≤ radius)
    (s : Sector) : (c.neighbourhood radius).count s =
      copies c.y radius s.y * copies c.x radius s.x := by
  rw [neighbourhood, count_rows, count_span hy hr, count_span hx hr]

theorem pairwise_rows {xs ys : List Int} (hx : xs.Pairwise (· < ·)) (hy : ys.Pairwise (· < ·)) :
    (ys.flatMap fun y => xs.map fun x => (⟨x, y⟩ : Sector)).Pairwise Precedes := by
  refine List.pairwise_flatMap.2
    ⟨fun y _ => List.pairwise_map.2 (hx.imp fun h => .inr ⟨rfl, h⟩), ?_⟩
  refine hy.imp fun {a b} hab s hs t ht => .inl ?_
  obtain ⟨-, -, rfl⟩ := List.mem_map.1 hs
  obtain ⟨-, -, rfl⟩ := List.mem_map.1 ht
  exact hab

theorem nodup_of_precedes {l : List Sector} (h : l.Pairwise Precedes) : l.Nodup := by
  refine h.imp fun {s t} hst he => ?_
  subst he
  rcases hst with h | ⟨-, h⟩ <;> exact Int.lt_irrefl _ h

theorem overhang_eq_zero : overhang centre radius = 0 ↔ centre + radius ≤ maxCoord := by
  unfold overhang
  omega

theorem copies_le_one (h : centre + radius ≤ maxCoord) (i : Int) : copies centre radius i ≤ 1 := by
  unfold copies
  rw [overhang_eq_zero.2 h]
  split
  · split <;> exact Nat.le_refl _
  · exact Nat.zero_le _

theorem one_le_copies (h : i ∈ reach centre radius) : 1 ≤ copies centre radius i := by
  rw [copies, if_pos (mem_reach.1 h)]
  split <;> omega

theorem two_le_copies (h : centre ≤ maxCoord) (hr : maxCoord < centre + radius) :
    2 ≤ copies centre radius maxCoord := by
  unfold copies overhang maxCoord at *
  rw [if_pos (by omega), if_pos rfl]
  omega

theorem within_of_nodup (hx : 0 ≤ c.x ∧ c.x ≤ maxCoord) (hy : 0 ≤ c.y ∧ c.y ≤ maxCoord)
    (hr : 0 ≤ radius) (hn : (c.neighbourhood radius).Nodup) :
    c.x + radius ≤ maxCoord ∧ c.y + radius ≤ maxCoord := by
  have hself : c.x ∈ reach c.x radius ∧ c.y ∈ reach c.y radius := by
    simp only [mem_reach]
    omega
  have hle : ∀ s : Sector, copies c.y radius s.y * copies c.x radius s.x ≤ 1 := by
    intro s
    rw [← count_neighbourhood hx.2 hy.2 hr, hn.count]
    split <;> omega
  constructor
  · refine Int.not_lt.1 fun hlt => ?_
    exact absurd (hle ⟨maxCoord, c.y⟩)
      (Nat.not_le.2 (Nat.mul_le_mul (one_le_copies hself.2) (two_le_copies hx.2 hlt)))
  · refine Int.not_lt.1 fun hlt => ?_
    exact absurd (hle ⟨c.x, maxCoord⟩)
      (Nat.not_le.2 (Nat.mul_le_mul (two_le_copies hy.2 hlt) (one_le_copies hself.1)))

end Fieldwatch.Sector

namespace Fieldwatch.Interest

def Outward (log : List Delivery) : Prop :=
  ∀ d ∈ log, d.sighting.kind = .snapshot → d.sighting.subject ≠ d.watcher

def shown (log : List Delivery) (p s : EntityId) : Nat :=
  (told log p s).countP (·.kind = .snapshot)

variable {l m : List Delivery} {p s : EntityId}

theorem outward_nil : Outward [] := by simp [Outward]

theorem Outward.append (hl : Outward l) (hm : Outward m) : Outward (l ++ m) := fun d hd =>
  (List.mem_append.1 hd).elim (hl d) (hm d)

theorem Outward.filter (h : Outward l) (q : Delivery → Bool) : Outward (l.filter q) := fun d hd =>
  h d (List.mem_filter.1 hd).1

theorem outward_of_kind {k : SightingKind} (h : ∀ d ∈ l, d.sighting.kind = k)
    (hk : k ≠ .snapshot) : Outward l := fun d hd he => absurd ((h d hd).symm.trans he) hk

theorem Outward.shown_self (h : Outward l) (p : EntityId) : shown l p p = 0 := by
  refine List.countP_eq_zero.2 fun g hg => ?_
  simp only [told, List.mem_map, List.mem_filter, decide_eq_true_eq] at hg
  obtain ⟨d, ⟨hd, hp, hs⟩, rfl⟩ := hg
  simpa using fun hk => h d hd hk (hs.trans hp.symm)

namespace World

variable {w : World} {id : EntityId}

theorem outward_announce (c : Sector) {about : Sighting} (h : about.kind ≠ .snapshot) :
    Outward (w.announce c about) := by
  refine outward_of_kind (k := about.kind) (fun d hd => ?_) h
  obtain ⟨-, -, rfl⟩ := List.mem_map.1 hd
  rfl

theorem outward_surveys (kind : SightingKind) (l : List Sector) :
    Outward (l.flatMap (w.survey id kind)) := by
  intro d hd _
  obtain ⟨c, -, hd⟩ := List.mem_flatMap.1 hd
  obtain ⟨o, ho, hd⟩ := List.mem_filterMap.1 hd
  obtain ⟨e, -, rfl⟩ := Option.map_eq_some_iff.1 hd
  simpa using (List.mem_filter.1 ho).2

theorem outward_refresh (w : World) (id : EntityId) : Outward (w.refresh id).log := by
  unfold refresh
  split
  · exact outward_nil
  · split
    · exact (outward_surveys _ _).append (outward_surveys _ _)
    · exact outward_nil

theorem outward_remove (w : World) (id : EntityId) : Outward (w.remove id).log := by
  unfold remove
  split
  · exact outward_nil
  · exact outward_announce _ (by simp)

theorem outward_add (w : World) (id : EntityId) (isPlayer : Bool) (pos : Vec2) :
    Outward (w.add id isPlayer pos).log := by
  rw [log_add]
  exact ((outward_remove _ _).append (outward_refresh _ _)).append (outward_announce _ (by simp))

theorem outward_move (w : World) (id : EntityId) (pos : Vec2) : Outward (w.move id pos).log := by
  cases hid : w.entities[id]? with
  | none =>
    rw [move_of_none hid]
    exact outward_nil
  | some e =>
    have hown : Outward (if e.isPlayer then [⟨id, .move, id, pos⟩] else []) := by
      split <;> simp [Outward]
    have hcross : Outward ((w.move id pos).value.crossing id pos e.sector (w.grid.locate pos)) :=
      ((outward_announce (w := (w.move id pos).value) e.sector (by simp)).filter _).append
        ((outward_announce (w := (w.move id pos).value) (w.grid.locate pos) (by simp)).filter _)
    rw [log_move hid]
    refine Outward.append (Outward.append ?_ (outward_announce _ (by simp))) hown
    split
    · exact outward_nil
    · exact (outward_refresh _ _).append hcross

theorem outward_setRadiusOf (w : World) (id : EntityId) (radius : Int) :
    Outward (w.setRadiusOf id radius).log := by
  by_cases hid : ∃ e, w.entities[id]? = some e ∧ e.isPlayer
  · obtain ⟨e, hid, he⟩ := hid
    rw [setRadiusOf_of_player hid he]
    exact outward_refresh _ _
  · rw [setRadiusOf_of_not_player fun e h he => hid ⟨e, h, he⟩]
    exact outward_nil

theorem outward_setRadius (w : World) (radius : Int) : Outward (w.setRadius radius).log := by
  have hfold : ∀ (ids : List EntityId) (w : World),
      Outward (ids.foldlM (fun (w : World) id => w.setRadiusOf id radius) w).log := by
    intro ids
    induction ids with
    | nil => exact fun _ => outward_nil
    | cons id ids ih => exact fun w => (outward_setRadiusOf w id radius).append (ih _)
  exact hfold _ _

theorem outward_apply (w : World) : ∀ c : Change, Outward (w.apply c).log
  | .add id isPlayer pos => w.outward_add id isPlayer pos
  | .remove id => w.outward_remove id
  | .move id pos => w.outward_move id pos
  | .refresh id => w.outward_refresh id
  | .setRadiusOf id radius => w.outward_setRadiusOf id radius
  | .setRadius radius => w.outward_setRadius radius

variable {y : World}

theorem shown_viewNews (w y : World) (p s : EntityId) :
    (w.viewNews y p s).countP (·.kind = .snapshot) = 0 ∨
      y.sees p s ∧ (w.viewNews y p s).countP (·.kind = .snapshot) = y.multiplicity p s := by
  unfold viewNews
  split
  · split <;> exact .inl rfl
  · split
    · next hy => exact .inr ⟨hy, by simp [List.countP_replicate]⟩
    · exact .inl rfl

theorem countP_moveNews (w y : World) (p s : EntityId) (pos : Vec2) :
    (w.moveNews y p s pos).countP (·.kind = .snapshot) = 0 := by
  unfold moveNews
  split <;> rfl

theorem countP_news (w y : World) (p s : EntityId) (c : Change) :
    (w.news y p s c).countP (·.kind = .snapshot) = 0 ∨
      y.sees p s ∧ (w.news y p s c).countP (·.kind = .snapshot) = y.multiplicity p s := by
  cases c with
  | add id isPlayer pos =>
    rw [news]
    split
    · left
      split <;> split <;> rfl
    · split
      · next h => exact .inr ⟨h.2, by simp [List.countP_replicate]⟩
      · exact .inl rfl
  | remove id =>
    rw [news]
    split <;> exact .inl rfl
  | move id pos =>
    rw [news]
    split
    · exact .inl (countP_moveNews ..)
    · split
      · exact shown_viewNews ..
      · exact .inl rfl
  | refresh id => exact .inl rfl
  | setRadiusOf id radius =>
    rw [news]
    split
    · exact shown_viewNews ..
    · exact .inl rfl
  | setRadius radius => exact shown_viewNews ..

theorem Consistent.told_apply (h : w.Consistent) (hps : p ≠ s) (c : Change) :
    told (w.apply c).log p s = w.news (w.apply c).value p s c := by
  cases c with
  | add id isPlayer pos => exact told_add h hps isPlayer pos
  | remove id => exact told_remove h hps
  | move id pos => exact told_move h hps pos
  | refresh id => exact h.told_refresh hps
  | setRadiusOf id radius => exact told_setRadiusOf h.linked hps radius
  | setRadius radius => exact told_setRadius h.linked hps radius

theorem Consistent.shown_apply (h : w.Consistent) (c : Change) (p s : EntityId) :
    shown (w.apply c).log p s = 0 ∨ p ≠ s ∧ ∃ e d, (w.apply c).value.entities[p]? = some e ∧
      (w.apply c).value.entities[s]? = some d ∧ e.isPlayer ∧
      shown (w.apply c).log p s = Sector.copies e.sector.y e.radius d.sector.y *
        Sector.copies e.sector.x e.radius d.sector.x := by
  by_cases hps : p = s
  · subst hps
    exact .inl ((outward_apply w c).shown_self p)
  · rw [shown, h.told_apply hps c]
    refine (countP_news w _ p s c).imp_right fun ⟨hv, hn⟩ => ⟨hps, ?_⟩
    obtain ⟨e, d, hp, hs, he, -⟩ := (sees_eq_true_iff ..).1 hv
    have hsound := (h.apply c).sound p e hp
    have hx : e.sector.x ≤ Sector.maxCoord := hsound.sector_eq ▸ Grid.coordinate_le ..
    have hy : e.sector.y ≤ Sector.maxCoord := hsound.sector_eq ▸ Grid.coordinate_le ..
    have hr : 0 ≤ e.radius := Int.le_trans (by decide) (hsound.one_le_radius he)
    refine ⟨e, d, hp, hs, he, ?_⟩
    rw [hn, multiplicity_of_some hp hs, Sector.count_neighbourhood hx hy hr]

end World
end Fieldwatch.Interest

namespace Fieldwatch.Sector
open Interest

/-- Around an existing sector, the existing sectors within reach are listed row by row, but the last
row and the last column once more for every row and column beyond them. Each is listed once, and
the list strictly increases, exactly if the neighbourhood ends within the plane. At any point of any
history of a world, a change shows a player another entity as often as that, or not at all: at most
once if the view of the player ends within the plane. -/
theorem neighbourhood_repeats_last (c : Sector) (radius : Int) (hx : 0 ≤ c.x ∧ c.x ≤ maxCoord)
    (hy : 0 ≤ c.y ∧ c.y ≤ maxCoord) (hr : 1 ≤ radius) :
    (c.neighbourhood radius =
      (reach c.y radius ++ List.replicate (overhang c.y radius) maxCoord).flatMap fun y =>
        (reach c.x radius ++ List.replicate (overhang c.x radius) maxCoord).map fun x => ⟨x, y⟩) ∧
    (reach c.x radius).Pairwise (· < ·) ∧ (reach c.y radius).Pairwise (· < ·) ∧
    (∀ i, i ∈ reach c.x radius ↔ 0 ≤ i ∧ i ≤ maxCoord ∧ (i - c.x).natAbs ≤ radius) ∧
    (∀ i, i ∈ reach c.y radius ↔ 0 ≤ i ∧ i ≤ maxCoord ∧ (i - c.y).natAbs ≤ radius) ∧
    (∀ s, (c.neighbourhood radius).count s = copies c.y radius s.y * copies c.x radius s.x) ∧
    ((c.neighbourhood radius).Pairwise Precedes ↔
      c.x + radius ≤ maxCoord ∧ c.y + radius ≤ maxCoord) ∧
    ((c.neighbourhood radius).Nodup ↔ c.x + radius ≤ maxCoord ∧ c.y + radius ≤ maxCoord) ∧
    ∀ (size : Float32) (range : Int) (cs : List Change) (change : Change) (p s : EntityId),
      let r := ((World.empty size range).after cs).apply change
      (shown r.log p s = 0 ∨ p ≠ s ∧ ∃ e d, r.value.entities[p]? = some e ∧
        r.value.entities[s]? = some d ∧ e.isPlayer ∧ shown r.log p s =
          copies e.sector.y e.radius d.sector.y * copies e.sector.x e.radius d.sector.x) ∧
      ((∀ e, r.value.entities[p]? = some e →
        e.sector.x + e.radius ≤ maxCoord ∧ e.sector.y + e.radius ≤ maxCoord) →
          shown r.log p s ≤ 1) := by
  have hr0 : 0 ≤ radius := Int.le_trans (by decide) hr
  have hclear : c.x + radius ≤ maxCoord ∧ c.y + radius ≤ maxCoord →
      (c.neighbourhood radius).Pairwise Precedes := by
    rintro ⟨hcx, hcy⟩
    rw [neighbourhood, span_eq hx.2 hr0, span_eq hy.2 hr0, overhang_eq_zero.2 hcx,
      overhang_eq_zero.2 hcy, List.replicate_zero, List.append_nil, List.append_nil]
    exact pairwise_rows (pairwise_reach ..) (pairwise_reach ..)
  have honce := within_of_nodup hx hy hr0
  refine ⟨by rw [neighbourhood, span_eq hx.2 hr0, span_eq hy.2 hr0], pairwise_reach ..,
    pairwise_reach .., fun i => mem_reach, fun i => mem_reach,
    count_neighbourhood hx.2 hy.2 hr0, ⟨fun h => honce (nodup_of_precedes h), hclear⟩,
    ⟨honce, fun h => nodup_of_precedes (hclear h)⟩, fun size range cs change p s => ?_⟩
  have hw : ((World.empty size range).after cs).Consistent :=
    (World.consistent_empty size range).after cs
  refine ⟨hw.shown_apply change p s, fun hend => ?_⟩
  rcases hw.shown_apply change p s with h0 | ⟨-, e, d, hp, -, -, hn⟩
  · exact h0 ▸ Nat.zero_le _
  · obtain ⟨hex, hey⟩ := hend e hp
    exact hn ▸ Nat.mul_le_mul (copies_le_one hey _) (copies_le_one hex _)

/-- A player far off, beyond the last column, is shown the one monster next to it twice. -/
theorem last_column_twice :
    (⟨maxCoord, 5⟩ : Sector).neighbourhood 1 =
      [⟨maxCoord - 1, 4⟩, ⟨maxCoord, 4⟩, ⟨maxCoord, 4⟩, ⟨maxCoord - 1, 5⟩, ⟨maxCoord, 5⟩,
        ⟨maxCoord, 5⟩, ⟨maxCoord - 1, 6⟩, ⟨maxCoord, 6⟩, ⟨maxCoord, 6⟩] ∧
    ¬ ((⟨maxCoord, 5⟩ : Sector).neighbourhood 1).Nodup ∧
    shown (((World.empty 10 1).after [.add 2 false ⟨1e30, 55⟩]).apply
      (.add 1 true ⟨1e30, 55⟩)).log 1 2 = 2 := by
  decide +kernel

theorem neighbourhood_repeats_last_corner :
    (0 ≤ maxCoord ∧ maxCoord ≤ maxCoord) ∧ (0 ≤ (5 : Int) ∧ 5 ≤ maxCoord) ∧ (1 : Int) ≤ 1 ∧
    (∀ s, ((⟨maxCoord, 5⟩ : Sector).neighbourhood 1).count s =
      copies 5 1 s.y * copies maxCoord 1 s.x) ∧
    copies 5 1 5 * copies maxCoord 1 maxCoord = 2 :=
  have hx : 0 ≤ maxCoord ∧ maxCoord ≤ maxCoord := by decide
  have hy : 0 ≤ (5 : Int) ∧ 5 ≤ maxCoord := by decide
  have hr : (1 : Int) ≤ 1 := by decide
  ⟨hx, hy, hr, (neighbourhood_repeats_last ⟨maxCoord, 5⟩ 1 hx hy hr).2.2.2.2.2.1, by decide⟩

end Fieldwatch.Sector
