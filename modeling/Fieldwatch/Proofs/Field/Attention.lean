import Fieldwatch.Proofs.Field.Replay

/-! Whom a word about somebody reaches. The feed knows it from what it has announced before; it is
the players near the one spoken of, and the player itself that is spoken of, who hears of itself
from its entry on. -/

namespace Fieldwatch

open Interest

variable {β : Type}

namespace Interest

def World.Near (w : World) (c : Sector) (p : EntityId) : Prop :=
  ∃ e, w.entities[p]? = some e ∧ (e.sector.x - c.x).natAbs ≤ w.radius ∧
    (e.sector.y - c.y).natAbs ≤ w.radius

namespace Feed

/-- The index is right, all players see equally far, and each hears of itself. -/
structure Attuned (f : Feed) : Prop where
  consistent : f.Consistent
  gated : f.Gated
  radius_eq : ∀ j pos r, f.world.record j = some (pos, some r) → r = f.world.radius
  hears : ∀ p ∈ f.world.players, p ∈ f.index.of p

def receivers (f : Feed) (s : EntityId) : List EntityId := if f.live then f.index.of s else []

variable {f : Feed} {p s : EntityId}

theorem broadcast_eq (f : Feed) (s : EntityId) (event : Event) :
    f.broadcast s event = (f.receivers s).map (send · event) := by
  unfold broadcast receivers
  split <;> rfl

theorem Attuned.nodup_receivers (h : f.Attuned) (s : EntityId) : (f.receivers s).Nodup := by
  unfold receivers
  split
  · exact h.consistent.nodup s
  · exact List.nodup_nil

theorem Attuned.entity_radius (h : f.Attuned) {e : Entity} (he : f.world.entities[p]? = some e)
    (hp : e.isPlayer) : e.radius = f.world.radius := by
  refine h.radius_eq p e.pos e.radius ?_
  rw [World.record, he, Option.map_some, Entity.record, if_pos hp]

theorem Attuned.mem_of (h : f.Attuned) : p ∈ f.index.of s ↔
    p ∈ f.world.players ∧ ∃ d, f.world.entities[s]? = some d ∧ f.world.Near d.sector p := by
  by_cases hps : p = s
  · subst hps
    refine ⟨fun hm => ?_, fun hp => h.hears p hp.1⟩
    have hp := h.consistent.self_mem p hm
    obtain ⟨e, he, -⟩ := (World.mem_players _ p).1 hp
    have := h.consistent.world.one_le_radius
    exact ⟨hp, e, he, e, he, by omega, by omega⟩
  · rw [h.consistent.mem_of_iff_within hps]
    constructor
    · rintro ⟨e, d, hp, hs, he, hx, hy⟩
      rw [h.entity_radius hp he] at hx hy
      exact ⟨(World.mem_players _ p).2 ⟨e, hp, he⟩, d, hs, e, hp, hx, hy⟩
    · rintro ⟨hp, d, hs, e, he, hx, hy⟩
      obtain ⟨e', he', hi⟩ := (World.mem_players _ p).1 hp
      obtain rfl : e = e' := Option.some.inj (he.symm.trans he')
      rw [← h.entity_radius he hi] at hx hy
      exact ⟨e, d, he, hs, hi, hx, hy⟩

theorem Attuned.mem_receivers (h : f.Attuned) : p ∈ f.receivers s ↔
    p ∈ f.world.players ∧ ∃ d, f.world.entities[s]? = some d ∧ f.world.Near d.sector p := by
  rw [← h.mem_of]
  unfold receivers
  split
  · rfl
  · next hl =>
    refine ⟨fun hm => (List.not_mem_nil hm).elim, fun hm => ?_⟩
    exact (h.gated (Bool.eq_false_iff.2 hl) p (h.mem_of.1 hm).1).elim

theorem attuned_empty (size : Float32) (radius : Int) : (empty size radius).Attuned where
  consistent := consistent_empty size radius
  gated _ _ hp := by simp [empty, World.empty, World.players] at hp
  radius_eq j pos r h := by simp [empty, World.empty, World.record] at h
  hears _ hp := by simp [empty, World.empty, World.players] at hp

theorem mem_hear_of_told_eq_nil {x : Audience} {ds : List Delivery} (h : told ds p p = [])
    (hp : p ∈ x.of p) : p ∈ (x.hear ds).of p := by
  rw [Audience.mem_of_hear, h]
  exact hp

end Feed
end Interest

namespace Feeds

variable {E : EntityId → Prop} {f g : Feed} {l : List Effect} {p : EntityId}

theorem radius_eq (h : Feeds E f l g)
    (hf : ∀ j pos r, f.world.record j = some (pos, some r) → r = f.world.radius) :
    ∀ j pos r, g.world.record j = some (pos, some r) → r = g.world.radius := by
  induction h with
  | quiet | golive | tellSelf => exact hf
  | @enter f id isPlayer pos' _ _ =>
    intro j pos r hj
    rw [Feed.world_change, World.record_add] at hj
    rw [Feed.world_change, World.radius_add]
    split at hj
    · cases isPlayer <;> simp_all
    · exact hf j pos r hj
  | @remove f id =>
    intro j pos r hj
    rw [Feed.world_remove, World.record_remove] at hj
    rw [Feed.world_remove, World.radius_remove]
    split at hj
    · cases hj
    · exact hf j pos r hj
  | @move f id pos' =>
    intro j pos r hj
    rw [Feed.world_move, World.record_move] at hj
    rw [Feed.world_move, World.radius_move]
    split at hj
    · obtain ⟨⟨pos'', radius⟩, hr, he⟩ := Option.map_eq_some_iff.1 hj
      cases he
      exact hf j pos'' r hr
    · exact hf j pos r hj
  | @setRadius f radius =>
    intro j pos r hj
    rw [Feed.world_setRadius, World.record_setRadius] at hj
    rw [Feed.world_setRadius, World.radius_setRadius]
    obtain ⟨⟨pos'', radius'⟩, -, he⟩ := Option.map_eq_some_iff.1 hj
    cases radius' <;> cases he
    rfl
  | trans _ _ ihf ihg => exact ihg (ihf hf)

theorem hears (h : Feeds E f l g) (hE : ¬ E p) (hf : f.Consistent) (hg : p ∈ g.world.players)
    (hp : p ∈ f.index.of p) : p ∈ g.index.of p := by
  induction h with
  | quiet | golive => exact hp
  | @enter f id isPlayer pos _ _ =>
    exact Feed.mem_hear_of_told_eq_nil (World.told_add_same hf.world.linked isPlayer pos) hp
  | @remove f id =>
    have hne := (World.mem_players_remove.1 hg).1
    rw [Feed.index_remove, Audience.of_forget, if_neg hne, List.mem_filter]
    exact ⟨Feed.mem_hear_of_told_eq_nil World.told_remove_same hp, by simpa using hne⟩
  | @move f id pos =>
    have htold : told (f.world.move id pos).log p p = _ := World.told_move_same hf.world.linked pos
    rw [Feed.move, Feed.index_change, Audience.mem_of_hear, htold]
    split
    · next s hs =>
      split at hs
      · cases hs
        exact SightingKind.noConfusion
      · cases hs
    · exact hp
  | @setRadius f radius =>
    exact Feed.mem_hear_of_told_eq_nil (World.told_setRadius_same hf.world.linked radius) hp
  | @tellSelf f id _ _ =>
    change p ∈ (f.index.observe id ⟨.snapshot, id, f.world.posOf id⟩).of p
    rw [Audience.mem_of_observe]
    split
    · exact SightingKind.noConfusion
    · exact hp
  | trans hfg hgh ihf ihg => exact ihg (hfg.consistent hf) hg (ihf hf (hgh.mem_players hE hg) hp)

theorem attuned (h : Feeds (fun _ => False) f l g) (hf : f.Attuned) : g.Attuned where
  consistent := h.consistent hf.consistent
  gated := h.gated hf.gated
  radius_eq := h.radius_eq hf.radius_eq
  hears _ hp := h.hears id hf.consistent hp (hf.hears _ (h.mem_players id hp))

end Feeds

namespace Field

variable {f : Field β}

/-- Who has entered hears of itself: that is the last thing that its welcome tells it. -/
theorem hears_addPlayer (f : Field β) (n : Newcomer) :
    n.id ∈ (f.addPlayer n).value.feed.index.of n.id := by
  change n.id ∈ Audience.of (Audience.observe _ n.id ⟨.snapshot, n.id, n.pos⟩) n.id
  rw [Audience.mem_of_observe, if_pos ⟨rfl, rfl⟩]
  exact SightingKind.noConfusion

theorem attuned_perform (hf : f.feed.Attuned) {d : Deed β} (hd : ¬ d.IsJob) :
    (f.perform d).value.feed.Attuned where
  consistent := (Feeding.perform hd).consistent hf.consistent
  gated := (Feeding.perform hd).gated hf.gated
  radius_eq := (Feeding.perform hd).radius_eq hf.radius_eq
  hears p hp := by
    by_cases he : d.Enters p
    · obtain ⟨n, rfl, rfl⟩ := Deed.eq_enter_of_enters he
      exact hears_addPlayer f n
    · have hbefore := hf.hears p (mem_world_players_perform hd he hp)
      exact (Feeding.perform hd).hears he hf.consistent hp hbefore

theorem attuned_run (hf : f.feed.Attuned) {ds : List (Deed β)} (hd : ∀ d ∈ ds, ¬ d.IsJob) :
    (f.run ds).value.feed.Attuned :=
  run_of (P := fun f => f.feed.Attuned) (fun _ _ hd hf => attuned_perform hf hd) hf hd

end Field
end Fieldwatch
