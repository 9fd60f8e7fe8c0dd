import Fieldwatch.Proofs.Field.Feeding
import Fieldwatch.Proofs.Field.Motion
import Fieldwatch.Proofs.Interest.Commuting

/-! A step of the players comes out the same in whatever order they are visited. What is announced
on the way does depend on the order, for everyone is moved among others of whom some have moved and
some have not. -/

namespace Fieldwatch

open Interest

variable {β : Type}

namespace Interest.Feed

variable {f g : Feed} {p s : EntityId}

def displaced (f : Feed) (moves : List (EntityId × Vec2)) : Feed :=
  (moves.foldlM (fun (feed : Feed) (id, pos) => feed.move id pos) f).value

theorem displaced_cons (f : Feed) (x : EntityId × Vec2) (moves : List (EntityId × Vec2)) :
    f.displaced (x :: moves) = (f.move x.1 x.2).value.displaced moves := rfl

theorem Consistent.displaced (h : f.Consistent) (moves : List (EntityId × Vec2)) :
    (f.displaced moves).Consistent := by
  induction moves generalizing f with
  | nil => exact h
  | cons x moves ih => exact ih (h.move x.1 x.2)

theorem world_displaced (f : Feed) (moves : List (EntityId × Vec2)) :
    (f.displaced moves).world = Field.displaced f.world moves := Field.world_foldlM_move f moves

theorem mem_self_move (hf : f.Consistent) (id : EntityId) (pos : Vec2) :
    p ∈ (f.move id pos).value.index.of p ↔ p ∈ f.index.of p ∨ p = id ∧ p ∈ f.world.players := by
  have hi : (f.move id pos).value.index = f.index.hear (f.world.move id pos).log := rfl
  rw [hi, Audience.mem_of_hear, World.told_move_same hf.world.linked]
  by_cases hp : p = id ∧ p ∈ f.world.players
  · rw [if_pos hp]
    exact iff_of_true (by simp) (.inr hp)
  · rw [if_neg hp]
    simp [hp]

theorem mem_self_displaced (hf : f.Consistent) (moves : List (EntityId × Vec2)) :
    p ∈ (f.displaced moves).index.of p ↔
      p ∈ f.index.of p ∨ p ∈ moves.map Prod.fst ∧ p ∈ f.world.players := by
  induction moves generalizing f with
  | nil => simp [displaced]
  | cons x moves ih =>
    have hw : p ∈ (f.move x.1 x.2).value.world.players ↔ p ∈ f.world.players :=
      World.mem_players_move x.2
    rw [displaced_cons, ih (hf.move x.1 x.2), mem_self_move hf, hw, List.map_cons, List.mem_cons,
      or_and_right, or_assoc]

/-- Who sees whom is in the world, who has heard of itself is not. -/
theorem perm_index_of_world_eq (hf : f.Consistent) (hg : g.Consistent) (hw : f.world = g.world)
    (hself : ∀ p, p ∈ f.index.of p ↔ p ∈ g.index.of p) (s : EntityId) :
    (f.index.of s).Perm (g.index.of s) := by
  refine (List.perm_ext_iff_of_nodup (hf.nodup s) (hg.nodup s)).2 fun p => ?_
  by_cases hps : p = s
  · subst hps
    exact hself p
  · rw [hf.mem_of p s hps, hg.mem_of p s hps, hw]

end Interest.Feed

namespace Field

variable {f : Field β}

theorem displaced_perm {w : World} {l m : List (EntityId × Vec2)} (hlm : l.Perm m)
    (hl : (l.map Prod.fst).Nodup) (hw : w.Linked) : displaced w l = displaced w m := by
  induction hlm generalizing w with
  | nil => rfl
  | cons x _ ih => exact ih (List.nodup_cons.1 hl).2 (hw.move x.1 x.2)
  | swap x y l =>
    have hne : x.1 ≠ y.1 := by
      have hy := (List.nodup_cons.1 hl).1
      exact fun he => hy (he ▸ List.mem_cons_self)
    exact congrArg (displaced · l) (hw.move_comm hne.symm y.2 x.2)
  | trans hlk _ ihl ihm => exact (ihl hl hw).trans (ihm ((hlk.map Prod.fst).nodup_iff.1 hl) hw)

theorem map_fst_movesIn (f : Field β) (order : List EntityId) (step : Float32) :
    (f.movesIn order step).map Prod.fst = order.filter fun id => (f.strideOf step id).isSome := by
  induction order with
  | nil => rfl
  | cons id order ih =>
    rcases hs : f.strideOf step id with _ | pos <;> simpa [movesIn, hs] using ih

theorem feed_walkPlayers (f : Field β) {order : List EntityId} (ho : order.Perm f.players.keys)
    (step : Float32) :
    (f.walkPlayers order step).value.feed = f.feed.displaced (f.movesIn order step) := by
  rw [walkPlayers_eq f step ho]
  rfl

end Field

/-- Work that does nothing to a field but what can be done to it from outside. -/
def Deed.IsLawful : Deed β → Prop
  | .handle (.job j) => ∀ f, ∃ ds, (∀ d ∈ ds, ¬ d.IsJob) ∧ (j f).value.1 = (f.run ds).value
  | _ => True

theorem Deed.IsLawful.doesOnly {d : Deed β} (h : d.IsLawful) : d.DoesOnly fun _ => True := by
  rcases d with m | _ | _
  · cases m with
    | job j =>
      intro f
      obtain ⟨ds, hds, he⟩ := h f
      exact ⟨ds, fun d hd => ⟨hds d hd, trivial⟩, he⟩
    | _ => trivial
  · trivial
  · trivial

namespace Field

variable {f : Field β}

theorem lawful_run_of {P : Field β → Prop}
    (h : ∀ (f : Field β) (d : Deed β), ¬ d.IsJob → P f → P (f.perform d).value) (hf : P f)
    {ds : List (Deed β)} (hd : ∀ d ∈ ds, d.IsLawful) : P (f.run ds).value :=
  run_of_doesOnly (fun f d hj _ => h f d hj) hf fun d hm => (hd d hm).doesOnly

theorem consistent_lawful (hf : f.feed.Consistent) {ds : List (Deed β)}
    (hd : ∀ d ∈ ds, d.IsLawful) : (f.run ds).value.feed.Consistent :=
  lawful_run_of (P := fun f => f.feed.Consistent)
    (fun _ _ hj hf => (Feeding.perform hj).consistent hf) hf hd

/-- Two walks over the players of a field end in the same players and the same world, sectors that
were only passed through included, and every entity is then watched by the same players. -/
theorem walkPlayers_order_irrelevant (id : FieldId) (config : FieldConfig) (brain : Brain β)
    (mind : β) (enum : Enumeration) (ds : List (Deed β)) (hd : ∀ d ∈ ds, d.IsLawful)
    (step : Float32) (o₁ o₂ : List EntityId) :
    let f := ((fresh id config brain mind enum).run ds).value
    let g₁ := (f.walkPlayers o₁ step).value
    let g₂ := (f.walkPlayers o₂ step).value
    o₁.Perm f.players.keys → o₂.Perm f.players.keys →
      g₁.players = g₂.players ∧ g₁.feed.world = g₂.feed.world ∧
        ∀ s, (g₁.feed.index.of s).Perm (g₂.feed.index.of s) := by
  intro f g₁ g₂ h₁ h₂
  have hf : f.feed.Consistent :=
    consistent_lawful (Feed.consistent_empty config.sectorSize config.viewRadius) hd
  have hmoves : (f.movesIn o₁ step).Perm (f.movesIn o₂ step) :=
    (h₁.trans h₂.symm).filterMap _
  have hnodup : ((f.movesIn o₁ step).map Prod.fst).Nodup := by
    rw [map_fst_movesIn]
    exact (h₁.nodup_iff.2 Std.ExtTreeMap.nodup_keys).filter _
  have hworld : (f.feed.displaced (f.movesIn o₁ step)).world =
      (f.feed.displaced (f.movesIn o₂ step)).world := by
    rw [Feed.world_displaced, Feed.world_displaced, displaced_perm hmoves hnodup hf.world.linked]
  have hplayers : g₁.players = g₂.players := by
    rw [f.players_walkPlayers h₁, f.players_walkPlayers h₂]
  have hfeed₁ : g₁.feed = f.feed.displaced (f.movesIn o₁ step) := f.feed_walkPlayers h₁ step
  have hfeed₂ : g₂.feed = f.feed.displaced (f.movesIn o₂ step) := f.feed_walkPlayers h₂ step
  rw [hfeed₁, hfeed₂]
  refine ⟨hplayers, hworld, fun s => ?_⟩
  refine Feed.perm_index_of_world_eq (hf.displaced _) (hf.displaced _) hworld (fun p => ?_) s
  rw [Feed.mem_self_displaced hf, Feed.mem_self_displaced hf, (hmoves.map Prod.fst).mem_iff]

/-- Two players set out towards each other; between them somebody's work puts a monster. -/
def encounter : List (Deed Unit) :=
  [.handle (.enter { id := 1, name := "ada", pos := ⟨9, 5⟩ }),
    .handle (.enter { id := 2, name := "bob", pos := ⟨41, 5⟩ }),
    .handle (.job fun f => (·.2, .completed) <$> f.spawn (NpcTemplate.nth 0) ⟨25, 5⟩),
    .handle (.move 1 (MoveCommand.encode ⟨1, Float32.toBits 1, 0⟩)),
    .handle (.move 2 (MoveCommand.encode ⟨2, Float32.toBits (-1), 0⟩))]

theorem isLawful_encounter : ∀ d ∈ encounter, d.IsLawful := by
  intro d hd
  simp only [encounter, List.mem_cons, List.not_mem_nil, or_false] at hd
  rcases hd with rfl | rfl | rfl | rfl | rfl
  · trivial
  · trivial
  · exact fun f => ⟨[.spawn (NpcTemplate.nth 0) ⟨25, 5⟩],
      List.forall_mem_singleton.2 fun h => h, rfl⟩
  · trivial
  · trivial

theorem walkPlayers_order_irrelevant_encounter :
    let f := ((fresh 1 {} Brain.idle () .byId).run encounter).value
    let g₁ := (f.walkPlayers [1, 2] 0.25).value
    let g₂ := (f.walkPlayers [2, 1] 0.25).value
    (f.strideOf 0.25 1).isSome ∧ (f.strideOf 0.25 2).isSome ∧
      g₁.players = g₂.players ∧ g₁.feed.world = g₂.feed.world ∧
        ∀ s, (g₁.feed.index.of s).Perm (g₂.feed.index.of s) :=
  ⟨by decide +kernel, by decide +kernel,
    walkPlayers_order_irrelevant 1 {} Brain.idle () .byId encounter isLawful_encounter 0.25
      [1, 2] [2, 1] (by decide +kernel) (by decide +kernel)⟩

end Field
end Fieldwatch
