import Fieldwatch.Proofs.Field.Agreement
import Fieldwatch.Proofs.Field.Gauges
import Fieldwatch.Proofs.Worker.Upkeep

/-! How a grid is populated, cell by cell. A middle that is kept between two bounds is there only if
the bounds are in order, and each cell gets its monster before the next one is looked at. So a grid
whose corners are out of order could be left half populated; but its very first cell is refused, and
nothing has happened by then. -/

namespace Fieldwatch

open Interest

variable {β : Type}

namespace SpawnGrid

variable (g : SpawnGrid)

def middle? (lo hi : Float32) (n i : UInt32) : Option Float32 :=
  if lo ≤ hi then some (middle lo hi n i) else none

def cell? (i : UInt32) : Option Vec2 :=
  (middle? g.min.x g.max.x g.columns (i % g.columns)).bind fun x =>
    (middle? g.min.y g.max.y g.lines (i / g.columns)).map fun y => ⟨x, y⟩

variable {g}

theorem isOrdered_iff : g.isOrdered ↔ g.min.x ≤ g.max.x ∧ g.min.y ≤ g.max.y := by
  rw [isOrdered, Bool.and_eq_true_iff, decide_eq_true_iff, decide_eq_true_iff]

theorem cell?_of_ordered (hg : g.isOrdered) (i : UInt32) : g.cell? i = some (g.cell i) := by
  obtain ⟨hx, hy⟩ := isOrdered_iff.1 hg
  rw [cell?, middle?, if_pos hx, Option.bind_some, middle?, if_pos hy, Option.map_some]
  rfl

theorem cell?_of_not_ordered (hg : ¬ g.isOrdered) (i : UInt32) : g.cell? i = none := by
  rw [isOrdered_iff, not_and_or] at hg
  unfold cell? middle?
  rcases hg with hx | hy
  · rw [if_neg hx, Option.bind_none]
  · rw [if_neg hy]
    exact Option.bind_fun_none _

theorem toNat_columns (g : SpawnGrid) : g.columns.toNat = Max.max g.cols.toNat 1 := by
  unfold columns
  split
  · next h => rw [h]; rfl
  · next h =>
    have h0 : g.cols.toNat ≠ 0 := fun hc => h (UInt32.toNat_inj.1 hc)
    omega

theorem toNat_lines (g : SpawnGrid) : g.lines.toNat = Max.max g.rows.toNat 1 := by
  unfold lines
  split
  · next h => rw [h]; rfl
  · next h =>
    have h0 : g.rows.toNat ≠ 0 := fun hc => h (UInt32.toNat_inj.1 hc)
    omega

/-- How many cells there are. A grid of no columns or of no lines has one of them all the same. -/
def count (g : SpawnGrid) : Nat := Max.max g.cols.toNat 1 * Max.max g.rows.toNat 1

theorem toNat_count (h : g.count < 2 ^ 32) : (g.columns * g.lines).toNat = g.count := by
  rw [UInt32.toNat_mul, toNat_columns, toNat_lines]
  exact Nat.mod_eq_of_lt h

theorem count_pos (g : SpawnGrid) : 0 < g.count :=
  Nat.mul_pos (Nat.lt_of_lt_of_le Nat.one_pos (Nat.le_max_right _ _))
    (Nat.lt_of_lt_of_le Nat.one_pos (Nat.le_max_right _ _))

theorem zipIdx_cells (h : g.count < 2 ^ 32) :
    g.cells.zipIdx = (List.range g.count).map fun i => (g.cell i.toUInt32, i) := by
  unfold cells
  rw [toNat_count h]
  refine List.ext_getElem (by simp) fun i _ _ => ?_
  simp

theorem cell_eq (h : g.count < 2 ^ 32) {i : Nat} (hi : i < g.count) : g.cell i.toUInt32 =
    ⟨middle g.min.x g.max.x g.columns (i % g.columns.toNat).toUInt32,
      middle g.min.y g.max.y g.lines (i / g.columns.toNat).toUInt32⟩ := by
  have hi' : i.toUInt32.toNat = i := Nat.mod_eq_of_lt (hi.trans h)
  have hle : i % g.columns.toNat ≤ i := Nat.mod_le _ _
  have hdiv : i / g.columns.toNat ≤ i := Nat.div_le_self _ _
  have hcol : i.toUInt32 % g.columns = (i % g.columns.toNat).toUInt32 := by
    refine UInt32.toNat_inj.1 ?_
    rw [UInt32.toNat_mod, hi']
    exact (Nat.mod_eq_of_lt ((hle.trans_lt hi).trans h)).symm
  have hline : i.toUInt32 / g.columns = (i / g.columns.toNat).toUInt32 := by
    refine UInt32.toNat_inj.1 ?_
    rw [UInt32.toNat_div, hi']
    exact (Nat.mod_eq_of_lt ((hdiv.trans_lt hi).trans h)).symm
  rw [cell, hcol, hline]

end SpawnGrid

namespace Herd

/-- Puts a monster into each of these cells, one after the other. When a cell is refused, the
monsters of the cells before it stay, and there is no answer. -/
def plant (h : Herd) (g : SpawnGrid) : List Nat → Herd × Option (List (EntityId × Vec2))
  | [] => (h, some [])
  | i :: is =>
    match g.cell? i.toUInt32 with
    | none => (h, none)
    | some pos =>
      let r := plant (h.spawn (NpcTemplate.nth i) pos) g is
      (r.1, r.2.map ((h.nextId, pos) :: ·))

variable {h : Herd} {g : SpawnGrid}

theorem plant_of_ordered (hg : g.isOrdered) (is : List Nat) :
    let l := is.map fun i => (g.cell i.toUInt32, i)
    h.plant g is = (h.spawnEach l, some ((h.spawned l).map fun n => (n.id, n.pos))) := by
  induction is generalizing h with
  | nil => rfl
  | cons i is ih =>
    intro l
    rw [plant, SpawnGrid.cell?_of_ordered hg]
    dsimp only
    have hl : l = (g.cell i.toUInt32, i) :: is.map fun i => (g.cell i.toUInt32, i) := rfl
    rw [ih, hl, spawned_cons]
    rfl

theorem plant_of_not_ordered (hg : ¬ g.isOrdered) {is : List Nat} (his : is ≠ []) :
    h.plant g is = (h, none) := by
  cases is with
  | nil => exact (his rfl).elim
  | cons i is => rw [plant, SpawnGrid.cell?_of_not_ordered hg]

theorem getElem?_spawned (l : List (Vec2 × Nat)) (i : Nat) : (h.spawned l)[i]? =
    l[i]?.map fun x =>
      Npc.spawn (idOf (h.size + i)) (NpcTemplate.nth x.2) x.1 h.respawnDelay := by
  rw [spawned, List.getElem?_map, List.getElem?_zipIdx, Option.map_map]
  rfl

theorem idOf_ne {i j : Nat} (hij : i < j) (hj : j < i + 2 ^ 64) : idOf i ≠ idOf j := by
  intro he
  have hn := congrArg UInt64.toNat ((UInt64.add_right_inj _).1 he)
  change (i + 1) % 2 ^ 64 = (j + 1) % 2 ^ 64 at hn
  omega

theorem idOf_add (h : Herd) (i : Nat) : idOf (h.size + i) = h.nextId + i.toUInt64 := by
  have hsum : h.size + i + 1 = h.size + 1 + i := by omega
  rw [idOf, nextId, hsum, UInt64.add_assoc]
  exact congrArg (Npc.idBase + ·) (UInt64.ofNat_add _ _)

end Herd

namespace Field

/-- Populates a grid cell by cell, and then lets the new monsters be seen and counts them. Yields
how many there are; nothing if a cell was refused, with the field as it was left. -/
def plant (f : Field β) (g : SpawnGrid) : Effects (Field β × Option Nat) :=
  let r := f.herd.plant g (List.range (g.columns * g.lines).toNat)
  match r.2 with
  | none => pure ({ f with herd := r.1 }, none)
  | some spawned => do
    let f ← feeding { f with herd := r.1 } fun feed =>
      spawned.foldlM (fun feed (id, pos) => feed.add id false pos) feed
    emit [.raise .npcsAlive spawned.length.toUInt64]
    pure (f, some spawned.length)

def planting (reason : String) (g : SpawnGrid) : Job β := fun f =>
  (fun x => (x.1, if x.2.isSome then .completed else .panicked reason)) <$> f.plant g

variable {f : Field β} {g : SpawnGrid}

theorem plant_eq_populate (f : Field β) (hN : g.count < 2 ^ 32) : f.plant g =
    (f.populate g).elim (pure (f, none)) fun r => (fun x => (x.2, some x.1)) <$> r := by
  have hcount := SpawnGrid.toNat_count hN
  by_cases hg : g.isOrdered
  · have hherd := Herd.plant_of_ordered (h := f.herd) hg (List.range g.count)
    rw [← SpawnGrid.zipIdx_cells hN] at hherd
    obtain ⟨⟨k, sp⟩, hp⟩ : ∃ x, f.herd.populate g = some x := ⟨_, if_pos hg⟩
    obtain ⟨rfl, rfl⟩ := Herd.populate_eq_some hp
    rw [plant, hcount, hherd, populate, hp]
    exact Emit.ext rfl (List.append_assoc _ _ _).symm
  · -- there is a cell to be refused, and it is the first one
    have hp : f.herd.populate g = none := if_neg hg
    have hne : List.range g.count ≠ [] := fun h => g.count_pos.ne' (List.range_eq_nil.1 h)
    rw [plant, hcount, Herd.plant_of_not_ordered hg hne, populate, hp]
    rfl

def spawnEach (f : Field β) (l : List (Vec2 × Nat)) : Field β :=
  l.foldl (fun f x => (f.spawn (NpcTemplate.nth x.2) x.1).value.2) f

theorem record_spawn (t : NpcTemplate) (pos : Vec2) (j : EntityId) :
    (f.spawn t pos).value.2.feed.world.record j =
      if j = Herd.idOf f.herd.size then some (pos, none) else f.feed.world.record j := by
  have hw : (f.spawn t pos).value.2.feed.world = (f.feed.world.add f.herd.nextId false pos).value :=
    Feed.world_add _ _ _ _
  rw [hw, World.record_add]
  rfl

theorem spawnEach_cons (f : Field β) (x : Vec2 × Nat) (l : List (Vec2 × Nat)) :
    f.spawnEach (x :: l) = (f.spawn (NpcTemplate.nth x.2) x.1).value.2.spawnEach l := rfl

theorem size_spawn (f : Field β) (t : NpcTemplate) (pos : Vec2) :
    (f.spawn t pos).value.2.herd.size = f.herd.size + 1 := Herd.size_spawn _ _

theorem record_spawnEach_of_ne {l : List (Vec2 × Nat)} {j : EntityId}
    (hj : ∀ i < l.length, j ≠ Herd.idOf (f.herd.size + i)) :
    (f.spawnEach l).feed.world.record j = f.feed.world.record j := by
  induction l generalizing f with
  | nil => rfl
  | cons x l ih =>
    have hfirst : j ≠ Herd.idOf f.herd.size := hj 0 (Nat.succ_pos _)
    rw [spawnEach_cons, ih fun i hi => ?_, record_spawn, if_neg hfirst]
    rw [size_spawn, Nat.add_assoc, Nat.add_comm 1 i]
    exact hj (i + 1) (Nat.succ_lt_succ hi)

theorem record_spawnEach {l : List (Vec2 × Nat)} (hl : l.length < 2 ^ 64) {i : Nat}
    {x : Vec2 × Nat} (hx : l[i]? = some x) :
    (f.spawnEach l).feed.world.record (Herd.idOf (f.herd.size + i)) = some (x.1, none) := by
  induction l generalizing f i with
  | nil => cases hx
  | cons y l ih =>
    rw [List.length_cons] at hl
    rw [spawnEach_cons]
    cases i with
    | zero =>
      obtain rfl : y = x := Option.some_inj.1 hx
      rw [Nat.add_zero, record_spawnEach_of_ne fun i hi => ?_, record_spawn, if_pos rfl]
      rw [size_spawn]
      exact Herd.idOf_ne (by omega) (by omega)
    | succ i =>
      rw [Nat.add_comm i, ← Nat.add_assoc, ← size_spawn f (NpcTemplate.nth y.2) y.1]
      exact ih (by omega) hx

structure Planted (f : Field β) (g : SpawnGrid) (f' : Field β) (i : Nat) (n : Npc) : Prop where
  id : n.id = f.herd.nextId + i.toUInt64
  isAlive : n.isAlive
  template : NpcTemplate.all[i % 9]? = some n.template
  pos : n.pos =
    ⟨SpawnGrid.middle g.min.x g.max.x g.columns (i % Max.max g.cols.toNat 1).toUInt32,
      SpawnGrid.middle g.min.y g.max.y g.lines (i / Max.max g.cols.toNat 1).toUInt32⟩
  spawnPoint : n.spawnPoint = n.pos
  seen : f'.feed.world.record n.id = some (n.pos, none)

theorem planted (f : Field β) (hN : g.count < 2 ^ 32) {i : Nat} {n : Npc}
    (hn : (f.herd.spawned g.cells.zipIdx)[i]? = some n) :
    f.Planted g (f.spawnEach g.cells.zipIdx) i n := by
  rw [Herd.getElem?_spawned] at hn
  obtain ⟨x, hx, rfl⟩ := Option.map_eq_some_iff.1 hn
  have hcells : g.cells.zipIdx.length = g.count := by
    rw [SpawnGrid.zipIdx_cells hN, List.length_map, List.length_range]
  have hseen := f.record_spawnEach (by omega) hx
  obtain ⟨hi, rfl⟩ : i < g.count ∧ (g.cell i.toUInt32, i) = x := by
    rw [SpawnGrid.zipIdx_cells hN] at hx
    obtain ⟨k, hk, rfl⟩ := Option.map_eq_some_iff.1 (List.getElem?_map.symm.trans hx)
    obtain ⟨hi, rfl⟩ := List.getElem?_eq_some_iff.1 hk
    rw [List.length_range] at hi
    rw [List.getElem_range]
    exact ⟨hi, rfl⟩
  refine ⟨Herd.idOf_add _ _, ?_, ?_, ?_, rfl, hseen⟩
  · have hhp : 0 < (NpcTemplate.nth i).maxHp := by rw [Herd.maxHp_nth]; decide
    exact decide_eq_true hhp
  · have hlt : i % 9 < NpcTemplate.all.length := Nat.mod_lt _ (by decide)
    change _ = some (NpcTemplate.all.getD (i % 9) default)
    rw [List.getD_eq_getElem?_getD, List.getElem?_eq_getElem hlt, Option.getD_some]
  · rw [← SpawnGrid.toNat_columns]
    exact SpawnGrid.cell_eq hN hi

structure Populated (f : Field β) (g : SpawnGrid) (r : Effects (Nat × Field β))
    (spawned : List Npc) : Prop where
  number : r.value.1 = g.count
  length : spawned.length = g.count
  members : r.value.2.herd.members = f.herd.members ++ spawned
  returned : f.herd.populate g = some (r.value.2.herd, spawned.map fun n => (n.id, n.pos))
  planted : ∀ i n, spawned[i]? = some n → f.Planted g r.value.2 i n
  npcsAlive : ∀ us m,
    (r.log.foldl (Counters.apply us) m).npcsAlive = m.npcsAlive + g.count.toUInt64

theorem populated (hN : g.count < 2 ^ 32) {r : Effects (Nat × Field β)}
    (hr : f.populate g = some r) : f.Populated g r (f.herd.spawned g.cells.zipIdx) := by
  have hcells : g.cells.zipIdx.length = g.count := by
    rw [SpawnGrid.zipIdx_cells hN, List.length_map, List.length_range]
  have hlen : (f.herd.spawned g.cells.zipIdx).length = g.count := by
    rw [Herd.spawned, List.length_map, List.length_zipIdx, hcells]
  have hherd := herd_populate f hr
  have hreturned : f.herd.populate g = some (r.value.2.herd,
      (f.herd.spawned g.cells.zipIdx).map fun n => (n.id, n.pos)) := by
    obtain ⟨⟨k, sp⟩, hp, rfl⟩ := Option.map_eq_some_iff.1 hr
    obtain ⟨rfl, rfl⟩ := Herd.populate_eq_some hp
    exact hp
  have hnumber : r.value.1 =
      ((f.herd.spawned g.cells.zipIdx).map fun n => (n.id, n.pos)).length := by
    obtain ⟨⟨k, sp⟩, hp, rfl⟩ := Option.map_eq_some_iff.1 hr
    exact congrArg List.length (Herd.populate_eq_some hp).2
  refine ⟨?_, hlen, ?_, hreturned, fun i n hn => ?_, fun us m => ?_⟩
  · rw [hnumber, List.length_map, hlen]
  · rw [hherd, Herd.members_spawnEach]
  · have hvalue : r.value.2 = f.spawnEach g.cells.zipIdx := value_populate hr
    rw [hvalue]
    exact planted f hN hn
  · obtain ⟨l, hl, hlog⟩ := log_populate hr
    have hstill : (l.foldl (Counters.apply us) m).npcsAlive = m.npcsAlive :=
      Gauge.get_foldl_of_still .monsters (Gauge.still_of_sights hl) us m
    rw [Emit.log_map, hcells] at hlog
    rw [hlog, List.foldl_append, ← hstill]
    rfl

/-- A grid whose corners are in order comes whole. Any other one, and one with a bound that is no
number, leaves all as it was, and a worker that was to populate it goes on with its field. -/
theorem grid_comes_whole_or_not (f : Field β) (g : SpawnGrid) (hN : g.count < 2 ^ 32) :
    (g.min.x ≤ g.max.x ∧ g.min.y ≤ g.max.y →
      ∃ r spawned, f.populate g = some r ∧ f.Populated g r spawned ∧
        f.plant g = (fun x => (x.2, some x.1)) <$> r) ∧
    (¬ (g.min.x ≤ g.max.x ∧ g.min.y ≤ g.max.y) →
      f.populate g = none ∧ f.plant g = pure (f, none) ∧
      ∀ (w : Worker β) (reason : String), w.field = f →
        w.loop = .handling (.job (planting reason g)) →
        w.finish = ⟨{ w with loop := .waiting },
          [.raise .messagesProcessed 1, .raise .handlerPanics 1]⟩) := by
  have hplant := f.plant_eq_populate hN
  refine ⟨fun hg => ?_, fun hg => ?_⟩
  · have hherd : f.herd.populate g = some _ := if_pos (SpawnGrid.isOrdered_iff.2 hg)
    have hpop : f.populate g = some _ := congrArg (Option.map _) hherd
    rw [hpop, Option.elim_some] at hplant
    exact ⟨_, _, hpop, populated hN hpop, hplant⟩
  · have hherd : f.herd.populate g = none := if_neg fun h => hg (SpawnGrid.isOrdered_iff.1 h)
    have hpop : f.populate g = none := congrArg (Option.map _) hherd
    rw [hpop, Option.elim_none] at hplant
    refine ⟨hpop, hplant, fun w reason hf hl => ?_⟩
    have hjob : w.field.handle (.job (planting reason g)) = pure (w.field, .panicked reason) := by
      subst hf
      change (fun x => (x.1, if x.2.isSome then Ending.completed else .panicked reason)) <$>
        w.field.plant g = _
      rw [hplant]
      rfl
    rw [Worker.finish_eq hl, hjob]
    rfl

/-- A grid of no columns and three lines comes with three monsters, the last of them at `(3, 9.5)`;
one with a corner that is no number does not come. -/
theorem grid_comes_whole_or_not_three :
    let f := idle 1 {}
    let column : SpawnGrid := ⟨0, 3, ⟨1, 2⟩, ⟨5, 11⟩⟩
    let askew : SpawnGrid := ⟨2, 2, ⟨0, 0⟩, ⟨9, 0 / 0⟩⟩
    (∃ r a b c, f.populate column = some r ∧ r.value.1 = 3 ∧
      r.value.2.herd.members = [a, b, c] ∧ c.id = Npc.idBase + 3 ∧ c.pos.x == 3 ∧ c.pos.y == 9.5 ∧
      r.value.2.feed.world.record c.id = some (c.pos, none)) ∧
    f.plant askew = pure (f, none) := by
  intro f column askew
  obtain ⟨r, spawned, hpop, hr, -⟩ :=
    (grid_comes_whole_or_not f column (by decide +kernel)).1 (by decide +kernel)
  obtain ⟨a, b, c, rfl⟩ := List.length_eq_three.1 hr.length
  have hc := hr.planted 2 c rfl
  refine ⟨⟨r, a, b, c, hpop, hr.number, hr.members, hc.id, ?_, ?_, hc.seen⟩, ?_⟩
  · rw [hc.pos]
    decide +kernel
  · rw [hc.pos]
    decide +kernel
  · exact ((grid_comes_whole_or_not f askew (by decide +kernel)).2 (by decide +kernel)).2.1

end Field
end Fieldwatch
