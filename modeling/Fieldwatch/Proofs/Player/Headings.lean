import Fieldwatch.Proofs.Number.Directions

/-! What becomes of an input that a player can go in. Its direction is of length one, unless the
input is so long that its square length is infinite; then the direction is zero, and the player, who
counts as moving, stays where it is. -/

namespace Fieldwatch.Player

open Single Vec2

variable {p : Player} {d : Vec2}

theorem threshold_le_minInputLengthSq : minInputLengthSq.isFinite ∧
    threshold ≤ value minInputLengthSq := by
  have hbits : minInputLengthSq.toBits = 0x38d1b717 := by decide +kernel
  obtain ⟨hf, hv⟩ := value_of_toBits (s := .positive) (m := 13743895) (e := -37) hbits rfl
  refine ⟨hf, ?_⟩
  rw [hv, threshold]
  norm_num

theorem isHeading_of_not_lt (hd : d.isFinite) (hq : ¬ d.lengthSq < minInputLengthSq) :
    isHeading d := by
  rw [isHeading, hd, decide_eq_false hq]
  rfl

def afterTicks (p : Player) (ticks : List (Float × Float × Float32)) : Player :=
  ticks.foldl (fun p t => (p.tick t.1 t.2.1 t.2.2).1) p

/-- A zero direction moves nobody, not even by rounding. -/
theorem next_beq (hdir : p.dir.IsNull) {step : Float32} (hn : (p.next step).isFinite) :
    value (p.next step).x = value p.pos.x ∧ value (p.next step).y = value p.pos.y := by
  have hcoord : ∀ {a c : Float32}, c.isFinite → value c = 0 →
      (a + c * (p.speed * step)).isFinite → value (a + c * (p.speed * step)) = value a := by
    intro a c hc h0 hsum
    obtain ⟨ha, hprod⟩ := finite_of_add hsum
    have hround := rounds_mul hc (finite_of_mul hprod)
    rw [h0, zero_mul] at hround
    have hnear : Nears 0 (c * (p.speed * step)) := hround.nears (by rw [abs_zero]; positivity)
    exact (value_add_zero ha hprod hnear.value_eq_zero).2
  obtain ⟨hdx, hdy⟩ := isFinite_iff.1 hdir.finite
  obtain ⟨hnx, hny⟩ := isFinite_iff.1 hn
  exact ⟨hcoord hdx hdir.x hnx, hcoord hdy hdir.y hny⟩

def StandsAt (p : Player) (pos : Vec2) : Prop :=
  p.dir.IsNull ∧ p.pos.isFinite ∧ value p.pos.x = value pos.x ∧ value p.pos.y = value pos.y

theorem StandsAt.tick {pos : Vec2} (h : p.StandsAt pos) (now timeout : Float) (step : Float32) :
    (p.tick now timeout step).1.StandsAt pos := by
  obtain ⟨hdir, hfin, hx, hy⟩ := h
  unfold Player.tick
  split
  · exact ⟨isNull_zero, hfin, hx, hy⟩
  · split
    · next hm =>
      have hn : (p.next step).isFinite := (Bool.and_eq_true_iff.1 hm).2
      obtain ⟨hnx, hny⟩ := next_beq hdir hn
      exact ⟨hdir, hn, hnx.trans hx, hny.trans hy⟩
    · exact ⟨hdir, hfin, hx, hy⟩

theorem StandsAt.afterTicks {pos : Vec2} (h : p.StandsAt pos)
    (ticks : List (Float × Float × Float32)) : (p.afterTicks ticks).StandsAt pos := by
  induction ticks generalizing p with
  | nil => exact h
  | cons t ticks ih => exact ih (h.tick t.1 t.2.1 t.2.2)

/-- An input that is finite and not too short is taken up. If its square length is a number, the
direction is one of length one, the way of the input; if not, it is zero, and the player stays where
it is for all ticks that follow. -/
theorem steer_takes_direction (p : Player) (hd : d.isFinite)
    (hq : ¬ d.lengthSq < minInputLengthSq) (speed : Float32) (now : Float) :
    let q := p.steer d speed now
    isHeading d ∧ q.moving ∧ q.speed = speed ∧ q.pos = p.pos ∧ q.dir = d.normalize ∧
      (d.lengthSq.isFinite → ¬ (q.dir == zero) = true ∧
        (0 ≤ d.x → 0 ≤ q.dir.x) ∧ (d.x ≤ 0 → q.dir.x ≤ 0) ∧
        (0 ≤ d.y → 0 ≤ q.dir.y) ∧ (d.y ≤ 0 → q.dir.y ≤ 0) ∧
        0.99 ≤ q.dir.length ∧ q.dir.length ≤ 1.01) ∧
      (¬ d.lengthSq.isFinite → (q.dir == zero) = true ∧
        (p.pos.isFinite → ∀ ticks, ((q.afterTicks ticks).pos == p.pos) = true)) := by
  have hheading := isHeading_of_not_lt hd hq
  intro q
  have hsteer : q =
      { p with lastInput := now, dir := d.normalize, speed := speed, moving := true } :=
    if_pos hheading
  have hdir : q.dir = d.normalize := by rw [hsteer]
  have hpos : q.pos = p.pos := by rw [hsteer]
  refine ⟨hheading, by rw [hsteer], by rw [hsteer], hpos, hdir, fun hfin => ?_, fun hinf => ?_⟩ <;>
    rw [hdir]
  · have hlong := threshold_le threshold_le_minInputLengthSq hq hfin
    obtain ⟨hunit, hway⟩ := isUnit_normalize hd hfin hlong
    exact ⟨hunit.ne_zero, hway.right, hway.left, hway.down, hway.up, hunit.length⟩
  · have hnull := isNull_normalize hd hinf
    refine ⟨(beq_zero_iff hnull.finite).2 hnull, fun hp ticks => ?_⟩
    have hstands : q.StandsAt p.pos := by
      rw [StandsAt, hdir, hpos]
      exact ⟨hnull, hp, rfl, rfl⟩
    obtain ⟨-, hfin, hx, hy⟩ := hstands.afterTicks ticks
    exact (Vec2.beq_iff hfin hp).2 ⟨hx, hy⟩

/-- A wish of length five, to the north-east. -/
theorem steer_takes_direction_east :
    let ada : Player := { id := 1, name := "ada", pos := ⟨1, 2⟩, vitals := defaultVitals }
    let q := ada.steer ⟨3, -4⟩ 10 1
    (Vec2.isFinite ⟨3, -4⟩ = true ∧ ¬ Vec2.lengthSq ⟨3, -4⟩ < minInputLengthSq) ∧ q.moving ∧
      ¬ (q.dir == zero) = true ∧ 0 ≤ q.dir.x ∧ q.dir.y ≤ 0 ∧
        0.99 ≤ q.dir.length ∧ q.dir.length ≤ 1.01 := by
  intro ada q
  have hd : Vec2.isFinite ⟨3, -4⟩ = true := by decide +kernel
  have hq : ¬ Vec2.lengthSq ⟨3, -4⟩ < minInputLengthSq := by decide +kernel
  have hfin : (Vec2.lengthSq ⟨3, -4⟩).isFinite := by decide +kernel
  obtain ⟨-, hmoving, -, -, -, hunit, -⟩ := steer_takes_direction ada hd hq 10 1
  obtain ⟨hne, hx, -, -, hy, hlow, hhigh⟩ := hunit hfin
  exact ⟨⟨hd, hq⟩, hmoving, hne, hx (by decide +kernel), hy (by decide +kernel), hlow, hhigh⟩

/-- An input as long as 1e30 is taken up, and its direction is zero. -/
theorem long_input_loses_direction :
    let ada : Player := { id := 1, name := "ada", pos := ⟨1, 2⟩, vitals := defaultVitals }
    let q := ada.steer ⟨1e30, 0⟩ 10 1
    (Vec2.isFinite ⟨1e30, 0⟩ = true ∧ ¬ Vec2.lengthSq ⟨1e30, 0⟩ < minInputLengthSq) ∧
      q.moving = true ∧ (q.dir == zero) = true := by
  decide +kernel

end Fieldwatch.Player
