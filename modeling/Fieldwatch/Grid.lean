import Fieldwatch.Geometry
import Std.Data.ExtTreeSet
import Std.Data.ExtTreeMap

/-! The plane cut into equal squares. Squares are addressed by the whole coordinates
`0 … maxCoord`; what lies below zero belongs to row or column 0, what lies beyond the last
square belongs to the last one. -/

namespace Fieldwatch

structure Sector where
  x : Int
  y : Int
deriving DecidableEq, Inhabited

namespace Sector

def maxCoord : Int := 2147483647

instance : Ord Sector := ⟨compareLex (compareOn Sector.x) (compareOn Sector.y)⟩

instance : Std.TransOrd Sector :=
  inferInstanceAs (Std.TransCmp (compareLex (compareOn Sector.x) (compareOn Sector.y)))

instance : Std.LawfulEqOrd Sector where
  eq_of_compare {a b} h := by
    have h' : compareLex (compareOn Sector.x) (compareOn Sector.y) a b = .eq := h
    simp only [compareLex_eq_eq, compareOn, Std.LawfulEqOrd.compare_eq_iff_eq] at h'
    cases a; cases b; simp_all

/-- The coordinates within `radius` of `centre`, in increasing order. A coordinate beyond the
last one is taken for the last one, so the last one may repeat. -/
def span (centre radius : Int) : List Int :=
  ((List.range (2 * radius + 1).toNat).map fun (i : Nat) =>
    min (centre - radius + i) maxCoord).filter (0 ≤ ·)

def neighbourhood (centre : Sector) (radius : Int) : List Sector :=
  (span centre.y radius).flatMap fun y => (span centre.x radius).map fun x => ⟨x, y⟩

theorem mem_span {centre radius i : Int} (h : centre ≤ maxCoord) :
    i ∈ span centre radius ↔
      (0 ≤ i ∧ i ≤ maxCoord) ∧ centre - radius ≤ i ∧ i ≤ centre + radius := by
  simp only [span, List.mem_filter, List.mem_map, List.mem_range, decide_eq_true_eq]
  constructor
  · rintro ⟨⟨k, hk, rfl⟩, h⟩
    omega
  · rintro ⟨⟨h0, h1⟩, h2, h3⟩
    exact ⟨⟨(i - (centre - radius)).toNat, by omega, by omega⟩, h0⟩

theorem mem_neighbourhood {centre s : Sector} {radius : Int} :
    s ∈ centre.neighbourhood radius ↔ s.x ∈ span centre.x radius ∧ s.y ∈ span centre.y radius := by
  cases s
  simp only [neighbourhood, List.mem_flatMap, List.mem_map, mk.injEq]
  constructor
  · rintro ⟨y, hy, x, hx, rfl, rfl⟩
    exact ⟨hx, hy⟩
  · rintro ⟨hx, hy⟩
    exact ⟨_, hy, _, hx, rfl, rfl⟩

end Sector

abbrev SectorSet := Std.ExtTreeSet Sector

abbrev SectorMap (α : Type) := Std.ExtTreeMap Sector α

structure Grid where
  size : Float32

namespace Grid

/-- Squares of edge `size`, or of edge one if `size` is no positive length. -/
def ofSize (size : Float32) : Grid :=
  if size.isFinite && 0 < size then ⟨size⟩ else ⟨1⟩

/-- The whole squares of edge `size` before `t`. The conversion to a whole number drops the
fraction, and gives 0 for a NaN and for all that is negative. -/
def coordinate (g : Grid) (t : Float32) : Int :=
  min (t / g.size).toUInt32.toNat Sector.maxCoord

def locate (g : Grid) (p : Vec2) : Sector := ⟨g.coordinate p.x, g.coordinate p.y⟩

end Grid
end Fieldwatch
