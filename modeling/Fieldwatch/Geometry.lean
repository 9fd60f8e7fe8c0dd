/-! Points and directions of the plane, in single precision. Every operation rounds once. -/

namespace Fieldwatch

structure Vec2 where
  x : Float32
  y : Float32
deriving Inhabited

namespace Vec2

def zero : Vec2 := ⟨0, 0⟩

variable (a b : Vec2)

def add : Vec2 := ⟨a.x + b.x, a.y + b.y⟩

def sub : Vec2 := ⟨a.x - b.x, a.y - b.y⟩

def scale (s : Float32) : Vec2 := ⟨a.x * s, a.y * s⟩

instance : Add Vec2 := ⟨add⟩
instance : Sub Vec2 := ⟨sub⟩

/-- Equality of numbers: both zeros are equal and a NaN equals nothing. -/
instance : BEq Vec2 := ⟨fun a b => a.x == b.x && a.y == b.y⟩

def lengthSq : Float32 := a.x * a.x + a.y * a.y

def length : Float32 := a.lengthSq.sqrt

/-- The direction of `a` at length one; the zero vector where `a` has no positive length. -/
def normalize : Vec2 :=
  let len := a.length
  if 0 < len then ⟨a.x / len, a.y / len⟩ else zero

def distanceSq : Float32 := (a - b).lengthSq

def isFinite : Bool := a.x.isFinite && a.y.isFinite

def isNear (eps : Float32) : Bool :=
  (a.x - b.x).abs < eps && (a.y - b.y).abs < eps

end Vec2
end Fieldwatch
