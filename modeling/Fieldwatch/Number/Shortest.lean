/-! The shortest decimal text of a single-precision number: the fewest digits that lie nearer to it
than to any other number of single precision, and of those the nearest digits; of two equally near
ones the upper. -/

namespace Fieldwatch.Shortest

structure Decimal where
  digits : Nat
  exponent : Int
deriving DecidableEq, Inhabited

/-- The numbers from `low` to `high`, which round to `value`, all as multiples of `1 / unit`. -/
structure Interval where
  low : Nat
  value : Nat
  high : Nat
  unit : Nat
  closed : Bool

namespace Interval

/-- The interval around `mantissa * 2 ^ (exponent - 150)`, with the leading bit in the mantissa and
an exponent from 1 on. Below a power of two the next number is only half as far as above it. -/
def ofParts (mantissa exponent : Nat) : Interval :=
  let lowest := mantissa = 0x800000 && 1 < exponent
  let up := 1 <<< (exponent - 150)
  { low := (if lowest then 4 * mantissa - 1 else 4 * mantissa - 2) * up
    value := 4 * mantissa * up
    high := (4 * mantissa + 2) * up
    unit := 4 <<< (150 - exponent)
    closed := mantissa % 2 = 0 }

def contains (i : Interval) (numerator denominator : Nat) : Bool :=
  let n := numerator * i.unit
  if i.closed then i.low * denominator ≤ n && n ≤ i.high * denominator
  else i.low * denominator < n && n < i.high * denominator

/-- The multiple of `10 ^ k` nearest to the value among those that round to it. It is one of the
two neighbours of the value. -/
def onGrid (i : Interval) (k : Int) : Option Decimal :=
  let up := Nat.pow 10 k.toNat
  let down := Nat.pow 10 (-k).toNat
  let below := i.value * down / (i.unit * up)
  let hit (c : Nat) := 0 < c && i.contains (c * up) down
  let remainder := i.value * down - below * i.unit * up
  if hit below && (!hit (below + 1) || 2 * remainder < i.unit * up) then some ⟨below, k⟩
  else if hit (below + 1) then some ⟨below + 1, k⟩
  else none

def shortest (i : Interval) : Decimal :=
  (((List.range 100).map fun (j : Nat) => (39 - j : Int)).findSome? i.onGrid).getD default

end Interval

def positional (d : Decimal) : String :=
  let s := toString d.digits
  let point : Int := s.length + d.exponent
  if point ≤ 0 then "0." ++ "".pushn '0' (-point).toNat ++ s
  else if d.exponent < 0 then
    String.ofList (s.toList.take point.toNat) ++ "." ++ String.ofList (s.toList.drop point.toNat)
  else s.pushn '0' d.exponent.toNat ++ ".0"

def scientific (d : Decimal) : String :=
  let s := (toString d.digits).toList
  let rest := s.drop 1
  String.ofList (s.take 1) ++ (if rest.isEmpty then "" else "." ++ String.ofList rest) ++ "e" ++
    toString (d.exponent + rest.length)

def finite (d : Decimal) : String :=
  let leading : Int := (toString d.digits).length - 1 + d.exponent
  if -4 ≤ leading && leading < 16 then positional d else scientific d

def text (x : Float32) : String :=
  let bits := x.toBits
  let exponent := ((bits >>> 23) &&& 0xff).toNat
  let fraction := (bits &&& 0x7fffff).toNat
  if exponent = 0xff && fraction ≠ 0 then "NaN"
  else
    let magnitude :=
      if exponent = 0xff then "inf"
      else if exponent = 0 && fraction = 0 then "0.0"
      else
        let mantissa := if exponent = 0 then fraction else fraction + 0x800000
        finite (Interval.ofParts mantissa (max exponent 1)).shortest
    if bits >>> 31 = 0 then magnitude else "-" ++ magnitude

end Fieldwatch.Shortest
