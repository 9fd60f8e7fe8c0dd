import Fieldwatch.Number.Reading

/-! The numbers of a JSON text. A number is kept as it is written, and only its use decides what it
has to be: whole numbers of up to 64 bits are exact, all else is of double precision. -/

namespace Fieldwatch

structure Numeral where
  negative : Bool
  whole : List Nat
  fraction : Option (List Nat)
  exponent : Option Int
deriving DecidableEq, Inhabited

inductive Quantity where
  | natural (n : UInt64)
  | negative (n : UInt64)
  | real (x : Float)

namespace Numeral

def takeWhole (word : Nat) : List Nat → Nat × Nat
  | [] => (word, 0)
  | d :: ds => if word * 10 + d < UInt64.size then takeWhole (word * 10 + d) ds else (word, ds.length + 1)

/-- Takes digits into a 64-bit word as long as they fit, and drops the others. Yields the word and
how many digits fitted. -/
def takeFraction (word : Nat) : List Nat → Nat × Nat
  | [] => (word, 0)
  | d :: ds =>
    if word * 10 + d < UInt64.size then
      let (word, places) := takeFraction (word * 10 + d) ds
      (word, places + 1)
    else (word, 0)

/-- Multiplies by a power of ten in double precision, rounding after every step. What comes to more
than the largest number is refused. -/
def scale (x : Float) (e : Int) : Option Float :=
  if x == 0 then some x
  else if 308 < e then none
  else if 0 ≤ e then
    let y := x * .ofScientific 1 false e.toNat
    if y.isFinite then some y else none
  else if -308 ≤ e then some (x / .ofScientific 1 false (-e).toNat)
  else scale (x / .ofScientific 1 false 308) (e + 308)
termination_by (-e).toNat
decreasing_by omega

/-- What a numeral stands for. One without point and exponent is a whole number if it fits into 64
bits; a negative zero is not. -/
def quantity? (n : Numeral) : Option Quantity :=
  let (word, dropped) := takeWhole 0 n.whole
  if n.fraction.isNone && n.exponent.isNone && dropped = 0 && !n.negative then
    some (.natural word.toUInt64)
  else if n.fraction.isNone && n.exponent.isNone && dropped = 0 && 0 < word && word ≤ UInt64.size / 2 then
    some (.negative word.toUInt64)
  else
    let (word, places) := takeFraction word (n.fraction.getD [])
    (scale word.toUInt64.toFloat (n.exponent.getD 0 + dropped - places)).map fun x =>
      .real (if n.negative then -x else x)

end Numeral
end Fieldwatch
