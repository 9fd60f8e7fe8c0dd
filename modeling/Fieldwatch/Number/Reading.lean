/-! Numbers as people write them: with blanks around them, with a sign, with a point. -/

namespace Fieldwatch.Reading

def isBlank (c : Char) : Bool :=
  let n := c.toNat
  (0x09 ≤ n && n ≤ 0x0d) || n = 0x20 || n = 0x85 || n = 0xa0 || n = 0x1680 ||
    (0x2000 ≤ n && n ≤ 0x200a) || n = 0x2028 || n = 0x2029 || n = 0x202f || n = 0x205f || n = 0x3000

def trim (cs : List Char) : List Char :=
  ((cs.dropWhile isBlank).reverse.dropWhile isBlank).reverse

def digit? (c : Char) : Option Nat := if c.isDigit then some (c.toNat - '0'.toNat) else none

def ofDigits (ds : List Nat) : Nat := ds.foldl (fun n d => 10 * n + d) 0

def digits? (cs : List Char) : Option Nat :=
  if cs.isEmpty then none else (cs.mapM digit?).map ofDigits

def natural? (bound : Nat) (cs : List Char) : Option Nat :=
  (digits? (match cs with | '+' :: rest => rest | _ => cs)).filter (· < bound)

def integer? (bound : Nat) (cs : List Char) : Option Int :=
  match cs with
  | '-' :: rest => ((digits? rest).filter (· ≤ bound)).map fun n => -(n : Int)
  | _ => (natural? bound cs).map Int.ofNat

def spanDigits (cs : List Char) : List Nat × List Char :=
  ((cs.takeWhile Char.isDigit).filterMap digit?, cs.dropWhile Char.isDigit)

/-- The number of single precision nearest to `m * 10 ^ e`. What has more than 40 digits before the
point lies beyond the largest number, and what has more than 50 zeros after it is nearer to zero
than to any other. -/
def ofDecimal (m : Nat) (e : Int) : Float32 :=
  let leading : Int := (toString m).length + e
  if m = 0 || leading < -50 then 0
  else if 40 < leading then 1 / 0
  else if e < 0 then .ofScientific m true (-e).toNat
  else .ofScientific m false e.toNat

def exponent? : List Char → Option Int
  | [] => some 0
  | 'e' :: '-' :: cs | 'E' :: '-' :: cs => (digits? cs).map fun n => -(n : Int)
  | 'e' :: '+' :: cs | 'E' :: '+' :: cs | 'e' :: cs | 'E' :: cs => (digits? cs).map Int.ofNat
  | _ => none

def magnitude? (cs : List Char) : Option Float32 :=
  let word := String.ofList (cs.map Char.toLower)
  if word = "inf" || word = "infinity" then some (1 / 0)
  else if word = "nan" then some (0 / 0)
  else
    let (whole, rest) := spanDigits cs
    let (fraction, rest) := match rest with | '.' :: rest => spanDigits rest | _ => ([], rest)
    if whole.isEmpty && fraction.isEmpty then none
    else (exponent? rest).map fun e => ofDecimal (ofDigits (whole ++ fraction)) (e - fraction.length)

def float? : List Char → Option Float32
  | '-' :: cs => (magnitude? cs).map (-·)
  | '+' :: cs => magnitude? cs
  | cs => magnitude? cs

end Fieldwatch.Reading
