import Fieldwatch.Json.Basic

/-! Reading JSON texts. -/

namespace Fieldwatch.Json

inductive Piece where
  | char (c : Char)
  | unit (u : Nat)

/-- The text that the parts of a string spell. Two units make one character if they are the halves
of a pair; a half alone spells nothing. -/
def spell : List Piece → Option (List Char)
  | [] => some []
  | .char c :: rest => (spell rest).map (c :: ·)
  | .unit u :: .unit v :: rest =>
    if 0xd800 ≤ u && u < 0xdc00 && 0xdc00 ≤ v && v < 0xe000 then
      (spell rest).map (Char.ofNat (0x10000 + (u - 0xd800) * 0x400 + (v - 0xdc00)) :: ·)
    else if 0xd800 ≤ u && u < 0xe000 then none
    else (spell (.unit v :: rest)).map (Char.ofNat u :: ·)
  | .unit u :: rest =>
    if 0xd800 ≤ u && u < 0xe000 then none else (spell rest).map (Char.ofNat u :: ·)

def hexDigit? (c : Char) : Option Nat :=
  if c.isDigit then some (c.toNat - '0'.toNat)
  else if 'a' ≤ c && c ≤ 'f' then some (c.toNat - 'a'.toNat + 10)
  else if 'A' ≤ c && c ≤ 'F' then some (c.toNat - 'A'.toNat + 10)
  else none

def escape? : Char → Option Char
  | '"' => some '"'
  | '\\' => some '\\'
  | '/' => some '/'
  | 'b' => some '\x08'
  | 'f' => some '\x0c'
  | 'n' => some '\n'
  | 'r' => some '\r'
  | 't' => some '\t'
  | _ => none

def pieces : List Char → Option (List Piece × List Char)
  | [] => none
  | '"' :: rest => some ([], rest)
  | '\\' :: 'u' :: a :: b :: c :: d :: rest => do
    let digits ← [a, b, c, d].mapM hexDigit?
    let (ps, rest) ← pieces rest
    return (.unit (digits.foldl (fun u d => 16 * u + d) 0) :: ps, rest)
  | '\\' :: c :: rest => do
    let c ← escape? c
    let (ps, rest) ← pieces rest
    return (.char c :: ps, rest)
  | c :: rest =>
    if c.toNat < 0x20 || c = '\\' then none
    else (pieces rest).map fun (ps, rest) => (.char c :: ps, rest)

def stringBody (cs : List Char) : Option (Option String × List Char) :=
  (pieces cs).map fun (ps, rest) => ((spell ps).map String.ofList, rest)

def skip (cs : List Char) : List Char :=
  cs.dropWhile fun c => c = ' ' || c = '\n' || c = '\t' || c = '\r'

def someDigits (cs : List Char) : Option (List Nat × List Char) :=
  let (ds, rest) := Reading.spanDigits cs
  if ds.isEmpty then none else some (ds, rest)

def wholePart (cs : List Char) : Option (List Nat × List Char) := do
  let (ds, rest) ← someDigits cs
  if 1 < ds.length && ds.head? = some 0 then none else some (ds, rest)

def fractionPart : List Char → Option (Option (List Nat) × List Char)
  | '.' :: rest => do
    let (ds, rest) ← someDigits rest
    return (some ds, rest)
  | cs => some (none, cs)

def exponentDigits (sign : Int) (cs : List Char) : Option (Option Int × List Char) := do
  let (ds, rest) ← someDigits cs
  return (some (sign * Reading.ofDigits ds), rest)

def exponentPart (cs : List Char) : Option (Option Int × List Char) :=
  match cs with
  | 'e' :: rest | 'E' :: rest =>
    match rest with
    | '-' :: rest => exponentDigits (-1) rest
    | '+' :: rest => exponentDigits 1 rest
    | rest => exponentDigits 1 rest
  | cs => some (none, cs)

def numeral (negative : Bool) (cs : List Char) : Option (Json × List Char) := do
  let (whole, rest) ← wholePart cs
  let (fraction, rest) ← fractionPart rest
  let (exponent, rest) ← exponentPart rest
  return (.number ⟨negative, whole, fraction, exponent⟩, rest)

mutual

def value : Nat → List Char → Option (Json × List Char)
  | 0, _ => none
  | fuel + 1, cs =>
    match skip cs with
    | '{' :: rest =>
      match skip rest with
      | '}' :: rest => some (.object [], rest)
      | rest => (members fuel rest).map fun (ms, rest) => (.object ms, rest)
    | '[' :: rest =>
      match skip rest with
      | ']' :: rest => some (.array [], rest)
      | rest => (items fuel rest).map fun (vs, rest) => (.array vs, rest)
    | '"' :: rest => (stringBody rest).map fun (s, rest) => (.string s, rest)
    | 'n' :: 'u' :: 'l' :: 'l' :: rest => some (.null, rest)
    | 't' :: 'r' :: 'u' :: 'e' :: rest => some (.bool true, rest)
    | 'f' :: 'a' :: 'l' :: 's' :: 'e' :: rest => some (.bool false, rest)
    | '-' :: rest => numeral true rest
    | rest => numeral false rest

def items : Nat → List Char → Option (List Json × List Char)
  | 0, _ => none
  | fuel + 1, cs => do
    let (v, rest) ← value fuel cs
    match skip rest with
    | ',' :: rest =>
      let (vs, rest) ← items fuel rest
      return (v :: vs, rest)
    | ']' :: rest => return ([v], rest)
    | _ => none

def members : Nat → List Char → Option (List (Option String × Json) × List Char)
  | 0, _ => none
  | fuel + 1, cs =>
    match skip cs with
    | '"' :: rest => do
      let (k, rest) ← stringBody rest
      match skip rest with
      | ':' :: rest =>
        let (v, rest) ← value fuel rest
        match skip rest with
        | ',' :: rest =>
          let (ms, rest) ← members fuel rest
          return ((k, v) :: ms, rest)
        | '}' :: rest => return ([(k, v)], rest)
        | _ => none
      | _ => none
    | _ => none

end

/-- Reads a text that holds one value and nothing else. Every two levels of the reading take at
least one character. -/
def read? (text : String) : Option Json :=
  let cs := text.toList
  match value (2 * cs.length + 2) cs with
  | some (v, rest) => if (skip rest).isEmpty then some v else none
  | none => none

end Fieldwatch.Json
