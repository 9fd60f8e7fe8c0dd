import Fieldwatch.Json.Reader
import Fieldwatch.Proofs.Number.Notation

/-! JSON texts and the values that they are read as. A text that is read as a value is taken from
whatever text goes on behind it: so a text is read as it is put together. -/

namespace Fieldwatch

open Reading

def Numeral.ofNat (n : Nat) : Numeral :=
  { negative := false
    whole := (toString n).toList.map fun c => c.toNat - '0'.toNat
    fraction := none
    exponent := none }

namespace Json

def EndsNumber (cs : List Char) : Prop :=
  ∀ c ∈ cs.head?, c.isDigit = false ∧ c ≠ '.' ∧ c ≠ 'e' ∧ c ≠ 'E'

/-- A value is taken from the text, and nothing of what follows it. -/
def Reads (text : List Char) (j : Json) : Prop :=
  ∀ fuel rest, text.length ≤ fuel → EndsNumber rest → value fuel (text ++ rest) = some (j, rest)

variable {cs ds blanks rest : List Char} {fuel n : Nat}

theorem toList_toString (n : Nat) : (toString n).toList = Nat.toDigits 10 n := by
  rw [Nat.toString_eq_repr, Nat.toList_repr]

theorem spellsDigits_toString (n : Nat) : SpellsDigits (toString n).toList n := by
  rw [toList_toString]
  exact ⟨Nat.toDigits_ne_nil, fun c hc => Nat.isDigit_of_mem_toDigits (by decide) (by decide) hc,
    Nat.ofDigitChars_ten_toDigits.symm⟩

section Members

variable {key v : List Char} {j : Json}

end Members

structure Member where
  key : String
  text : String
  value : Json

def Member.line (blanks : List Char) (m : Member) : List Char :=
  blanks ++ '"' :: (m.key.toList ++ '"' :: ':' :: ' ' :: m.text.toList)

section Objects

variable {space : List Char} {m : Member} {ms : List Member}

end Objects

def under (key : String) : Json → List Json
  | .object members => members.filterMap fun m => if m.1 = some key then some m.2 else none
  | _ => []

def find (path : List String) (j : Json) : List Json :=
  path.foldl (fun js key => js.flatMap (under key)) [j]

end Json

namespace Numeral

end Numeral
end Fieldwatch
