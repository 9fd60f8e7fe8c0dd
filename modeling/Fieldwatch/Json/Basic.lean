import Fieldwatch.Json.Numeral

/-! JSON values as they stand in a text: objects keep the order and the repetitions of their
members, numbers their digits. -/

namespace Fieldwatch

inductive Json where
  | null
  | bool (b : Bool)
  | number (n : Numeral)
  /-- A string; nothing where its escapes do not spell a text. -/
  | string (s : Option String)
  | array (items : List Json)
  | object (members : List (Option String × Json))
deriving Inhabited

end Fieldwatch
