import Fieldwatch.Proofs.Exposition.Document
import Mathlib.Data.List.Nodup

/-! The samples of the counters, read line by line. -/

namespace Fieldwatch

open Reading

/-- Lines that are not taken for something else. -/
structure Sample.IsClean (s : Sample) : Prop where
  nameless : s.name.toList ≠ []
  hash : s.name.toList.head? ≠ some '#'
  blank : ' ' ∉ s.name.toList
  name : '\n' ∉ s.name.toList
  help : '\n' ∉ s.help.toList
  type : '\n' ∉ s.type.toList

theorem not_mem_toString {c : Char} (hc : c.isDigit = false) (n : UInt64) :
    c ∉ (toString n).toList := by
  intro hmem
  have := (Json.spellsDigits_toString n.toNat).digits c hmem
  rw [hc] at this
  cases this

namespace Sample

variable {s : Sample}

theorem IsClean.lines (h : s.IsClean) (n : UInt64) : ∀ l ∈ s.lines n, '\n' ∉ l.toList := by
  have hdigits := not_mem_toString (c := '\n') rfl n
  simp [Sample.lines, h.name, h.help, h.type, hdigits]

end Sample

namespace Counters

variable (m : Counters)

def shown (uptime : UInt64) : List (Sample × UInt64) :=
  (Counter.all.map fun c => (Sample.ofCounter c, m.get c)) ++ [(Sample.uptime, uptime)]

variable {m} {n : Counters} {uptime : UInt64}

end Counters
end Fieldwatch
