import Std.Data.ExtTreeSet
import Std.Data.ExtTreeMap

/-! Names of things: players and monsters share one space of 64-bit ids, fields have 32-bit ids. -/

namespace Fieldwatch

abbrev EntityId := UInt64

abbrev FieldId := UInt32

abbrev IdSet := Std.ExtTreeSet EntityId

abbrev IdMap (α : Type) := Std.ExtTreeMap EntityId α

end Fieldwatch
