import Fieldwatch.Emit
import Fieldwatch.Counters
import Fieldwatch.Notice

/-! What the work of a field does outside of it: it sends notices and moves counters. -/

namespace Fieldwatch

inductive Effect where
  | notify (n : Notice)
  | raise (c : Counter) (n : UInt64)
  | lower (c : Counter) (n : UInt64)
  /-- A step was run; how long it took is known only to who ran it. -/
  | stepped

namespace Effect

def notice? : Effect → Option Notice
  | .notify n => some n
  | _ => none

end Effect

def notices (effects : List Effect) : List Notice := effects.filterMap Effect.notice?

namespace Counters

def apply (us : UInt64) (m : Counters) : Effect → Counters
  | .notify _ => m
  | .raise c n => m.raise c n
  | .lower c n => m.lower c n
  | .stepped => m.recordStep us

end Counters

abbrev Effects := Emit Effect

def emit (effects : List Effect) : Effects Unit := Emit.ofLog effects

def send (receiver : EntityId) (event : Event) : Effect := .notify ⟨receiver, event⟩

end Fieldwatch
