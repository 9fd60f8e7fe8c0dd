import Fieldwatch.Exposition
import Fieldwatch.Proofs.Json.Reading

/-! The JSON document of the counters, read back. -/

namespace Fieldwatch

open Json

def Counter.path : Counter → List String
  | .fieldsActive => ["fields", "active"]
  | .playersActive => ["fields", "players"]
  | .npcsAlive => ["fields", "npcs_alive"]
  | .messagesPushed => ["queues", "pushed"]
  | .messagesProcessed => ["queues", "processed"]
  | .messagesRejected => ["queues", "rejected"]
  | .messagesMalformed => ["queues", "malformed"]
  | .handlerPanics => ["queues", "panics"]
  | .aoiEvents => ["aoi", "events"]
  | .eventsDelivered => ["aoi", "delivered"]
  | .eventsDropped => ["aoi", "dropped"]
  | .tickTime => ["performance", "tick_time_us"]
  | .tickTimeP95 => ["performance", "tick_time_p95_us"]
  | .tickTimeP99 => ["performance", "tick_time_p99_us"]
  | .tickTimeMax => ["performance", "tick_time_max_us"]
  | .tickCount => ["performance", "tick_count"]

namespace Counters

variable (m : Counters)

def group (g : String × List (String × Counter)) : Member :=
  { key := g.1
    text := block "  " (g.2.map fun e => entry "    " e.1 (toString (m.get e.2)))
    value := .object (g.2.map fun e => (some e.1, .number (.ofNat (m.get e.2).toNat))) }

end Counters
end Fieldwatch
