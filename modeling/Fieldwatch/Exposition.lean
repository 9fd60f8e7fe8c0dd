import Fieldwatch.Counters

/-! The counters as text, in two forms: as samples, each with its help and its type on lines of
their own, and as a JSON document. -/

namespace Fieldwatch

structure Sample where
  name : String
  help : String
  type : String

namespace Sample

def gauge (name help : String) : Sample := ⟨"field_server_" ++ name, help, "gauge"⟩

def counter (name help : String) : Sample := ⟨"field_server_" ++ name, help, "counter"⟩

def ofCounter : Counter → Sample
  | .fieldsActive => gauge "fields_active" "Number of running field actors"
  | .playersActive => gauge "players_active" "Players currently inside a field"
  | .npcsAlive => gauge "npcs_alive" "Live NPCs across all fields"
  | .messagesPushed => counter "messages_pushed_total" "Messages accepted into field queues"
  | .messagesProcessed => counter "messages_processed_total" "Messages applied by field actors"
  | .messagesRejected =>
    counter "messages_rejected_total" "Messages rejected by a full or stopped queue"
  | .messagesMalformed => counter "messages_malformed_total" "Payloads dropped as malformed"
  | .handlerPanics => counter "handler_panics_total" "Message handlers that panicked"
  | .aoiEvents => counter "aoi_events_total" "Visibility events emitted"
  | .eventsDelivered => counter "events_delivered_total" "Events queued to sessions"
  | .eventsDropped => counter "events_dropped_total" "Events dropped for full or closed sessions"
  | .tickTime => gauge "tick_time_microseconds" "Last field step time in microseconds"
  | .tickTimeP95 => gauge "tick_time_p95_microseconds" "95th percentile field step time"
  | .tickTimeP99 => gauge "tick_time_p99_microseconds" "99th percentile field step time"
  | .tickTimeMax => gauge "tick_time_max_microseconds" "Maximum field step time"
  | .tickCount => counter "tick_count" "Total field steps processed"

def uptime : Sample := counter "uptime_seconds" "Server uptime in seconds"

def lines (s : Sample) (value : UInt64) : List String :=
  ["# HELP " ++ s.name ++ " " ++ s.help, "# TYPE " ++ s.name ++ " " ++ s.type,
    s.name ++ " " ++ toString value]

end Sample

def jsonGroups : List (String × List (String × Counter)) :=
  [("fields",
      [("active", .fieldsActive), ("players", .playersActive), ("npcs_alive", .npcsAlive)]),
    ("queues",
      [("pushed", .messagesPushed), ("processed", .messagesProcessed),
        ("rejected", .messagesRejected), ("malformed", .messagesMalformed),
        ("panics", .handlerPanics)]),
    ("aoi",
      [("events", .aoiEvents), ("delivered", .eventsDelivered), ("dropped", .eventsDropped)]),
    ("performance",
      [("tick_time_us", .tickTime), ("tick_time_p95_us", .tickTimeP95),
        ("tick_time_p99_us", .tickTimeP99), ("tick_time_max_us", .tickTimeMax),
        ("tick_count", .tickCount)])]

namespace Counters

variable (m : Counters)

def sampleLines (uptime : UInt64) : List String :=
  (Counter.all.flatMap fun c => (Sample.ofCounter c).lines (m.get c)) ++ Sample.uptime.lines uptime

def samples (uptime : UInt64) : String := String.join ((m.sampleLines uptime).map (· ++ "\n"))

def entry (indent key value : String) : String := indent ++ "\"" ++ key ++ "\": " ++ value

def block (indent : String) (entries : List String) : String :=
  "\x7b\n" ++ ",\n".intercalate entries ++ "\n" ++ indent ++ "\x7d"

def document (uptime : UInt64) : String :=
  block ""
    ((jsonGroups.map fun (name, counters) =>
        entry "  " name
          (block "  " (counters.map fun (key, c) => entry "    " key (toString (m.get c))))) ++
      [entry "  " "uptime_seconds" (toString uptime)])

end Counters
end Fieldwatch
