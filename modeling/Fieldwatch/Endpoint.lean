import Fieldwatch.Exposition

/-! Answers to requests for the metrics of a server. Requests are bytes, of which only the first
line's beginning counts. -/

namespace Fieldwatch.Endpoint

inductive Page where
  | document
  | samples
  | health
deriving DecidableEq, Inhabited

/-- The paths, of which the first that a request begins with counts. -/
def paths : List (String × Page) :=
  [("GET /metrics/json", .document), ("GET /metrics", .samples), ("GET /health", .health)]

def readLimit : Nat := 1024

def page? (request : List UInt8) : Option Page :=
  (paths.find? fun p => p.1.toUTF8.toList.isPrefixOf request).map (·.2)

def found (contentType body : String) : String :=
  "HTTP/1.1 200 OK\r\nContent-Type: " ++ contentType ++ "\r\nContent-Length: " ++
    toString body.utf8ByteSize ++ "\r\nConnection: close\r\n\r\n" ++ body

def notFound : String := "HTTP/1.1 404 Not Found\r\nContent-Length: 0\r\nConnection: close\r\n\r\n"

/-- The answer to a request; an empty one gets none. -/
def respond (m : Counters) (uptime : UInt64) (request : List UInt8) : Option String :=
  if request.isEmpty then none
  else
    match page? (request.take readLimit) with
    | some .document => found "application/json" (m.document uptime)
    | some .samples => found "text/plain; version=0.0.4" (m.samples uptime)
    | some .health => found "text/plain" "OK"
    | none => notFound

end Fieldwatch.Endpoint
