import Fieldwatch.Worker

/-! The fields of a server: at most one worker per field id. -/

namespace Fieldwatch

inductive Happening where
  | opened (field : FieldId)
  | effect (field : FieldId) (e : Effect)

abbrev Happenings := Emit Happening

def Emit.under {α : Type} (field : FieldId) (r : Effects α) : Happenings α :=
  r.mapLog (·.map (.effect field))

structure Roster where
  config : FieldConfig
  npcField : FieldId
  workers : Std.ExtTreeMap FieldId (Worker Unit) := ∅

namespace Roster

variable (r : Roster)

def ids : List FieldId := r.workers.keys

def size : Nat := r.workers.size

def get? (id : FieldId) : Option (Worker Unit) := r.workers[id]?

def put (id : FieldId) (w : Worker Unit) : Roster := { r with workers := r.workers.insert id w }

def newField (id : FieldId) (enum : Enumeration := .byId) : Effects (Field Unit) :=
  let f := Field.idle id r.config enum
  if id = r.npcField then
    match f.populate {} with
    | some populated => (·.2) <$> populated
    | none => pure f
  else pure f

def newWorker (id : FieldId) (enum : Enumeration := .byId) : Effects (Worker Unit) := do
  (Worker.create (← r.newField id enum) r.config.queueCapacity).start

/-- Makes sure that there is a field with this id: if there is none, one is created and its worker
started. A worker that was there stays as it is. -/
def create (id : FieldId) (enum : Enumeration := .byId) : Happenings Roster :=
  if id ∈ r.workers then pure r
  else do
    Emit.ofLog [.opened id]
    return r.put id (← (r.newWorker id enum).under id)

def updating {α : Type} (id : FieldId) (op : Worker Unit → Effects (α × Worker Unit)) :
    Happenings (Option α × Roster) :=
  match r.get? id with
  | none => pure (none, r)
  | some w => do
    let (a, w) ← (op w).under id
    pure (some a, r.put id w)

def update (id : FieldId) (op : Worker Unit → Effects (Worker Unit)) : Happenings Roster :=
  (·.2) <$> r.updating id fun w => ((), ·) <$> op w

def post (id : FieldId) (m : Message Unit) : Happenings (Bool × Roster) := do
  let (pushed, r) ← r.updating id (·.push m)
  pure (match pushed with | some (.ok ()) => true | _ => false, r)

/-- Visits the fields that are there now, whatever the visits create or change. -/
def forEach (visit : FieldId → Roster → Happenings Roster) : Happenings Roster :=
  r.ids.foldlM (fun r id => visit id r) r

def run : Happenings Roster := r.forEach fun id r => r.update id (·.run)

def stopField (id : FieldId) : Happenings Roster := r.update id (·.stop)

def stopAll : Happenings Roster := do
  let _ ← r.workers.toList.mapM fun (id, w) => w.stop.under id
  pure { r with workers := ∅ }

end Roster
end Fieldwatch
