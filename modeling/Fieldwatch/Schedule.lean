import Fieldwatch.Roster

/-! The drivers that keep the time of the fields. There is a fixed number of them, and every field
belongs to the one that its id leaves as a remainder. Whenever a driver wakes it sends each of its
fields a tick of the time since it last woke. Times are in nanoseconds. -/

namespace Fieldwatch

structure Driver where
  index : Nat
  last : Nat
deriving DecidableEq, Inhabited

structure Schedule where
  threads : Nat
  period : Nat
  drivers : List Driver := []

namespace Schedule

def create (threads period : Nat) : Schedule := { threads := max threads 1, period := period }

variable (s : Schedule)

def isRunning : Bool := !s.drivers.isEmpty

def start (now : Nat) : Schedule :=
  if s.isRunning then s else { s with drivers := (List.range s.threads).map (⟨·, now⟩) }

def stop : Schedule := { s with drivers := [] }

def driverOf (id : FieldId) : Nat := id.toNat % s.threads

end Schedule

namespace Driver

/-- So many nanoseconds, in seconds: whole seconds and the rest are converted one by one. -/
def seconds (ns : Nat) : Float32 :=
  (ns / 1000000000).toUInt64.toFloat32 + (ns % 1000000000).toUInt64.toFloat32 / 1000000000

def elapsed (d : Driver) (now : Nat) : Nat := now - d.last

/-- The driver wakes at `now`. A field whose mailbox does not take the tick goes without it. -/
def wake (d : Driver) (s : Schedule) (now : Nat) (r : Roster) : Happenings (Driver × Roster) := do
  let dt := seconds (d.elapsed now)
  let r ← r.forEach fun id r =>
    if s.driverOf id = d.index then (·.2) <$> r.post id (.tick dt) else pure r
  pure ({ d with last := now }, r)

end Driver

namespace Schedule

def wakeAll (s : Schedule) (now : Nat) (r : Roster) :
    Happenings (Schedule × Roster) := do
  let (drivers, r) ← s.drivers.foldlM
    (fun (woken, r) d => do
      let (d, r) ← d.wake s now r
      pure (woken ++ [d], r))
    ([], r)
  pure ({ s with drivers := drivers }, r)

end Schedule
end Fieldwatch
