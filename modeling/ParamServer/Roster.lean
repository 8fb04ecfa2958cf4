import ParamServer.Error
import ParamServer.SortedMap

/-!
# Worker clocks

The clocks of a table's workers, as one shard knows them. A roster is open, and then takes in
whoever turns up, or closed, and then knows its workers once and for all. The minimum is kept
beside the clocks.
-/

namespace ParamServer

structure Roster where
  clocks : SortedMap ThreadId Clock
  closed : Bool
  minClock : Clock

namespace Roster

def empty : Roster := ⟨.empty, false, 0⟩

/-- The lowest of the clocks, 0 where there is none. -/
def lowest (clocks : SortedMap ThreadId Clock) : Clock := clocks.values.min?.getD 0

def size (r : Roster) : Nat := r.clocks.size

def clockOf? (r : Roster) (worker : ThreadId) : Option Clock := r.clocks.get? worker

/-- Closes the roster over `workers`, all of them at clock 0. -/
def reset (_ : Roster) (workers : List ThreadId) : Roster :=
  ⟨.ofList (workers.map (·, 0)), true, 0⟩

/-- A closed roster turns strangers away. -/
def check (r : Roster) (worker : ThreadId) : Except Error Unit :=
  if r.closed && !r.clocks.contains worker then .error (.malformed (.unknownWorker worker))
  else .ok ()

/-- Takes a worker in at clock 0, unless it is there already. -/
def enrol (r : Roster) (worker : ThreadId) : Except Error Roster :=
  if r.clocks.contains worker then .ok r
  else do
    r.check worker
    return { r with clocks := r.clocks.insert worker 0, minClock := 0 }

/-- Moves a worker ahead to `clock`. The answer is the new minimum, if that has risen. -/
def advance (r : Roster) (worker : ThreadId) (clock : Clock) :
    Except Error (Option Clock × Roster) := do
  let current ←
    match r.clocks.get? worker with
    | some current => pure current
    | none => do
      r.check worker
      pure 0
  if clock ≤ current then throw (.malformed (.clockNotAhead worker current clock))
  let clocks := r.clocks.insert worker clock
  let low := lowest clocks
  return (if low > r.minClock then some low else none, { r with clocks, minClock := low })

end Roster

end ParamServer
