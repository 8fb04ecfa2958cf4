import ParamServer.Message
import ParamServer.Roster
import ParamServer.Store
import ParamServer.Waitlist

/-!
# Slices

A shard's part of one table, whatever its consistency: the values, the messages that wait, and the
workers' clocks.
-/

namespace ParamServer

structure Slice (τ : ScalarType) where
  table : TableId
  shard : ThreadId
  range : Interval
  store : Store τ
  waiting : Waitlist
  roster : Roster

namespace Slice

variable {τ : ScalarType}

/-- Nothing waits, and any worker may turn up. -/
def new (table : TableId) (shard : ThreadId) (range : Interval) (store : Store τ) : Slice τ :=
  { table, shard, range, store, waiting := .empty, roster := .empty }

def minClock (s : Slice τ) : Clock := s.roster.minClock

def keysOf (m : Message) : Except Error (List Key) := m.keys.mapError .malformed

/-- Keys in ascending order and all of them the shard's. -/
def checkKeys (s : Slice τ) (m : Message) : Except Error Unit := do
  let keys ← keysOf m
  unless ascending keys do throw (.malformed (.unsorted m.sender))
  match keys.find? (· ∉ s.range) with
  | some key => throw (.malformed (.outsideShard key s.shard s.range))
  | none => pure ()

/-- Keys and values of an update. -/
def deltas (τ : ScalarType) (m : Message) : Except Error (List Key × List τ.Value) := do
  let keys ← keysOf m
  let values ← (m.values τ).mapError .malformed
  return (keys, values)

/-- Looks an update over as a whole and, if it is sound, takes its sender in. -/
def acceptAdd (s : Slice τ) (m : Message) : Except Error (Slice τ) := do
  s.roster.check m.sender
  s.checkKeys m
  let (keys, values) ← deltas τ m
  if keys.length ≠ values.length then
    throw (.malformed (.lengthMismatch keys.length values.length))
  return { s with roster := ← s.roster.enrol m.sender }

/-- Looks the keys of a read over and, if they are sound, takes its sender in. -/
def acceptGet (s : Slice τ) (m : Message) : Except Error (Slice τ) := do
  s.roster.check m.sender
  s.checkKeys m
  return { s with roster := ← s.roster.enrol m.sender }

def applyAdd (s : Slice τ) (m : Message) : Outcome (Slice τ) Unit :=
  match deltas τ m with
  | .error why => .error why s
  | .ok (keys, values) => (s.store.addAll (keys.zip values)).mapState ({ s with store := · })

/-- What a read gets to see now. -/
def answer (s : Slice τ) (m : Message) : Except Error Message := do
  let keys ← keysOf m
  let values ← s.store.readAll keys
  return { m.reply with blocks := [.keys keys, .ofValues τ values] }

/-- Answers reads that have waited; one that cannot be answered is dropped. -/
def answerAll (s : Slice τ) (ms : List Message) : List Message :=
  ms.filterMap fun m => (s.answer m).toOption

def workerId (key : Key) : Except Error ThreadId :=
  if key.toNat < UInt32.size then .ok key.toUInt32 else .error (.malformed (.badWorkerId key))

/-- Closes the roster over the workers that the message lists, and acknowledges it. -/
def resetWorkers (s : Slice τ) (m : Message) : Except Error (Message × Slice τ) := do
  let keys ← keysOf m
  let workers ← keys.mapM workerId
  return (m.reply, { s with roster := s.roster.reset workers })

end Slice

end ParamServer
