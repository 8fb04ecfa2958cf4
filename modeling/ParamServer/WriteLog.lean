import ParamServer.Store

/-!
# Write logs

Who wrote which keys of late: the writes that the slowest worker has not clocked past. Repeated
writes of one worker in one iteration count once.
-/

namespace ParamServer

structure Stamp where
  writer : ThreadId
  clock : Clock
  deriving DecidableEq, Repr

inductive WriteLog where
  | sparse (stamps : SortedMap Key (List Stamp))
  | dense (range : Interval) (slots : Slots (List Stamp) range)

namespace WriteLog

def new (backing : Backing) (range : Interval) : Except Error WriteLog :=
  match backing with
  | .sparse => .ok (.sparse .empty)
  | .dense => (Slots.filled range []).map (.dense range)

/-- The writes of a key, the oldest first. -/
def stamps (log : WriteLog) (key : Key) : List Stamp :=
  match log with
  | .sparse stamps => (stamps.get? key).getD []
  | .dense range slots =>
    if h : key ∈ range then slots.slot key h else []

def stamp (history : List Stamp) (s : Stamp) : List Stamp :=
  if s ∈ history then history else history ++ [s]

def record (log : WriteLog) (key : Key) (writer : ThreadId) (clock : Clock) :
    Outcome WriteLog Unit :=
  match log with
  | .sparse stamps =>
    .ok () (.sparse (stamps.alter key fun history =>
      some (stamp (history.getD []) ⟨writer, clock⟩)))
  | .dense range slots =>
    if h : key ∈ range then
      .ok () (.dense range (slots.put key h (stamp (slots.slot key h) ⟨writer, clock⟩)))
    else .error (.keyOutOfRange key) (.dense range slots)

/-- Stamps one key after the other, up to the first that is refused. -/
def recordAll (log : WriteLog) (writer : ThreadId) (clock : Clock) :
    List Key → Outcome WriteLog Unit
  | [] => .ok () log
  | key :: rest => (log.record key writer clock).bind fun _ log => log.recordAll writer clock rest

/-- How many writes of `key` are by others than `reader`. -/
def foreignWrites (log : WriteLog) (key : Key) (reader : ThreadId) : Nat :=
  (log.stamps key).countP (·.writer ≠ reader)

/-- Drops the writes below `clock`. -/
def forgetBelow (log : WriteLog) (clock : Clock) : WriteLog :=
  let recent := List.filter (α := Stamp) (clock ≤ ·.clock)
  match log with
  | .sparse stamps =>
    .sparse (stamps.filterMap fun _ history =>
      let history := recent history
      if history.isEmpty then none else some history)
  | .dense range slots => .dense range (slots.map recent)

/-- Keys with at least one write. -/
def size : WriteLog → Nat
  | .sparse stamps => stamps.size
  | .dense _ slots => slots.countP (!·.isEmpty)

end WriteLog

end ParamServer
