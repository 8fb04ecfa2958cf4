import ParamServer.Slice
import ParamServer.Spec
import ParamServer.WriteLog

/-!
# Tablets

A shard's part of a table together with the rule that says when its reads are answered. Updates
change the store at once, except that a barrier keeps those from beyond it back; reads that come
too early wait, and a clock that lifts the minimum lets go of whatever it opens the way for.
-/

namespace ParamServer

/-- When a read may be answered. -/
inductive Gate where
  /-- Always. -/
  | open
  /-- When the slowest worker has reached the reader's clock. -/
  | barrier
  /-- When the slowest worker is at most `staleness` behind the reader. -/
  | bounded (staleness : Clock)
  /-- As `bounded`, or while each key has fewer than `threshold` recent writes by others. -/
  | speculative (staleness : Clock) (threshold : UInt64) (log : WriteLog)

namespace Gate

def model : Gate → Consistency
  | .open => .asp
  | .barrier => .bsp
  | .bounded _ => .ssp
  | .speculative .. => .sparseSsp

/-- The minimum that answers a read at `clock` in any case. -/
def due : Gate → Clock → Clock
  | .open, _ => 0
  | .barrier, clock => clock
  | .bounded staleness, clock => if staleness ≤ clock then clock - staleness else 0
  | .speculative staleness _ _, clock => if staleness ≤ clock then clock - staleness else 0

/-- Whether the keys of a read are quiet enough to answer it early. -/
def early : Gate → Message → Bool
  | .speculative _ threshold log, m =>
    decide (threshold > 0) &&
      match m.keys with
      | .ok keys => keys.all fun key => decide (log.foreignWrites key m.sender < threshold.toNat)
      | .error _ => false
  | _, _ => false

def passes (g : Gate) (minClock : Clock) (m : Message) : Bool :=
  decide (g.due m.clock ≤ minClock) || g.early m

def ofSpec (spec : TableSpec) (range : Interval) : Except Error Gate :=
  match spec.model with
  | .asp => .ok .open
  | .bsp => .ok .barrier
  | .ssp => .ok (.bounded spec.staleness)
  | .sparseSsp =>
    match spec.recorder with
    | none => .error (.config .recorderMissing)
    | some backing =>
      (WriteLog.new backing range).map (.speculative spec.staleness spec.speculation)

end Gate

structure Tablet (τ : ScalarType) where
  slice : Slice τ
  gate : Gate

/-- A tablet from the outside. -/
structure TabletStatus where
  table : TableId
  model : Consistency
  minClock : Clock
  workers : Nat
  waiting : Nat
  stored : Nat
  deriving DecidableEq, Repr

namespace Tablet

variable {τ : ScalarType}

/-- Puts a tablet together without asking whether its specification makes sense. -/
def assemble (τ : ScalarType) (spec : TableSpec) (table : TableId) (shard : ThreadId)
    (range storeRange logRange : Interval) : Except Error (Tablet τ) := do
  let store ← Store.new τ spec.storage storeRange
  let gate ← Gate.ofSpec spec logRange
  return ⟨.new table shard range store, gate⟩

def new (τ : ScalarType) (spec : TableSpec) (table : TableId) (shard : ThreadId)
    (range : Interval) : Except Error (Tablet τ) := do
  spec.validate
  assemble τ spec table shard range range range

def status (t : Tablet τ) : TabletStatus where
  table := t.slice.table
  model := t.gate.model
  minClock := t.slice.minClock
  workers := t.slice.roster.size
  waiting := t.slice.waiting.size
  stored := t.slice.store.size

def onAdd (t : Tablet τ) (m : Message) : Outcome (Tablet τ) Unit :=
  match t.slice.acceptAdd m with
  | .error why => .error why t
  | .ok slice =>
    let applied := (slice.applyAdd m).mapState (Tablet.mk · t.gate)
    match t.gate with
    | .open | .bounded _ => applied
    | .barrier =>
      if m.clock ≤ slice.minClock then applied
      else .ok () { t with slice := { slice with waiting := slice.waiting.park m.clock m } }
    | .speculative staleness threshold log =>
      applied.bind fun _ t =>
        match Slice.keysOf m with
        | .error why => .error why t
        | .ok keys =>
          (log.recordAll m.sender m.clock keys).mapState fun log =>
            { t with gate := .speculative staleness threshold log }

/-- The answer, or nothing yet. -/
def onGet (t : Tablet τ) (m : Message) : Outcome (Tablet τ) (Option Message) :=
  match t.slice.acceptGet m with
  | .error why => .error why t
  | .ok slice =>
    if t.gate.passes slice.minClock m then
      .ofExcept { t with slice } ((slice.answer m).map (some ·, { t with slice }))
    else
      let waiting := slice.waiting.park (t.gate.due m.clock) m
      .ok none { t with slice := { slice with waiting } }

/-- Carries out updates that have waited; one that is refused is dropped. -/
def applyAll (slice : Slice τ) : List Message → Except Fault (Slice τ)
  | [] => .ok slice
  | m :: ms =>
    match slice.applyAdd m with
    | .ok _ slice => applyAll slice ms
    | .error _ slice => applyAll slice ms
    | .fault why => .error why

/-- The minimum has risen to `low`: lets go of what that opens the way for, updates first. -/
def release (t : Tablet τ) (low : Clock) : Outcome (Tablet τ) (List Message) :=
  match t.gate with
  | .open => .ok [] t
  | .barrier =>
    let (due, waiting) := t.slice.waiting.takeThrough low
    let (adds, gets) := due.partition (·.op = .add)
    match applyAll { t.slice with waiting } adds with
    | .error why => .fault why
    | .ok slice => .ok (slice.answerAll gets) { t with slice }
  | .bounded _ =>
    let (due, waiting) := t.slice.waiting.takeThrough low
    let slice := { t.slice with waiting }
    .ok (slice.answerAll due) { t with slice }
  | .speculative staleness threshold log =>
    let gate := Gate.speculative staleness threshold (log.forgetBelow low)
    let (due, waiting) := t.slice.waiting.takeThrough low
    let (quiet, waiting) := waiting.takeWhere gate.early
    let slice := { t.slice with waiting }
    .ok (slice.answerAll (due ++ quiet)) { slice, gate }

/-- Moves the sender's clock ahead and answers the reads this releases. -/
def onClock (t : Tablet τ) (m : Message) : Outcome (Tablet τ) (List Message) :=
  match t.slice.roster.advance m.sender m.clock with
  | .error why => .error why t
  | .ok (risen, roster) =>
    let t := { t with slice := { t.slice with roster } }
    match risen with
    | none => .ok [] t
    | some low => t.release low

def onReset (t : Tablet τ) (m : Message) : Outcome (Tablet τ) Message :=
  .ofExcept t ((t.slice.resetWorkers m).map fun (ack, slice) => (ack, { t with slice }))

/-- Takes in one message and answers with the messages to send back. -/
def handle (t : Tablet τ) (m : Message) : Outcome (Tablet τ) (List Message) :=
  match m.op with
  | .add => (t.onAdd m).map fun _ => []
  | .get => (t.onGet m).map Option.toList
  | .clock => t.onClock m
  | .resetWorkers => (t.onReset m).map ([·])
  | .response => .error (.malformed (.strayResponse m.sender)) t

end Tablet

end ParamServer
