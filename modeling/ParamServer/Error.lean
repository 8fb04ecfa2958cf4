import ParamServer.Interval
import ParamServer.Policy
import ParamServer.Scalar

/-!
# Errors and outcomes

Errors by their cause. Each family has one function that words it; `Error.message` puts the family
in front. A `Failure` is an error or a fault, and an `Outcome` also says what state is left
behind.
-/

namespace ParamServer

inductive ConfigError where
  | noRanges
  | rangeCount (ranges shards : Nat)
  | sharedShard (shard : ThreadId) (index : Nat)
  | emptyRange (range : Interval)
  | misordered (first second : Interval)
  | cannotSplit (keys : UInt64) (shards : Nat)
  | recorderMissing
  | recorderUnused (model : Consistency)
  | speculationUnused (model : Consistency)
  | stalenessUnused (model : Consistency)
  | noShards
  | shardIdsOverflow
  | tooManyShards (shards : UInt64)
  | denseTooWide (range : Interval)
  | tableExists (table : TableId)
  | tableHosted (table : TableId) (shard : ThreadId)
  | tableMissing (table : TableId)
  | tableRangeCount (table : TableId) (ranges shards : Nat)
  | tableType (table : TableId) (stored wanted : ScalarType)
  | reservedWorker (worker : ThreadId)
  deriving DecidableEq, Repr

def ConfigError.message : ConfigError → String
  | .noRanges => "a table needs at least one range"
  | .rangeCount ranges shards => s!"{ranges} ranges but {shards} shards"
  | .sharedShard shard index => s!"shard {shard} owns more than one range (index {index})"
  | .emptyRange range => s!"range {range} is empty"
  | .misordered first second => s!"ranges {first} and {second} are unsorted or overlap"
  | .cannotSplit keys shards => s!"cannot split {keys} keys across {shards} shards"
  | .recorderMissing => "sparse SSP needs a recorder"
  | .recorderUnused model => s!"{model.name} does not record writes"
  | .speculationUnused model => s!"{model.name} does not speculate"
  | .stalenessUnused model => s!"{model.name} has no staleness bound"
  | .noShards => "an engine needs at least one shard"
  | .shardIdsOverflow => "shard ids overflow the thread id space"
  | .tooManyShards shards => s!"{shards} shards is too many"
  | .denseTooWide range =>
    s!"dense layout over {range} spans {range.width} keys, more than {maxDenseKeys}"
  | .tableExists table => s!"table {table} already exists"
  | .tableHosted table shard => s!"table {table} already exists on shard {shard}"
  | .tableMissing table => s!"table {table} does not exist"
  | .tableRangeCount table ranges shards =>
    s!"table {table} has {ranges} ranges for {shards} shards"
  | .tableType table stored wanted => s!"table {table} stores {stored.name}, not {wanted.name}"
  | .reservedWorker worker => s!"worker id {worker} is reserved"

/-- Why a message is refused. -/
inductive Malformed where
  | keysExpected (found : ScalarType)
  | noKeys
  | noValues
  | valueType (held : BlockType) (stored : ScalarType)
  | lengthMismatch (keys values : Nat)
  | unsorted (sender : ThreadId)
  | outsideShard (key : Key) (shard : ThreadId) (range : Interval)
  | badWorkerId (id : UInt64)
  | unknownWorker (sender : ThreadId)
  | clockNotAhead (sender : ThreadId) (current clock : Clock)
  | strayResponse (sender : ThreadId)
  deriving DecidableEq, Repr

def Malformed.message : Malformed → String
  | .keysExpected found => s!"first block must hold keys, found {found.name}"
  | .noKeys => "message has no key block"
  | .noValues => "message has no value block"
  | .valueType held stored => s!"value block holds {held.name}, table stores {stored.name}"
  | .lengthMismatch keys values => s!"{keys} keys but {values} values"
  | .unsorted sender => s!"keys from {sender} are not sorted"
  | .outsideShard key shard range => s!"key {key} is outside shard {shard} range {range}"
  | .badWorkerId id => s!"bad worker id {id}"
  | .unknownWorker sender => s!"sender {sender} is not a registered worker"
  | .clockNotAhead sender current clock => s!"clock from {sender} went from {current} to {clock}"
  | .strayResponse sender => s!"shard received a response from {sender}"

/-- How an answer breaks the conversation it belongs to. -/
inductive Violation where
  | duplicate (shard : ThreadId) (request : RequestId)
  | notQueried (shard : ThreadId) (request : RequestId)
  | unreadable (shard : ThreadId) (why : Malformed)
  | wrongPayload (shard : ThreadId) (keys values wanted : Nat)
  | unknownRequest (shard : ThreadId) (request : RequestId)
  | unexpectedAck (shard : ThreadId)
  deriving DecidableEq, Repr

def malformedMessage (why : Malformed) : String := "malformed message: " ++ why.message

def Violation.message : Violation → String
  | .duplicate shard request => s!"duplicate response: shard {shard}, request {request}"
  | .notQueried shard request =>
    s!"response from a shard that was not queried: shard {shard}, request {request}"
  | .unreadable shard why => s!"shard {shard}: " ++ malformedMessage why
  | .wrongPayload shard keys values wanted =>
    s!"shard {shard} answered {keys} keys / {values} values for {wanted} requested"
  | .unknownRequest shard request => s!"response from shard {shard} to unknown request {request}"
  | .unexpectedAck shard => s!"unexpected acknowledgement from shard {shard}"

inductive TransportError where
  | shardTaken (shard : ThreadId)
  | inboxTaken (thread : ThreadId) (table : TableId)
  | noRoute (receiver : ThreadId) (op : Op) (table : TableId)
  | hungUp (receiver : ThreadId)
  | unreachable (shard : ThreadId)
  | inboxClosed (thread : ThreadId)
  | notRunning (shard : ThreadId)
  | crashed (shard : ThreadId)
  deriving DecidableEq, Repr

def TransportError.message : TransportError → String
  | .shardTaken shard => s!"shard {shard} registered twice"
  | .inboxTaken thread table => s!"thread {thread} already has an inbox for table {table}"
  | .noRoute receiver op table => s!"no route to thread {receiver} for {op.name} on table {table}"
  | .hungUp receiver => s!"thread {receiver} hung up"
  | .unreachable shard => s!"shard {shard} unreachable"
  | .inboxClosed thread => s!"inbox of thread {thread} closed"
  | .notRunning shard => s!"shard {shard} is not running"
  | .crashed shard => s!"shard {shard} panicked"

/-- Why bytes are no message. -/
inductive CodecError where
  | unexpectedEnd
  | badVariant (index : UInt32) (count : Nat)
  deriving DecidableEq, Repr

def CodecError.message : CodecError → String
  | .unexpectedEnd => "io error: unexpected end of file"
  | .badVariant index count =>
    s!"invalid value: integer `{index}`, expected variant index 0 <= i < {count}"

inductive Error where
  | config (why : ConfigError)
  | keyOutOfRange (key : Key)
  | malformed (why : Malformed)
  | protocol (why : Violation)
  | timeout (request : RequestId)
  | transport (why : TransportError)
  | codec (why : CodecError)
  deriving DecidableEq, Repr

def Error.message : Error → String
  | .config why => "invalid configuration: " ++ why.message
  | .keyOutOfRange key => s!"key {key} is outside every configured range"
  | .malformed why => malformedMessage why
  | .protocol why => "protocol violation: " ++ why.message
  | .timeout request => s!"request {request} timed out"
  | .transport why => "transport error: " ++ why.message
  | .codec why => "codec error: " ++ why.message

inductive Failure where
  | error (why : Error)
  | fault (why : Fault)
  deriving DecidableEq, Repr

/-- A computation that answers, is refused, or faults. -/
abbrev Attempt := Except Failure

instance : MonadLift (Except Error) Attempt := ⟨Except.mapError .error⟩

instance : MonadLift (Except Fault) Attempt := ⟨Except.mapError .fault⟩

/--
What an operation on a state comes to. A refused operation still leaves a state, which need not be
the one it was started in; after a fault there is none.
-/
inductive Outcome (σ α : Type) where
  | ok (answer : α) (state : σ)
  | error (why : Error) (state : σ)
  | fault (why : Fault)

namespace Outcome

variable {σ ρ α β : Type}

def bind (o : Outcome σ α) (f : α → σ → Outcome σ β) : Outcome σ β :=
  match o with
  | .ok a s => f a s
  | .error why s => .error why s
  | .fault why => .fault why

/-- Puts the state left behind back into a larger one. -/
def mapState (f : σ → ρ) : Outcome σ α → Outcome ρ α
  | .ok a s => .ok a (f s)
  | .error why s => .error why (f s)
  | .fault why => .fault why

def map (f : α → β) : Outcome σ α → Outcome σ β
  | .ok a s => .ok (f a) s
  | .error why s => .error why s
  | .fault why => .fault why

/-- An operation that is all or nothing: refused, it leaves `s` as it was. -/
def ofExcept (s : σ) : Except Error (α × σ) → Outcome σ α
  | .ok (a, s') => .ok a s'
  | .error why => .error why s

end Outcome

end ParamServer
