import ParamServer.Cluster
import ParamServer.Options

/-!
# The workload

Every worker reads a batch of keys, adds one to each of them and moves its clock on, over and
over. When all are done, each key must hold the number of times it was chosen.
-/

namespace ParamServer

/-- The keys of a worker in an iteration, in ascending order. -/
abbrev Batches := ThreadId → Nat → List Key

namespace Batches

def all (keys : UInt64) : List Key := (List.range keys.toNat).map UInt64.ofNat

/-- Adds one of the first `n` keys that is not there yet, for `n = from`, `from + 1` and so on. -/
def extend (gen : StdGen) (chosen : SortedMap Key Unit) (start : Nat) : Nat → SortedMap Key Unit
  | 0 => chosen
  | more + 1 =>
    let (n, gen) := randNat gen 0 start
    let key := UInt64.ofNat n
    let key := if chosen.contains key then UInt64.ofNat start else key
    extend gen (chosen.insert key ()) (start + 1) more

/-- `amount` of the keys below `keys`, by the seed. -/
def sample (seed : Nat) (keys : UInt64) (amount : Nat) : List Key :=
  if keys.toNat ≤ amount then all keys
  else (extend (mkStdGen seed) .empty (keys.toNat - amount) amount).keys

def random (seed : Nat) (keys batch : UInt64) : Batches := fun worker iteration =>
  sample (seed + 7919 * worker.toNat + 104729 * iteration) keys batch.toNat

end Batches

/-- How a run ends. -/
inductive Ending where
  /-- All is accounted for; the sum of all values. -/
  | total (sum : Double)
  | mismatched (wrong : Nat) (keys : UInt64)
  | noWorkers
  | failed (why : Failure)

namespace Ending

def exitCode : Ending → UInt32
  | .total _ => 0
  | .failed (.fault _) => 101
  | _ => 1

/-- What is said about it when it is no success. -/
def complaint? : Ending → Option String
  | .total _ => none
  | .mismatched wrong keys => some s!"{wrong} of {keys} keys disagree with the applied updates"
  | .noWorkers => some "no workers ran"
  | .failed (.error why) => some why.message
  | .failed (.fault why) => some why.message

end Ending

structure Report where
  /-- Whether the workers were started. -/
  started : Bool
  status : List (ThreadId × List TabletStatus)
  ending : Ending

/-- A worker on its way through the iterations. -/
structure Worker where
  handle : Handle .double
  iteration : Nat := 0
  /-- The batch it is waiting to read. -/
  reading : Option (List Key × Pull .double) := none

namespace Workload

/-- The table of the workload. -/
def table : TableId := 0

def one : Double := ⟨0x3ff0000000000000⟩

def ones (batch : List Key) : List Double := batch.map fun _ => one

/-- What is left of an operation, if it was carried out. -/
def require {σ α : Type} : Outcome σ α → Attempt (α × σ)
  | .ok a s => .ok (a, s)
  | .error why _ => .error (.error why)
  | .fault why => .error (.fault why)

/-- Asks for the next batch, or looks whether it has come and, if so, completes the iteration. -/
def step (batches : Batches) (iterations : Nat) (c : Cluster) (w : Worker) :
    Attempt (Cluster × Worker) :=
  match w.reading with
  | none =>
    if w.iteration = iterations then return (c, w)
    else do
      let batch := batches w.handle.session.worker w.iteration
      let (p, c, handle) ← require (c.startPull w.handle batch)
      return (c, { w with handle, reading := some (batch, p) })
  | some (batch, p) =>
    match c.collect w.handle p with
    | .failed why _ _ => throw (.error why)
    | .pending p session =>
      return (c.leaveUnread w.handle [],
        { w with handle := { w.handle with session }, reading := some (batch, p) })
    | .done _ session unread => do
      let handle := { w.handle with session }
      let c := c.leaveUnread handle unread
      let (_, c) ← require (c.push (τ := .double) handle batch (ones batch))
      let (_, c, handle) ← require (c.tick handle)
      return (c, { handle, iteration := w.iteration + 1 })

/-- Every worker takes a step. -/
def round (batches : Batches) (iterations : Nat) (c : Cluster) :
    List Worker → Attempt (Cluster × List Worker)
  | [] => return (c, [])
  | w :: rest => do
    let (c, w) ← step batches iterations c w
    let (c, rest) ← round batches iterations c rest
    return (c, w :: rest)

/-- Goes round until all are done. The slowest worker never waits, so `n` need not be more than two
rounds for each iteration of each worker. -/
def rounds (batches : Batches) (iterations : Nat) :
    Nat → Cluster → List Worker → Attempt (Cluster × List Worker)
  | 0, c, ws => return (c, ws)
  | n + 1, c, ws => do
    if ws.all (·.iteration = iterations) then return (c, ws)
    let (c, ws) ← round batches iterations c ws
    rounds batches iterations n c ws

def openWorkers (c : Cluster) : List ThreadId → Except Error (Cluster × List Worker)
  | [] => return (c, [])
  | id :: rest => do
    let (handle, c) ← c.openHandle .double id table
    let (c, workers) ← openWorkers c rest
    return (c, { handle } :: workers)

/-- How often each key was chosen. -/
def expected (batches : Batches) (o : Options) (workers : List ThreadId) :
    Attempt (Store .double) := do
  let chosen := workers.flatMap fun w => (List.range o.iterations.toNat).flatMap (batches w)
  let counts ← Store.new .double .dense ⟨0, o.keys⟩
  let (_, counts) ← require (counts.addAll (chosen.map (·, one)))
  return counts

/-- A cluster with its table and workers, before anything has run. -/
def setUp (o : Options) : Attempt (Cluster × List ThreadId) := do
  let spec ← o.tableSpec
  let c ← Cluster.start (← o.clusterSpec)
  let (_, c) ← require (c.createTableEven .double table o.keys spec)
  let ids ← o.workerIds
  let (_, c) ← require (c.initTable table ids)
  return (c, ids)

/-- Lets the workers run, and has the first of them read the whole table. -/
def work (batches : Batches) (o : Options) (c : Cluster) (ids : List ThreadId) :
    Attempt (List (ThreadId × List TabletStatus) × Ending) := do
  let iterations := o.iterations.toNat
  let (c, workers) ← openWorkers c ids
  let (c, workers) ← rounds batches iterations (2 * iterations * ids.length) c workers
  match workers with
  | [] => return ([], .noWorkers)
  | reader :: _ =>
    let keys := Batches.all o.keys
    let (values, c, _) ← require (c.pull reader.handle keys)
    let counts ← (← expected batches o ids).readAll keys
    let status ← c.status
    let wrong := (counts.zip values).countP fun (count, value) => count ≠ value
    if 0 < wrong then return (status, .mismatched wrong o.keys)
    return (status, .total (values.foldl Double.add ⟨0⟩))

def run (batches : Batches) (o : Options) : Report :=
  match setUp o with
  | .error why => ⟨false, [], .failed why⟩
  | .ok (c, ids) =>
    match work batches o c ids with
    | .error why => ⟨true, [], .failed why⟩
    | .ok (status, ending) => ⟨true, status, ending⟩

end Workload

end ParamServer
