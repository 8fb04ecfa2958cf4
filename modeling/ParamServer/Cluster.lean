import ParamServer.Session
import ParamServer.Shard

/-!
# Clusters

Shards, the exchange between them and their workers, and the register of tables. An operation is
followed by all the work it sets off: after it no shard has a message left to handle.
-/

namespace ParamServer

structure TableEntry where
  layout : Layout
  spec : TableSpec
  type : ScalarType

structure Cluster where
  spec : ClusterSpec
  exchange : Exchange
  /-- In the order of their ids. -/
  shards : List Shard
  tables : SortedMap TableId TableEntry

/-- A worker's session and the inbox its answers come to. -/
structure Handle (τ : ScalarType) where
  session : Session τ
  inbox : ChannelId

namespace Cluster

variable {τ : ScalarType}

def openShards (e : Exchange) : List ThreadId → Except Error (List Shard × Exchange)
  | [] => .ok ([], e)
  | id :: rest => do
    let (channel, e) ← e.openShard id
    let (shards, e) ← openShards e rest
    return ({ id, channel } :: shards, e)

def start (spec : ClusterSpec) : Attempt Cluster := do
  spec.validate
  let ids ← spec.shardIds
  let (shards, exchange) ← openShards (.new spec.wireCodec) ids
  return { spec, exchange, shards, tables := .empty }

def shardIds (c : Cluster) : List ThreadId := c.shards.map (·.id)

/-- Lets one shard after the other handle what is in its queue. -/
def settleShards (e : Exchange) : List Shard → List Shard × Exchange
  | [] => ([], e)
  | s :: rest =>
    let (s, e) := s.settle e
    let (rest, e) := settleShards e rest
    (s :: rest, e)

def settle (c : Cluster) : Cluster :=
  let (shards, exchange) := settleShards c.exchange c.shards
  { c with shards, exchange }

/-- Installs a table on one shard after the other, up to the first that will not have it. -/
def installAll (table : TableId) (e : Exchange) :
    List (Shard × Hosted) → Outcome (List Shard × Exchange) Unit
  | [] => .ok () ([], e)
  | (s, tablet) :: rest =>
    match s.install e table tablet with
    | .error why => .error why (s :: rest.map (·.1), e)
    | .ok (s, e) => (installAll table e rest).mapState fun (shards, e) => (s :: shards, e)

/-- Creates a table with one range a shard. Its tablets are built before any shard sees them. -/
def createTable (c : Cluster) (τ : ScalarType) (table : TableId) (ranges : List Interval)
    (spec : TableSpec) : Outcome Cluster Layout :=
  let plan : Except Error (Layout × List (Shard × Hosted)) := do
    spec.validate
    if c.tables.contains table then throw (.config (.tableExists table))
    if ranges.length ≠ c.shards.length then
      throw (.config (.tableRangeCount table ranges.length c.shards.length))
    let layout ← Layout.ofRanges ranges c.shardIds
    let tablets ← (c.shards.zip ranges).mapM fun (s, range) =>
      return (s, Hosted.mk τ (← Tablet.new τ spec table s.id range))
    return (layout, tablets)
  match plan with
  | .error why => .error why c
  | .ok (layout, tablets) =>
    match installAll table c.exchange tablets with
    | .fault why => .fault why
    | .error why (shards, exchange) => .error why { c with shards, exchange }
    | .ok _ (shards, exchange) =>
      let tables := c.tables.insert table ⟨layout, spec, τ⟩
      .ok layout { c with shards, exchange, tables }

/-- Creates a table over `[0, keys)`, split evenly. -/
def createTableEven (c : Cluster) (τ : ScalarType) (table : TableId) (keys : UInt64)
    (spec : TableSpec) : Outcome Cluster Layout :=
  match Layout.even keys c.shardIds with
  | .error (.error why) => .error why c
  | .error (.fault why) => .fault why
  | .ok layout => c.createTable τ table layout.ranges spec

def entry (c : Cluster) (table : TableId) : Except Error TableEntry :=
  match c.tables.get? table with
  | some entry => .ok entry
  | none => .error (.config (.tableMissing table))

def layout (c : Cluster) (table : TableId) : Except Error Layout := (c.entry table).map (·.layout)

def tableSpec (c : Cluster) (table : TableId) : Except Error TableSpec :=
  (c.entry table).map (·.spec)

/-- Ids no worker may have. -/
def reserved (c : Cluster) (thread : ThreadId) : Bool :=
  thread = controlThread || c.shardIds.contains thread

/-- Strikes the shards off that acknowledge, each once. -/
def acknowledge : List ThreadId → List Message → Except Error (List ThreadId)
  | [], _ => .ok []
  | waiting, [] => .ok waiting
  | waiting, m :: rest =>
    if m.sender ∈ waiting then acknowledge (waiting.erase m.sender) rest
    else .error (.protocol (.unexpectedAck m.sender))

/-- Tells the shards of a table which workers to wait for, and waits until all have acknowledged. -/
def initTable (c : Cluster) (table : TableId) (workers : List ThreadId) : Outcome Cluster Unit :=
  let opened : Except Error (Layout × ChannelId × Exchange) := do
    let layout ← c.layout table
    match workers.find? c.reserved with
    | some worker => throw (.config (.reservedWorker worker))
    | none => return (layout, ← c.exchange.openInbox controlThread table)
  match opened with
  | .error why => .error why c
  | .ok (layout, inbox, exchange) =>
    let call (shard : ThreadId) : Message :=
      { op := .resetWorkers, sender := controlThread, receiver := shard, table,
        blocks := [.keys (workers.map (·.toUInt64))] }
    let d := Courier.sendAll exchange (layout.shards.map call)
    let c := { c with exchange := d.courier }.settle
    let acks := c.exchange.queue inbox
    let exchange := (c.exchange.closeInbox controlThread table).hangUp inbox
    let c := { c with exchange }
    match d.failure with
    | some why => .error why c
    | none =>
      match acknowledge layout.shards acks with
      | .error why => .error why c
      | .ok [] => .ok () c
      | .ok _ => .error (.timeout 0) c

/-- Hands out the session of a worker at a table. -/
def openHandle (c : Cluster) (τ : ScalarType) (worker : ThreadId) (table : TableId) :
    Except Error (Handle τ × Cluster) := do
  let entry ← c.entry table
  if entry.type ≠ τ then throw (.config (.tableType table entry.type τ))
  if c.reserved worker then throw (.config (.reservedWorker worker))
  let (inbox, exchange) ← c.exchange.openInbox worker table
  return ({ session := { worker, table, layout := entry.layout }, inbox }, { c with exchange })

/-- Gives a session and its inbox up. Reads that wait on shards stay there. -/
def closeHandle (c : Cluster) (h : Handle τ) : Cluster :=
  { c with exchange := (h.session.close c.exchange).hangUp h.inbox }

def push (c : Cluster) (h : Handle τ) (keys : List Key) (values : List τ.Value) :
    Outcome Cluster Unit :=
  (h.session.push c.exchange keys values).mapState fun exchange => { c with exchange }.settle

def tick (c : Cluster) (h : Handle τ) : Outcome (Cluster × Handle τ) Unit :=
  (h.session.tick c.exchange).mapState fun (session, exchange) =>
    ({ c with exchange }.settle, { h with session })

def startPull (c : Cluster) (h : Handle τ) (keys : List Key) :
    Outcome (Cluster × Handle τ) (Pull τ) :=
  (h.session.startPull c.exchange keys).mapState fun (session, exchange) =>
    ({ c with exchange }.settle, { h with session })

/-- Reads the answers that have come, up to the last one wanted. -/
def collect (c : Cluster) (h : Handle τ) (p : Pull τ) : Reading τ :=
  h.session.collect p (c.exchange.queue h.inbox)

/-- Puts back what a reading left in the inbox. -/
def leaveUnread (c : Cluster) (h : Handle τ) (unread : List Message) : Cluster :=
  { c with exchange := c.exchange.setQueue h.inbox unread }

/-- A read whose deadline is over when nothing moves any more. -/
def pull (c : Cluster) (h : Handle τ) (keys : List Key) :
    Outcome (Cluster × Handle τ) (List τ.Value) :=
  (c.startPull h keys).bind fun p (c, h) =>
    (Session.giveUp .deadline (c.collect h p)).mapState fun (session, unread) =>
      (c.leaveUnread h unread, { h with session })

def status (c : Cluster) : Except Error (List (ThreadId × List TabletStatus)) :=
  c.shards.mapM fun s => return (s.id, ← s.status)

/-- Stops one shard after the other and, if `forget`, takes its address out of the exchange. -/
def stopAll (forget : Bool) (e : Exchange) : List Shard → List Shard × Exchange × Option Error
  | [] => ([], e, none)
  | s :: rest =>
    let next (e : Exchange) (s : Shard) (failure : Option Error) :=
      let e := if forget then e.closeShard s.id else e
      let (shards, e, later) := stopAll forget e rest
      (s :: shards, e, failure.or later)
    match s.stop e with
    | .ok _ (s, e) => next e s none
    | .error why (s, e) => next e s (some why)
    | .fault _ => next e s none

/-- Stops the shards when their queues are empty. Sessions stay, but lead nowhere. -/
def shutdown (c : Cluster) : Outcome Cluster Unit :=
  let (shards, exchange, failure) := stopAll true c.exchange c.shards
  let c := { c with shards, exchange }
  match failure with
  | some why => .error why c
  | none => .ok () c

/-- Stops the shards and leaves their addresses dangling. -/
def dismiss (c : Cluster) : Cluster :=
  let (shards, exchange, _) := stopAll false c.exchange c.shards
  { c with shards, exchange }

end Cluster

end ParamServer
