import ParamServer.Exchange
import ParamServer.Tablet

/-!
# Shards

A shard: the tablets it hosts and the loop that serves them. The loop has two queues, messages and
requests of the cluster, and may take from either. Messages are handled one at a time; one that a
tablet refuses is dropped, and so is a reply that cannot be delivered. A shard that was told to
stop handles what is in its queue and ends; one whose tablet faults ends at once.
-/

namespace ParamServer

/-- A tablet of any element type. -/
structure Hosted where
  type : ScalarType
  tablet : Tablet type

namespace Hosted

def status (h : Hosted) : TabletStatus := h.tablet.status

def handle (h : Hosted) (m : Message) : Outcome Hosted (List Message) :=
  (h.tablet.handle m).mapState (Hosted.mk h.type)

end Hosted

/-- What the cluster asks of a shard. -/
inductive Request where
  | install (table : TableId) (tablet : Hosted)
  | report
  | stop

inductive Phase where
  | serving
  /-- Taking no more requests, only what is still in the queue. -/
  | draining
  | stopped
  | crashed (why : Fault)
  deriving DecidableEq, Repr

structure Shard where
  id : ThreadId
  channel : ChannelId
  tablets : SortedMap TableId Hosted := .empty
  requests : List Request := []
  phase : Phase := .serving

/-- What a shard did in one turn. -/
inductive Event where
  | handled (m : Message) (replies : List Message)
  | refused (m : Message) (why : Error)
  | unknownTable (m : Message)
  | crashed (m : Message) (why : Fault)
  | installed (table : TableId)
  | notInstalled (why : Error)
  | reported (tablets : List TabletStatus)
  /-- No more requests are taken. -/
  | closing
  | ended
  | idle

/-- Which queue the loop looks at. -/
inductive Turn where
  | request
  | message
  deriving DecidableEq, Repr

namespace Shard

def report (s : Shard) : List TabletStatus := s.tablets.values.map (·.status)

/-- The shard is gone, and its queue with it. -/
def leave (s : Shard) (e : Exchange) (phase : Phase) : Shard × Exchange :=
  ({ s with phase, requests := [] }, e.hangUp s.channel)

/-- Handles one message and hands the replies to the exchange. -/
def handle (s : Shard) (e : Exchange) (m : Message) : Event × Shard × Exchange :=
  match s.tablets.get? m.table with
  | none => (.unknownTable m, s, e)
  | some tablet =>
    match tablet.handle m with
    | .ok replies tablet =>
      (.handled m replies, { s with tablets := s.tablets.insert m.table tablet },
        replies.foldl Courier.trySend e)
    | .error why tablet =>
      (.refused m why, { s with tablets := s.tablets.insert m.table tablet }, e)
    | .fault why => (.crashed m why, s.leave e (.crashed why))

def serve (s : Shard) : Request → Event × Shard
  | .install table tablet =>
    if s.tablets.contains table then (.notInstalled (.config (.tableHosted table s.id)), s)
    else (.installed table, { s with tablets := s.tablets.insert table tablet })
  | .report => (.reported s.report, s)
  | .stop => (.closing, { s with phase := .draining })

/-- One turn of the loop. A shard that no address leads to any more stops at an empty queue. -/
def turn (s : Shard) (e : Exchange) (which : Turn) : Event × Shard × Exchange :=
  match s.phase, which with
  | .serving, .request =>
    match s.requests with
    | [] => (.idle, s, e)
    | r :: rest =>
      let (event, s) := { s with requests := rest }.serve r
      (event, s, e)
  | .serving, .message =>
    match e.receive s.channel with
    | some (m, e) => s.handle e m
    | none =>
      if e.reachable s.channel then (.idle, s, e) else (.closing, { s with phase := .draining }, e)
  | .draining, _ =>
    match e.receive s.channel with
    | some (m, e) => s.handle e m
    | none => (.ended, s.leave e .stopped)
  | .stopped, _ => (.idle, s, e)
  | .crashed _, _ => (.idle, s, e)

/-- Takes messages until there is nothing left to do, at most `n` times. -/
def run : Nat → Shard → Exchange → Shard × Exchange
  | 0, s, e => (s, e)
  | n + 1, s, e =>
    match s.turn e .message with
    | (.idle, s, e) => (s, e)
    | (_, s, e) => run n s e

/-- Handles all that is in the queue; one turn more may close the shard, and another end it. -/
def settle (s : Shard) (e : Exchange) : Shard × Exchange :=
  s.run ((e.queue s.channel).length + 2) e

/-- Puts a request to a shard and waits for what it does. -/
def ask (s : Shard) (e : Exchange) (r : Request) : Except Error (Event × Shard × Exchange) :=
  if s.phase = .serving then .ok ({ s with requests := s.requests ++ [r] }.turn e .request)
  else .error (.transport (.notRunning s.id))

/-- Installs a tablet. -/
def install (s : Shard) (e : Exchange) (table : TableId) (tablet : Hosted) :
    Except Error (Shard × Exchange) := do
  match ← s.ask e (.install table tablet) with
  | (.notInstalled why, _) => throw why
  | (_, s, e) => return (s, e)

/-- Only a running shard can be asked how it stands. -/
def status (s : Shard) : Except Error (List TabletStatus) :=
  if s.phase = .serving then .ok s.report else .error (.transport (.notRunning s.id))

/-- Tells a shard to stop and waits for its end. -/
def stop (s : Shard) (e : Exchange) : Outcome (Shard × Exchange) Unit :=
  let (s, e) :=
    match s.ask e .stop with
    | .ok (_, s, e) => s.settle e
    | .error _ => (s, e)
  match s.phase with
  | .crashed _ => .error (.transport (.crashed s.id)) (s, e)
  | _ => .ok () (s, e)

end Shard

end ParamServer
