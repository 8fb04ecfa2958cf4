import ParamServer.Courier
import ParamServer.Message.Wire
import ParamServer.SortedMap

/-!
# The exchange

Delivery between workers and shards: one channel for each shard, and one for each inbox of a
worker on a table. An address may be given up and taken again; messages go to the channel that has
it when they are sent.
-/

namespace ParamServer

abbrev ChannelId := Nat

/-- Messages in the order they were sent. -/
structure Channel where
  queue : List Message := []
  /-- Whether somebody can still read it. -/
  held : Bool := true

structure Exchange where
  /-- Whether every message is turned into bytes and back on its way. -/
  coded : Bool
  shards : SortedMap ThreadId ChannelId
  inboxes : SortedMap (ThreadId × TableId) ChannelId
  channels : Array Channel

namespace Exchange

def new (coded : Bool) : Exchange := ⟨coded, .empty, .empty, #[]⟩

def openShard (e : Exchange) (shard : ThreadId) : Except Error (ChannelId × Exchange) :=
  if e.shards.contains shard then .error (.transport (.shardTaken shard))
  else
    let channel := e.channels.size
    .ok (channel,
      { e with shards := e.shards.insert shard channel, channels := e.channels.push {} })

def closeShard (e : Exchange) (shard : ThreadId) : Exchange :=
  { e with shards := e.shards.erase shard }

def openInbox (e : Exchange) (thread : ThreadId) (table : TableId) :
    Except Error (ChannelId × Exchange) :=
  if e.inboxes.contains (thread, table) then .error (.transport (.inboxTaken thread table))
  else
    let channel := e.channels.size
    .ok (channel,
      { e with
        inboxes := e.inboxes.insert (thread, table) channel
        channels := e.channels.push {} })

def closeInbox (e : Exchange) (thread : ThreadId) (table : TableId) : Exchange :=
  { e with inboxes := e.inboxes.erase (thread, table) }

/-- Answers go to an inbox, all else to a shard. -/
def route (e : Exchange) (m : Message) : Except Error ChannelId :=
  let found :=
    if m.op = .response then e.inboxes.get? (m.receiver, m.table) else e.shards.get? m.receiver
  match found with
  | some channel => .ok channel
  | none => .error (.transport (.noRoute m.receiver m.op m.table))

def carry (e : Exchange) (m : Message) : Except Error Message :=
  if e.coded then (Message.decode m.encode).mapError .codec else .ok m

def queue (e : Exchange) (channel : ChannelId) : List Message :=
  (e.channels[channel]?.map (·.queue)).getD []

def setQueue (e : Exchange) (channel : ChannelId) (queue : List Message) : Exchange :=
  { e with channels := e.channels.modify channel ({ · with queue }) }

def held (e : Exchange) (channel : ChannelId) : Bool :=
  (e.channels[channel]?.map (·.held)).getD false

def send (e : Exchange) (m : Message) : Except Error Exchange := do
  let channel ← e.route m
  let m ← e.carry m
  if e.held channel then return e.setQueue channel (e.queue channel ++ [m])
  else throw (.transport (.hungUp m.receiver))

/-- The reader leaves; what it has not read is lost, and nothing more can be sent to it. -/
def hangUp (e : Exchange) (channel : ChannelId) : Exchange :=
  { e with channels := e.channels.modify channel fun _ => ⟨[], false⟩ }

def receive (e : Exchange) (channel : ChannelId) : Option (Message × Exchange) :=
  match e.queue channel with
  | [] => none
  | m :: rest => some (m, e.setQueue channel rest)

/-- Reads all that is there. -/
def drain (e : Exchange) (channel : ChannelId) : List Message × Exchange :=
  (e.queue channel, e.setQueue channel [])

/-- Whether an address still leads to the channel. -/
def reachable (e : Exchange) (channel : ChannelId) : Bool :=
  e.shards.values.contains channel || e.inboxes.values.contains channel

instance : Courier Exchange := ⟨send, closeInbox⟩

end Exchange

end ParamServer
