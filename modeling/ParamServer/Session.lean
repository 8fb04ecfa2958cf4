import ParamServer.Courier
import ParamServer.Layout
import ParamServer.SortedMap

/-!
# Sessions

A worker at one table. It cuts its batches along the table's layout, sends one message to each
shard concerned, and puts the answers to a read together in the order of its keys, however they
arrive. Answers to a read that was given up are counted down and thrown away later.
-/

namespace ParamServer

structure Session (τ : ScalarType) where
  worker : ThreadId
  table : TableId
  layout : Layout
  clock : Clock := 0
  lastRequest : RequestId := 0
  /-- Reads that were given up, with the number of answers that may still come. -/
  abandoned : SortedMap RequestId Nat := .empty

/-- What one shard was asked for, and its answer. -/
structure Part (τ : ScalarType) where
  run : Run
  answer : Option (List τ.Value) := none

/-- A read under way. -/
structure Pull (τ : ScalarType) where
  request : RequestId
  parts : List (Part τ)

namespace Pull

variable {τ : ScalarType}

/-- Answers that have not come yet. -/
def missing (p : Pull τ) : Nat := p.parts.countP (·.answer.isNone)

def values (p : Pull τ) : List τ.Value := p.parts.flatMap (·.answer.getD [])

def partOf? (p : Pull τ) (shard : ThreadId) : Option (Part τ) :=
  p.parts.find? (·.run.shard = shard)

def fill (p : Pull τ) (shard : ThreadId) (values : List τ.Value) : Pull τ :=
  { p with parts := p.parts.map fun part =>
      if part.run.shard = shard then { part with answer := some values } else part }

end Pull

/-- What reading an inbox came to. -/
inductive Reading (τ : ScalarType) where
  | done (values : List τ.Value) (session : Session τ) (unread : List Message)
  | failed (why : Error) (session : Session τ) (unread : List Message)
  /-- All was read, and answers are missing still. -/
  | pending (pull : Pull τ) (session : Session τ)

/-- Why no further answer comes. -/
inductive Silence where
  | deadline
  | closed
  deriving DecidableEq

def Silence.error (worker : ThreadId) (request : RequestId) : Silence → Error
  | .deadline => .timeout request
  | .closed => .transport (.inboxClosed worker)

namespace Session

variable {τ : ScalarType} {σ : Type} [Courier σ]

def message (s : Session τ) (op : Op) (shard : ThreadId) (blocks : List Block) : Message :=
  { op, sender := s.worker, receiver := shard, table := s.table, clock := s.clock, blocks }

def updates (s : Session τ) (values : List τ.Value) (runs : List Run) : List Message :=
  runs.map fun r =>
    s.message .add r.shard
      [.keys r.keys, .ofValues τ ((values.drop r.start).take r.keys.length)]

/-- Sends an update to each shard that owns some of the keys, and waits for nothing. -/
def push (s : Session τ) (courier : σ) (keys : List Key) (values : List τ.Value) :
    Outcome σ Unit :=
  if keys.length ≠ values.length then
    .error (.malformed (.lengthMismatch keys.length values.length)) courier
  else
    match s.layout.runs keys with
    | .error (.error why) => .error why courier
    | .error (.fault why) => .fault why
    | .ok runs =>
      let d := Courier.sendAll courier (s.updates values runs)
      match d.failure with
      | some why => .error why d.courier
      | none => .ok () d.courier

/-- Tells every shard of the next clock. The session moves on only when all could be told. -/
def tick (s : Session τ) (courier : σ) : Outcome (Session τ × σ) Unit :=
  if s.clock.toNat + 1 = UInt64.size then .fault .addOverflow
  else
    let next := { s with clock := s.clock + 1 }
    let d := Courier.sendAll courier (s.layout.shards.map (next.message .clock · []))
    match d.failure with
    | some why => .error why (s, d.courier)
    | none => .ok () (next, d.courier)

/-- Gives a read up. -/
def abandon (s : Session τ) (p : Pull τ) : Session τ :=
  if p.missing = 0 then s else { s with abandoned := s.abandoned.insert p.request p.missing }

def requests (s : Session τ) (runs : List Run) : List Message :=
  runs.map fun r => { s.message .get r.shard [.keys r.keys] with request := s.lastRequest }

/-- Asks each shard that owns some of the keys. -/
def startPull (s : Session τ) (courier : σ) (keys : List Key) :
    Outcome (Session τ × σ) (Pull τ) :=
  if keys.isEmpty then .ok ⟨s.lastRequest, []⟩ (s, courier)
  else
    match s.layout.runs keys with
    | .error (.error why) => .error why (s, courier)
    | .error (.fault why) => .fault why
    | .ok runs =>
      if s.lastRequest.toNat + 1 = UInt64.size then .fault .addOverflow
      else
        let s := { s with lastRequest := s.lastRequest + 1 }
        let d := Courier.sendAll courier (s.requests runs)
        let asked : Pull τ := ⟨s.lastRequest, (runs.take d.sent).map ({ run := · })⟩
        match d.failure with
        | some why => .error why (s.abandon asked, d.courier)
        | none => .ok asked (s, d.courier)

/-- Throws away an answer to a read that was given up; there is no other reason for it to come. -/
def discard (s : Session τ) (m : Message) : Except Error (Session τ) :=
  match s.abandoned.get? m.request with
  | none => .error (.protocol (.unknownRequest m.sender m.request))
  | some outstanding =>
    .ok { s with abandoned := s.abandoned.alter m.request fun _ =>
            if outstanding ≤ 1 then none else some (outstanding - 1) }

/-- The values of an answer, if it is to exactly the keys of the run. -/
def payload (τ : ScalarType) (r : Run) (m : Message) : Except Error (List τ.Value) := do
  let unreadable (why : Malformed) : Error := .protocol (.unreadable r.shard why)
  let keys ← m.keys.mapError unreadable
  let values ← (m.values τ).mapError unreadable
  if keys ≠ r.keys ∨ values.length ≠ r.keys.length then
    throw (.protocol (.wrongPayload r.shard keys.length values.length r.keys.length))
  return values

/-- Takes one message from the inbox. The first component says what is wrong with it, if anything
is. -/
def accept (s : Session τ) (p : Pull τ) (m : Message) : Option Error × Session τ × Pull τ :=
  if m.request ≠ p.request then
    match s.discard m with
    | .ok s => (none, s, p)
    | .error why => (some why, s, p)
  else
    match p.partOf? m.sender with
    | none => (some (.protocol (.notQueried m.sender p.request)), s, p)
    | some ⟨_, some _⟩ => (some (.protocol (.duplicate m.sender p.request)), s, p)
    | some ⟨run, none⟩ =>
      match payload τ run m with
      | .ok values => (none, s, p.fill m.sender values)
      | .error why => (some why, s, p.fill m.sender [])

/-- Reads the inbox until the read is complete, or something is wrong, or nothing is left. -/
def collect (s : Session τ) (p : Pull τ) (inbox : List Message) : Reading τ :=
  if p.missing = 0 then .done p.values s inbox
  else
    match inbox with
    | [] => .pending p s
    | m :: rest =>
      match s.accept p m with
      | (none, s, p) => s.collect p rest
      | (some why, s, p) => .failed why (s.abandon p) rest

/-- Ends a read whose missing answers will not come. -/
def giveUp (silence : Silence) : Reading τ → Outcome (Session τ × List Message) (List τ.Value)
  | .done values s unread => .ok values (s, unread)
  | .failed why s unread => .error why (s, unread)
  | .pending p s => .error (silence.error s.worker p.request) (s.abandon p, [])

def close (s : Session τ) (courier : σ) : σ := Courier.closeInbox courier s.worker s.table

end Session

end ParamServer
