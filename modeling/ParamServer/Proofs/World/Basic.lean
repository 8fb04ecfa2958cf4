import Mathlib.Logic.Function.Basic
import ParamServer.Proofs.Outcome
import ParamServer.Proofs.Session.Calls
import ParamServer.Proofs.Tablet.Ledger

/-!
# Workers and shards together

Any number of workers at one table, each with a session of its own, and the shards that the table is
laid out over. Whatever can happen next is a `World.Moves`: a worker makes a call, or reads some of
its inbox (`World.Acts`), or a shard handles one message. No message is lost. A queue keeps the
messages of each sender in order and promises no more, so the messages of one call may come in
between those of others, and an inbox promises nothing.
-/

namespace ParamServer

/-- A read under way: the clock that it was begun at, its batch, how far it has got, and the answers
that it has taken in. -/
structure Call (τ : ScalarType) where
  clock : Clock
  keys : List Key
  pull : Pull τ
  answers : List Message := []

structure Client (τ : ScalarType) where
  session : Session τ
  inbox : List Message := []
  call : Option (Call τ) := none

/-- A shard, what is on its way to it, and what it has done. -/
structure Host (τ : ScalarType) where
  tablet : Tablet τ
  queue : List Message := []
  log : List (Step τ) := []

structure Got (τ : ScalarType) where
  worker : ThreadId
  clock : Clock
  request : RequestId
  keys : List Key
  values : List τ.Value
  answers : List Message

structure World (τ : ScalarType) where
  workers : ThreadId → Client τ
  shards : ThreadId → Host τ
  /-- Every update that was ever sent. -/
  posted : List Message := []
  gets : List (Got τ) := []

/-- A table, the workers at it, and its tablets as they are before a worker has done anything. -/
structure Site (τ : ScalarType) where
  table : TableId
  layout : Layout
  workers : List ThreadId
  tablet : ThreadId → Tablet τ

variable {τ : ScalarType}

namespace Site

def start (site : Site τ) : World τ where
  workers w := { session := { worker := w, table := site.table, layout := site.layout } }
  shards p := { tablet := site.tablet p }

/-- All shards of a table of one kind have been told of its workers. -/
def Closed (site : Site τ) (spec : TableSpec) : Prop :=
  ∀ q ∈ site.layout.pieces, ∃ fresh reset keys ack,
    Tablet.new τ spec site.table q.shard q.range = .ok fresh ∧ reset.op = .resetWorkers ∧
    reset.keys = .ok keys ∧ keys.mapM Slice.workerId = .ok site.workers ∧
    fresh.handle reset = .ok ack (site.tablet q.shard)

/-- The tablets turn none of the workers away: they take in whoever turns up, or they have been told
of the workers, and maybe of others too. Their specifications are of the sort that is asked for. -/
def Welcomes (site : Site τ) (sort : TableSpec → Prop) : Prop :=
  ∀ q ∈ site.layout.pieces, ∃ spec fresh, sort spec ∧
    Tablet.new τ spec site.table q.shard q.range = .ok fresh ∧
    (site.tablet q.shard = fresh ∨ ∃ reset keys listed ack, reset.op = .resetWorkers ∧
      reset.keys = .ok keys ∧ keys.mapM Slice.workerId = .ok listed ∧
      (∀ w ∈ site.workers, w ∈ listed) ∧ fresh.handle reset = .ok ack (site.tablet q.shard))

/-- The workers 8 and 9 at a table with two shards that have been told of them. -/
def duet (gate : Gate) : Site .integer where
  table := 0
  layout := ⟨[⟨⟨0, 5⟩, 1⟩, ⟨⟨5, 10⟩, 2⟩], Layout.wellFormed_halves⟩
  workers := [8, 9]
  tablet p :=
    ⟨{ Slice.new 0 p (if p = 1 then ⟨0, 5⟩ else ⟨5, 10⟩) (.sparse .empty) with
      roster := Roster.empty.reset [8, 9] }, gate⟩

theorem forall_workers_duet {gate : Gate} {P : ThreadId → Prop} (h8 : P 8) (h9 : P 9) :
    ∀ w ∈ (duet gate).workers, P w :=
  List.forall_mem_cons.mpr ⟨h8, List.forall_mem_singleton.mpr h9⟩

theorem forall_pieces_duet {gate : Gate} {P : Piece → Prop} (h1 : P ⟨⟨0, 5⟩, 1⟩)
    (h2 : P ⟨⟨5, 10⟩, 2⟩) : ∀ q ∈ (duet gate).layout.pieces, P q :=
  List.forall_mem_cons.mpr ⟨h1, List.forall_mem_singleton.mpr h2⟩

theorem closed_duet {spec : TableSpec} {gate : Gate}
    (hnew : ∀ shard range, Tablet.new .integer spec 0 shard range =
      .ok ⟨.new 0 shard range (.sparse .empty), gate⟩) : (duet gate).Closed spec := by
  let reset : ThreadId → Message := fun p =>
    ⟨.resetWorkers, controlThread, p, 0, 0, 0, [.keys [8, 9]]⟩
  exact forall_pieces_duet
    ⟨_, reset 1, [8, 9], [(reset 1).reply], hnew 1 ⟨0, 5⟩, rfl, rfl, rfl, rfl⟩
    ⟨_, reset 2, [8, 9], [(reset 2).reply], hnew 2 ⟨5, 10⟩, rfl, rfl, rfl, rfl⟩

end Site

namespace World

/-- Puts messages into the queues of their receivers. -/
def post (W : World τ) (ms : List Message) : World τ :=
  { W with
    shards := fun p =>
      { W.shards p with
        queue := (W.shards p).queue ++ ms.filter fun m => decide (m.receiver = p) }
    posted := W.posted ++ ms.filter fun m => decide (m.op = .add) }

def seat (W : World τ) (w : ThreadId) (worker : Client τ) : World τ :=
  { W with workers := Function.update W.workers w worker }

/-- What is left when a shard has handled a message, and `rest` is still in its queue. -/
def served (W : World τ) (p : ThreadId) (rest : List Message) (s : Step τ) : World τ :=
  { W with
    shards := Function.update W.shards p ⟨s.after, rest, (W.shards p).log ++ [s]⟩
    workers := fun w =>
      { W.workers w with
        inbox := (W.workers w).inbox ++ s.answers.filter fun a => decide (a.receiver = w) } }

/-- All links are up. -/
def line : Outbox := {}

/-- What worker `w` can do when it has its turn: what it is then, what it has sent, and what it has
got. -/
inductive Acts (w : ThreadId) (worker : Client τ) :
    Client τ → List Message → List (Got τ) → Prop
  | push {keys : List Key} {values : List τ.Value} {out : Outbox} (hidle : worker.call = none)
      (h : (worker.session.push line keys values).Leaves out) :
      Acts w worker worker out.sent []
  | tick {session : Session τ} {out : Outbox} (hidle : worker.call = none)
      (h : (worker.session.tick line).Leaves (session, out)) :
      Acts w worker { worker with session } out.sent []
  | ask {keys : List Key} {pull : Pull τ} {session : Session τ} {out : Outbox}
      (hidle : worker.call = none)
      (h : worker.session.startPull line keys = .ok pull (session, out)) :
      Acts w worker
        { worker with session, call := some { clock := worker.session.clock, keys, pull } }
        out.sent []
  | askFails {keys : List Key} {why : Error} {session : Session τ} {out : Outbox}
      (hidle : worker.call = none)
      (h : worker.session.startPull line keys = .error why (session, out)) :
      Acts w worker { worker with session } out.sent []
  | wait {call : Call τ} {front rest : List Message} {pull : Pull τ} {session : Session τ}
      (hcall : worker.call = some call) (hinbox : worker.inbox.Perm (front ++ rest))
      (h : worker.session.collect call.pull front = .pending pull session) :
      Acts w worker ⟨session, rest, some { call with pull, answers := call.answers ++ front }⟩ [] []
  | finish {call : Call τ} {used unread rest : List Message} {values : List τ.Value}
      {session : Session τ} (hcall : worker.call = some call)
      (hinbox : worker.inbox.Perm (used ++ unread ++ rest))
      (h : worker.session.collect call.pull (used ++ unread) = .done values session unread) :
      Acts w worker ⟨session, unread ++ rest, none⟩ []
        [⟨w, call.clock, call.pull.request, call.keys, values, call.answers ++ used⟩]
  | finishFails {call : Call τ} {used unread rest : List Message} {why : Error}
      {session : Session τ} (hcall : worker.call = some call)
      (hinbox : worker.inbox.Perm (used ++ unread ++ rest))
      (h : worker.session.collect call.pull (used ++ unread) = .failed why session unread) :
      Acts w worker ⟨session, unread ++ rest, none⟩ [] []

/-- What is left when `w` has had its turn. -/
def acted (W : World τ) (w : ThreadId) (worker : Client τ) (ms : List Message)
    (gots : List (Got τ)) : World τ :=
  { (W.post ms).seat w worker with gets := W.gets ++ gots }

/-- Whatever can happen next: a worker has its turn, or a shard handles one message. A shard stops
at an update that takes a sum out of its type, and the update is then in the queue for good. -/
inductive Moves (site : Site τ) (W : World τ) : World τ → Prop
  | act {w : ThreadId} {worker : Client τ} {ms : List Message} {gots : List (Got τ)}
      (hw : w ∈ site.workers) (h : Acts w (W.workers w) worker ms gots) :
      Moves site W (W.acted w worker ms gots)
  | serve {p : ThreadId} {front back : List Message} {m : Message} {s : Step τ}
      (hqueue : (W.shards p).queue = front ++ m :: back)
      (hfirst : ∀ k ∈ front, k.sender ≠ m.sender)
      (h : (W.shards p).tablet.step m = .ok s) :
      Moves site W (W.served p (front ++ back) s)

inductive Reaches (site : Site τ) : World τ → Prop
  | start : Reaches site site.start
  | next {W W' : World τ} (h : Reaches site W) (hmove : Moves site W W') : Reaches site W'

/-- Two workers behind a barrier. -/
def pair : Site .integer := .duet .barrier

theorem closed_pair : pair.Closed (.bsp .sparse) := Site.closed_duet fun _ _ => rfl

end World

end ParamServer
