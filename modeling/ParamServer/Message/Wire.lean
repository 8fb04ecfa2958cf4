import ParamServer.Message
import ParamServer.Wire

/-!
# Messages as bytes

Routing and clocks first, then the number of blocks and the blocks, each behind the index of its
type. What follows a message is not looked at.
-/

namespace ParamServer

open Wire

namespace Op

/-- In the order of their indices on the wire. -/
def all : List Op := [.add, .get, .clock, .response, .resetWorkers]

def index : Op → UInt32
  | .add => 0
  | .get => 1
  | .clock => 2
  | .response => 3
  | .resetWorkers => 4

end Op

namespace Block

def encode : Block → Bytes
  | .keys es => put32 0 ++ putList put64 es
  | .singles es => put32 1 ++ putList (put32 ·.bits) es
  | .doubles es => put32 2 ++ putList (put64 ·.bits) es
  | .integers es => put32 3 ++ putList (put64 ·.toUInt64) es

/-- How to read the elements of a block, by the index in front of it. -/
def readers : List (Reader Block) :=
  [ fun bytes => (getList get64 bytes).map fun (es, rest) => (.keys es, rest),
    fun bytes => (getList get32 bytes).map fun (es, rest) => (.singles (es.map .mk), rest),
    fun bytes => (getList get64 bytes).map fun (es, rest) => (.doubles (es.map .mk), rest),
    fun bytes => (getList get64 bytes).map fun (es, rest) =>
      (.integers (es.map UInt64.toInt64), rest) ]

def read : Reader Block := fun bytes => do
  let (body, rest) ← getChoice readers bytes
  body rest

end Block

namespace Message

def encode (m : Message) : Bytes :=
  put32 m.sender ++ put32 m.receiver ++ put32 m.table ++ put32 m.op.index ++ put64 m.clock ++
    put64 m.request ++ putList Block.encode m.blocks

def read : Reader Message := fun bytes => do
  let (sender, bytes) ← get32 bytes
  let (receiver, bytes) ← get32 bytes
  let (table, bytes) ← get32 bytes
  let (op, bytes) ← getChoice Op.all bytes
  let (clock, bytes) ← get64 bytes
  let (request, bytes) ← get64 bytes
  let (blocks, bytes) ← getList Block.read bytes
  return ({ op, sender, receiver, table, clock, request, blocks }, bytes)

def decode (bytes : Bytes) : Except CodecError Message := (read bytes).map (·.1)

end Message

end ParamServer
