import ParamServer.Error

/-!
# Messages

What workers and shards say to each other. A payload is a list of typed blocks: keys first, then
values where the operation carries any.
-/

namespace ParamServer

inductive Block where
  | keys (elements : List Key)
  | singles (elements : List Single)
  | doubles (elements : List Double)
  | integers (elements : List Int64)
  deriving DecidableEq, Inhabited

namespace Block

def type : Block → BlockType
  | .keys _ => .keys
  | .singles _ => .scalars .single
  | .doubles _ => .scalars .double
  | .integers _ => .scalars .integer

def length : Block → Nat
  | .keys es => es.length
  | .singles es => es.length
  | .doubles es => es.length
  | .integers es => es.length

def ofValues : (τ : ScalarType) → List τ.Value → Block
  | .single, vs => .singles vs
  | .double, vs => .doubles vs
  | .integer, vs => .integers vs

def values? : (τ : ScalarType) → Block → Option (List τ.Value)
  | .single, .singles vs => some vs
  | .double, .doubles vs => some vs
  | .integer, .integers vs => some vs
  | _, _ => none

@[simp] theorem values?_ofValues (τ : ScalarType) (vs : List τ.Value) :
    (ofValues τ vs).values? τ = some vs := by
  cases τ <;> rfl

end Block

structure Message where
  op : Op
  sender : ThreadId
  receiver : ThreadId
  table : TableId
  /-- The sender's clock; with `Op.clock`, the one it has just reached. -/
  clock : Clock := 0
  request : RequestId := 0
  blocks : List Block := []
  deriving DecidableEq, Inhabited

namespace Message

/-- An answer without payload, back to the sender. -/
def reply (m : Message) : Message :=
  { op := .response
    sender := m.receiver
    receiver := m.sender
    table := m.table
    clock := m.clock
    request := m.request }

def keys (m : Message) : Except Malformed (List Key) :=
  match m.blocks with
  | .keys ks :: _ => .ok ks
  | .singles _ :: _ => .error (.keysExpected .single)
  | .doubles _ :: _ => .error (.keysExpected .double)
  | .integers _ :: _ => .error (.keysExpected .integer)
  | [] => .error .noKeys

def values (m : Message) (τ : ScalarType) : Except Malformed (List τ.Value) :=
  match m.blocks with
  | _ :: b :: _ =>
    match b.values? τ with
    | some vs => .ok vs
    | none => .error (.valueType b.type τ)
  | _ => .error .noValues

end Message

end ParamServer
