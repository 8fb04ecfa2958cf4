import ParamServer.Error

/-!
# Bytes

Fixed-width little-endian bytes. Numbers are written by `leBytes`; a reader takes what it needs
off the front and hands back the rest.
-/

namespace ParamServer.Wire

abbrev Bytes := List UInt8

/-- The lowest `width` bytes of a number, the least significant first. -/
def leBytes : (width : Nat) → Nat → Bytes
  | 0, _ => []
  | width + 1, n => UInt8.ofNat n :: leBytes width (n / 256)

def ofLE : Bytes → Nat
  | [] => 0
  | b :: rest => b.toNat + 256 * ofLE rest

def put32 (n : UInt32) : Bytes := leBytes 4 n.toNat

def put64 (n : UInt64) : Bytes := leBytes 8 n.toNat

/-- A number of elements. -/
def putCount (n : Nat) : Bytes := leBytes 8 n

abbrev Reader (α : Type) := Bytes → Except CodecError (α × Bytes)

def take : Nat → Reader Bytes
  | 0, bytes => .ok ([], bytes)
  | _ + 1, [] => .error .unexpectedEnd
  | n + 1, b :: rest => do
    let (front, rest) ← take n rest
    return (b :: front, rest)

def get32 : Reader UInt32 := fun bytes => do
  let (front, rest) ← take 4 bytes
  return (UInt32.ofNat (ofLE front), rest)

def get64 : Reader UInt64 := fun bytes => do
  let (front, rest) ← take 8 bytes
  return (UInt64.ofNat (ofLE front), rest)

def getMany {α : Type} (element : Reader α) : Nat → Reader (List α)
  | 0, bytes => .ok ([], bytes)
  | n + 1, bytes => do
    let (a, rest) ← element bytes
    let (as, rest) ← getMany element n rest
    return (a :: as, rest)

/-- A list behind its 64-bit length. -/
def getList {α : Type} (element : Reader α) : Reader (List α) := fun bytes => do
  let (n, rest) ← get64 bytes
  getMany element n.toNat rest

def putList {α : Type} (element : α → Bytes) (as : List α) : Bytes :=
  putCount as.length ++ as.flatMap element

/-- One of `choices` by its 32-bit index. -/
def getChoice {α : Type} (choices : List α) : Reader α := fun bytes => do
  let (i, rest) ← get32 bytes
  match choices[i.toNat]? with
  | some a => return (a, rest)
  | none => throw (.badVariant i choices.length)

end ParamServer.Wire
