import ParamServer.Basic

/-!
# Element types

The three element types of tables. Floating-point values are their bits, so that values compare
and travel exactly; a sum is rounded once.
-/

namespace ParamServer

/-- What stops a computation for good, as opposed to an error that a caller is told about. -/
inductive Fault where
  | addOverflow
  | multiplyOverflow
  | unsortedKeys
  deriving DecidableEq, Repr

def Fault.message : Fault → String
  | .addOverflow => "attempt to add with overflow"
  | .multiplyOverflow => "attempt to multiply with overflow"
  | .unsortedKeys => "keys must be sorted ascending"

/-- A 32-bit floating-point number by its bits. -/
structure Single where
  bits : UInt32
  deriving DecidableEq, Repr, Inhabited

/-- A 64-bit floating-point number by its bits. -/
structure Double where
  bits : UInt64
  deriving DecidableEq, Repr, Inhabited

def Single.add (a b : Single) : Single := ⟨(Float32.ofBits a.bits + Float32.ofBits b.bits).toBits⟩

def Double.add (a b : Double) : Double := ⟨(Float.ofBits a.bits + Float.ofBits b.bits).toBits⟩

inductive ScalarType where
  | single
  | double
  | integer
  deriving DecidableEq, Repr, Inhabited

namespace ScalarType

def name : ScalarType → String
  | .single => "f32"
  | .double => "f64"
  | .integer => "i64"

/-- Values of the type. -/
abbrev Value : ScalarType → Type
  | .single => Single
  | .double => Double
  | .integer => Int64

instance (τ : ScalarType) : DecidableEq τ.Value :=
  match τ with
  | .single => inferInstanceAs (DecidableEq Single)
  | .double => inferInstanceAs (DecidableEq Double)
  | .integer => inferInstanceAs (DecidableEq Int64)

instance (τ : ScalarType) : Repr τ.Value :=
  match τ with
  | .single => inferInstanceAs (Repr Single)
  | .double => inferInstanceAs (Repr Double)
  | .integer => inferInstanceAs (Repr Int64)

/-- What a key holds before anything is added to it: `+0.0` or `0`. -/
def zero : (τ : ScalarType) → τ.Value
  | .single => ⟨0⟩
  | .double => ⟨0⟩
  | .integer => (0 : Int64)

instance (τ : ScalarType) : Inhabited τ.Value := ⟨τ.zero⟩

/-- Integers must not leave their 64 bits. -/
def add : (τ : ScalarType) → τ.Value → τ.Value → Except Fault τ.Value
  | .single, a, b => .ok (Single.add a b)
  | .double, a, b => .ok (Double.add a b)
  | .integer, (a : Int64), (b : Int64) =>
    let sum := a.toInt + b.toInt
    if Int64.minValue.toInt ≤ sum ∧ sum ≤ Int64.maxValue.toInt then .ok (Int64.ofInt sum)
    else .error .addOverflow

end ScalarType

/-- What the elements of a block are. -/
inductive BlockType where
  | keys
  | scalars (τ : ScalarType)
  deriving DecidableEq, Repr

def BlockType.name : BlockType → String
  | .keys => "keys"
  | .scalars τ => τ.name

end ParamServer
