import ParamServer.Error
import ParamServer.SortedMap

/-!
# Stores

The values a shard holds for one table. Both layouts read alike inside the range of a dense store;
only the dense one refuses keys, those outside its range.
-/

namespace ParamServer

/-- One slot for each key of a range. -/
abbrev Slots (α : Type) (range : Interval) := Vector α range.width

namespace Slots

variable {α : Type} {range : Interval}

/-- Slots that all hold `a`, unless the range is too wide for them. -/
def filled (range : Interval) (a : α) : Except Error (Slots α range) :=
  if range.width > maxDenseKeys then .error (.config (.denseTooWide range))
  else .ok (Vector.replicate range.width a)

def slot (slots : Slots α range) (key : Key) (h : key ∈ range) : α :=
  slots.get ⟨range.offset key, Interval.offset_lt_width h⟩

def put (slots : Slots α range) (key : Key) (h : key ∈ range) (a : α) : Slots α range :=
  slots.set (range.offset key) a (Interval.offset_lt_width h)

end Slots

inductive Store (τ : ScalarType) where
  | sparse (values : SortedMap Key τ.Value)
  | dense (range : Interval) (slots : Slots τ.Value range)

namespace Store

variable {τ : ScalarType}

def new (τ : ScalarType) (backing : Backing) (range : Interval) : Except Error (Store τ) :=
  match backing with
  | .sparse => .ok (.sparse .empty)
  | .dense => (Slots.filled range τ.zero).map (.dense range)

def read (s : Store τ) (key : Key) : Except Error τ.Value :=
  match s with
  | .sparse values => .ok ((values.get? key).getD τ.zero)
  | .dense range slots =>
    if h : key ∈ range then .ok (slots.slot key h)
    else .error (.keyOutOfRange key)

/-- Adds `delta` to what is stored at `key`. -/
def add (s : Store τ) (key : Key) (delta : τ.Value) : Outcome (Store τ) Unit :=
  match s with
  | .sparse values =>
    match τ.add ((values.get? key).getD τ.zero) delta with
    | .ok sum => .ok () (.sparse (values.insert key sum))
    | .error why => .fault why
  | .dense range slots =>
    if h : key ∈ range then
      match τ.add (slots.slot key h) delta with
      | .ok sum => .ok () (.dense range (slots.put key h sum))
      | .error why => .fault why
    else .error (.keyOutOfRange key) (.dense range slots)

/-- Adds one after the other. A key that is refused ends it; what came before stays added. -/
def addAll (s : Store τ) : List (Key × τ.Value) → Outcome (Store τ) Unit
  | [] => .ok () s
  | (key, delta) :: rest => (s.add key delta).bind fun _ s => s.addAll rest

def readAll (s : Store τ) (keys : List Key) : Except Error (List τ.Value) := keys.mapM s.read

/-- Keys that take up room. -/
def size : Store τ → Nat
  | .sparse values => values.size
  | .dense range _ => range.width

end Store

end ParamServer
