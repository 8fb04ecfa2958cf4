import ParamServer.Message
import ParamServer.SortedMap

/-!
# Messages that wait

Messages that wait for the slowest worker, under the clock it has to reach. Read as `entries`, the
list is ordered by clock, and by arrival within a clock.
-/

namespace ParamServer

structure Waitlist where
  buckets : SortedMap Clock (List Message)

namespace Waitlist

def empty : Waitlist := ⟨.empty⟩

/-- Everything that waits, each message with its clock. -/
def entries (w : Waitlist) : List (Clock × Message) :=
  w.buckets.entries.flatMap fun e => e.2.map (e.1, ·)

def messages (w : Waitlist) : List Message := w.buckets.values.flatten

/-- Puts a message behind the others that wait for `clock`. -/
def park (w : Waitlist) (clock : Clock) (m : Message) : Waitlist :=
  ⟨w.buckets.alter clock fun waiting => some (waiting.getD [] ++ [m])⟩

/-- Takes out what waits for exactly `clock`. -/
def takeAt (w : Waitlist) (clock : Clock) : List Message × Waitlist :=
  ((w.buckets.get? clock).getD [], ⟨w.buckets.erase clock⟩)

/--
Takes out what waits for `clock` or less: all that comes before the next clock. After the last clock
there is none, and nothing stays.
-/
def takeThrough (w : Waitlist) (clock : Clock) : List Message × Waitlist :=
  let (due, later) :=
    if clock.toNat + 1 < UInt64.size then w.buckets.splitAt (clock + 1) else (w.buckets, .empty)
  (due.values.flatten, ⟨later⟩)

/-- Sorts a list into what `p` picks and the rest, asking it once an element, in order. -/
def pick {α σ : Type} (p : α → StateM σ Bool) : List α → StateM σ (List α × List α)
  | [] => pure ([], [])
  | a :: as => do
    let picked ← p a
    let (taken, kept) ← pick p as
    return if picked then (a :: taken, kept) else (taken, a :: kept)

/-- Picks from one bucket after the other. What is picked comes together, the rest stays apart. -/
def pickEach {α σ : Type} (p : α → StateM σ Bool) :
    List (List α) → StateM σ (List α × List (List α))
  | [] => pure ([], [])
  | bucket :: rest => do
    let (taken, kept) ← pick p bucket
    let (later, others) ← pickEach p rest
    return (taken ++ later, kept :: others)

/--
Takes out the messages `p` picks, wherever they wait, and the buckets that this empties. `p` may
change its mind from one call to the next: it is asked once for each message, in the order of
`entries`.
-/
def takeWhereM {σ : Type} (w : Waitlist) (p : Message → StateM σ Bool) :
    StateM σ (List Message × Waitlist) := do
  let (taken, kept) ← pickEach p w.buckets.values
  let buckets := w.buckets.withValues kept
  return (taken, ⟨buckets.filterMap fun _ waiting =>
    if waiting.isEmpty then none else some waiting⟩)

def takeWhere (w : Waitlist) (p : Message → Bool) : List Message × Waitlist :=
  let chosen : StateM Unit (List Message × Waitlist) := w.takeWhereM fun m => pure (p m)
  (chosen.run ()).1

def countAt (w : Waitlist) (clock : Clock) : Nat := ((w.buckets.get? clock).getD []).length

def size (w : Waitlist) : Nat := w.messages.length

def isEmpty (w : Waitlist) : Bool := w.buckets.isEmpty

end Waitlist

end ParamServer
