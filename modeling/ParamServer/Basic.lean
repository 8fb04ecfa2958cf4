/-!
# Identifiers and operations

Identifiers shared by the whole library, the operations a message asks for, and the order that key
lists must have.
-/

namespace ParamServer

abbrev Key := UInt64

/-- Iterations a worker has completed. -/
abbrev Clock := UInt64

/-- A worker or a shard; both are addressed the same way. -/
abbrev ThreadId := UInt32

abbrev TableId := UInt32

/-- Pairs a read with the answers to it; zero where no answer is expected. -/
abbrev RequestId := UInt64

/-- Never handed to a worker or a shard: the cluster speaks under it itself. -/
def controlThread : ThreadId := 0xffffffff

inductive Op where
  | add
  | get
  | clock
  | response
  /-- Fixes the workers whose clocks a tablet waits for. -/
  | resetWorkers
  deriving DecidableEq, Repr, Inhabited

def Op.name : Op → String
  | .add => "Add"
  | .get => "Get"
  | .clock => "Clock"
  | .response => "Response"
  | .resetWorkers => "ResetWorkers"

/-- No key is above its successor; repeats are allowed. -/
def ascending : List Key → Bool
  | a :: b :: rest => decide (a ≤ b) && ascending (b :: rest)
  | _ => true

theorem ascending_cons_cons (a b : Key) (rest : List Key) :
    ascending (a :: b :: rest) = (decide (a ≤ b) && ascending (b :: rest)) := rfl

theorem ascending_iff_pairwise (keys : List Key) :
    ascending keys = true ↔ keys.Pairwise (· ≤ ·) := by
  induction keys with
  | nil => simp [ascending]
  | cons a rest ih =>
    cases rest with
    | nil => simp [ascending]
    | cons b rest =>
      rw [ascending_cons_cons, Bool.and_eq_true, ih, decide_eq_true_iff,
        List.pairwise_cons (a := a)]
      refine ⟨fun ⟨hab, hrest⟩ => ⟨fun c hc => ?_, hrest⟩,
        fun ⟨hall, hrest⟩ => ⟨hall b (List.mem_cons_self ..), hrest⟩⟩
      rcases List.mem_cons.mp hc with rfl | hc
      · exact hab
      · exact UInt64.le_trans hab ((List.pairwise_cons.mp hrest).1 c hc)

end ParamServer
