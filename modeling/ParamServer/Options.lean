import ParamServer.Spec

/-!
# Options

What a run of the workload is asked to be, and what that means for the cluster, the table and the
workers.
-/

namespace ParamServer

structure Options where
  shards : UInt64 := 2
  workers : UInt32 := 4
  /-- The keys `[0, keys)` are split evenly across the shards. -/
  keys : UInt64 := 1000
  /-- What each worker does; one clock an iteration. -/
  iterations : UInt64 := 20
  /-- Keys a worker updates in one iteration. -/
  batch : UInt64 := 16
  model : Consistency := .ssp
  storage : Backing := .dense
  staleness : Clock := 1
  speculation : UInt64 := 0
  recorder : Option Backing := none
  wireCodec : Bool := false
  jsonLogs : Bool := false
  deriving DecidableEq, Repr

namespace Options

def clusterSpec (o : Options) : Attempt ClusterSpec := do
  let spec : ClusterSpec := ⟨o.shards, 0, o.wireCodec⟩
  spec.validate
  return spec

/-- Settings that the model has no use for are left out. -/
def tableSpec (o : Options) : Except Error TableSpec := do
  let spec : TableSpec :=
    match o.model with
    | .asp => .asp o.storage
    | .bsp => .bsp o.storage
    | .ssp => .ssp o.storage o.staleness
    | .sparseSsp => .sparseSsp o.storage o.staleness o.speculation (o.recorder.getD .sparse)
  spec.validate
  return spec

/-- The workers come after the shards. -/
def workerIds (o : Options) : Attempt (List ThreadId) :=
  if UInt32.size ≤ o.shards.toNat then throw (.error (.config (.tooManyShards o.shards)))
  else if o.workers ≠ 0 ∧ UInt32.size < o.shards.toNat + o.workers.toNat then
    throw (.fault .addOverflow)
  else return (List.range o.workers.toNat).map fun i => o.shards.toUInt32 + UInt32.ofNat i

end Options

end ParamServer
