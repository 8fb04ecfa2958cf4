import ParamServer.Error

/-!
# Specifications

What a table and a cluster are asked to be, and which requests make sense.
-/

namespace ParamServer

structure TableSpec where
  model : Consistency
  storage : Backing
  /-- How far ahead of the slowest worker a reader may be. -/
  staleness : Clock
  /-- How many foreign writes of a key keep a reader from running further ahead; 0 for never. -/
  speculation : UInt64
  recorder : Option Backing
  deriving DecidableEq, Repr

namespace TableSpec

def asp (storage : Backing) : TableSpec := ⟨.asp, storage, 0, 0, none⟩

def bsp (storage : Backing) : TableSpec := ⟨.bsp, storage, 0, 0, none⟩

def ssp (storage : Backing) (staleness : Clock) : TableSpec := ⟨.ssp, storage, staleness, 0, none⟩

def sparseSsp (storage : Backing) (staleness : Clock) (speculation : UInt64) (recorder : Backing) :
    TableSpec :=
  ⟨.sparseSsp, storage, staleness, speculation, some recorder⟩

/-- Refuses settings that the model has no use for, and a missing recorder. -/
def validate (s : TableSpec) : Except Error Unit := do
  match s.model, s.recorder with
  | .sparseSsp, none => throw (.config .recorderMissing)
  | .sparseSsp, some _ => pure ()
  | model, some _ => throw (.config (.recorderUnused model))
  | model, none => if s.speculation > 0 then throw (.config (.speculationUnused model))
  if (s.model = .asp ∨ s.model = .bsp) ∧ s.staleness > 0 then
    throw (.config (.stalenessUnused s.model))

end TableSpec

structure ClusterSpec where
  shards : UInt64
  /-- The other shards follow this one. -/
  firstShard : ThreadId
  /-- Whether messages travel as bytes. -/
  wireCodec : Bool
  deriving DecidableEq, Repr

namespace ClusterSpec

/-- At least one shard, and every shard below the control thread. -/
def validate (s : ClusterSpec) : Attempt Unit := do
  if s.shards = 0 then throw (.error (.config .noShards))
  let stop := s.firstShard.toNat + s.shards.toNat
  if UInt64.size ≤ stop then throw (.fault .addOverflow)
  if controlThread.toNat ≤ stop - 1 then throw (.error (.config .shardIdsOverflow))

/-- As many ids from the first one on as 32 bits of the count say. -/
def shardIds (s : ClusterSpec) : Except Fault (List ThreadId) :=
  let count := s.shards.toUInt32.toNat
  if s.firstShard.toNat + count ≤ UInt32.size then
    .ok ((List.range count).map fun i => s.firstShard + UInt32.ofNat i)
  else .error .addOverflow

end ClusterSpec

end ParamServer
