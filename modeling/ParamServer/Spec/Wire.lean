import ParamServer.Spec
import ParamServer.Wire

/-!
# Specifications as bytes

An enumeration is written as its 32-bit index, and what may be missing behind a byte that says
whether it is there.
-/

namespace ParamServer

open Wire

def Consistency.index : Consistency → UInt32
  | .asp => 0
  | .bsp => 1
  | .ssp => 2
  | .sparseSsp => 3

def Backing.index : Backing → UInt32
  | .sparse => 0
  | .dense => 1

def TableSpec.encode (s : TableSpec) : Bytes :=
  put32 s.model.index ++ put32 s.storage.index ++ put64 s.staleness ++ put64 s.speculation ++
    match s.recorder with
    | none => [0]
    | some recorder => 1 :: put32 recorder.index

def ClusterSpec.encode (s : ClusterSpec) : Bytes :=
  put64 s.shards ++ put32 s.firstShard ++ [if s.wireCodec then 1 else 0]

end ParamServer
