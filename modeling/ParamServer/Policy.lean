import ParamServer.Basic

/-!
# Consistency and storage

How a table is kept consistent and laid out.
-/

namespace ParamServer

/-- When a read may be answered. -/
inductive Consistency where
  /-- At once. -/
  | asp
  /-- When every worker has reached the reader's clock. -/
  | bsp
  /-- When every worker is within a bound of the reader's clock. -/
  | ssp
  /-- As `ssp`, or earlier when few others wrote the keys of late. -/
  | sparseSsp
  deriving DecidableEq, Repr, Inhabited

def Consistency.name : Consistency → String
  | .asp => "Asp"
  | .bsp => "Bsp"
  | .ssp => "Ssp"
  | .sparseSsp => "SparseSsp"

/-- How the keys of a range are held. -/
inductive Backing where
  /-- Only keys that were touched. -/
  | sparse
  /-- One slot for each key of the range. -/
  | dense
  deriving DecidableEq, Repr, Inhabited

def Backing.name : Backing → String
  | .sparse => "Sparse"
  | .dense => "Dense"

/-- More slots than this are refused. -/
def maxDenseKeys : Nat := 0x100000000

end ParamServer
