import ParamServer.Basic

/-!
# Key ranges

Half-open ranges of keys, and where a key stands in one.
-/

namespace ParamServer

/-- The keys from `lo` up to, and without, `hi`; none where `hi ≤ lo`. -/
structure Interval where
  lo : Key
  hi : Key
  deriving DecidableEq, Repr, Inhabited

namespace Interval

instance : Membership Key Interval := ⟨fun r k => r.lo ≤ k ∧ k < r.hi⟩

theorem mem_iff {k : Key} {r : Interval} : k ∈ r ↔ r.lo ≤ k ∧ k < r.hi := Iff.rfl

instance (k : Key) (r : Interval) : Decidable (k ∈ r) :=
  inferInstanceAs (Decidable (r.lo ≤ k ∧ k < r.hi))

def width (r : Interval) : Nat := r.hi.toNat - r.lo.toNat

def isEmpty (r : Interval) : Bool := decide (r.hi ≤ r.lo)

/-- Where `k` stands in the range, counted from `lo`. -/
def offset (r : Interval) (k : Key) : Nat := k.toNat - r.lo.toNat

theorem offset_lt_width {r : Interval} {k : Key} (h : k ∈ r) : r.offset k < r.width := by
  have hlo := UInt64.le_iff_toNat_le.mp h.1
  have hhi := UInt64.lt_iff_toNat_lt.mp h.2
  unfold offset width
  omega

theorem isEmpty_eq_false_iff {r : Interval} : r.isEmpty = false ↔ r.lo < r.hi := by
  simp [isEmpty, UInt64.not_le]

instance : ToString Interval := ⟨fun r => s!"[{r.lo}, {r.hi})"⟩

end Interval

end ParamServer
