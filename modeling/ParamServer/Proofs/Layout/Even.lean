import ParamServer.Proofs.Layout.Routing
import ParamServer.Proofs.Outcome

/-!
# Splitting a key space evenly

The cuts are multiples of `keys / n`, rounded down, so a range is as wide as that quotient or wider
by one. The product under the quotient is computed first, in 64 bits. Where it does not fit there,
there is no layout, although the cuts themselves would fit (`even_overflows`); everywhere else the
split is even (`even_exactly`).
-/

namespace ParamServer.Layout

variable {keys : UInt64} {n i : Nat}

/-- The `i`-th of `n` equal cuts, whatever the size of the product. -/
def cutAt (keys : UInt64) (n i : Nat) : Key := UInt64.ofNat (keys.toNat * i / n)

def evenRange (keys : UInt64) (n i : Nat) : Interval := ⟨cutAt keys n i, cutAt keys n (i + 1)⟩

def evenRanges (keys : UInt64) (n : Nat) : List Interval := (List.range n).map (evenRange keys n)

theorem toNat_cutAt (hi : i ≤ n) : (cutAt keys n i).toNat = keys.toNat * i / n := by
  have hle : keys.toNat * i / n ≤ keys.toNat :=
    Nat.div_le_of_le_mul (Nat.mul_comm n _ ▸ Nat.mul_le_mul_left _ hi)
  exact UInt64.toNat_ofNat_of_lt' (Nat.lt_of_le_of_lt hle keys.toNat_lt_size)

theorem cutAt_zero (keys : UInt64) (n : Nat) : cutAt keys n 0 = 0 := by
  rw [cutAt, Nat.mul_zero, Nat.zero_div]
  rfl

theorem cutAt_self (hn : 0 < n) : cutAt keys n n = keys := by
  rw [cutAt, Nat.mul_div_cancel _ hn]
  exact UInt64.ofNat_toNat

/-! ### Widths -/

/-- From one multiple to the next the quotient grows by the quotient of the step, or by one more
if that quotient leaves a remainder. -/
theorem div_add_cases (k a : Nat) (hn : 0 < n) :
    (a + k) / n - a / n = k / n ∨ (a + k) / n - a / n = (k + n - 1) / n := by
  rw [Nat.add_div hn, Nat.add_assoc, Nat.add_sub_cancel_left]
  split
  · next hcarry =>
    have hrem : n ≤ k % n + (n - 1) % n := by
      have := Nat.mod_lt a hn
      rw [Nat.mod_eq_of_lt (Nat.sub_lt hn Nat.one_pos)]
      omega
    right
    rw [Nat.add_sub_assoc hn, Nat.add_div hn, if_pos hrem,
      Nat.div_eq_of_lt (Nat.sub_lt hn Nat.one_pos), Nat.add_zero]
  · exact Or.inl (Nat.add_zero _)

theorem width_evenRange (hi : i < n) :
    (evenRange keys n i).width = keys.toNat / n ∨
      (evenRange keys n i).width = (keys.toNat + n - 1) / n := by
  have hn : 0 < n := Nat.lt_of_le_of_lt (Nat.zero_le i) hi
  rw [Interval.width, evenRange, toNat_cutAt hi, toNat_cutAt (Nat.le_of_lt hi), Nat.mul_succ]
  exact div_add_cases keys.toNat _ hn

theorem lo_lt_hi_evenRange (hfew : n ≤ keys.toNat) (hi : i < n) :
    (evenRange keys n i).lo < (evenRange keys n i).hi := by
  have hn : 0 < n := Nat.lt_of_le_of_lt (Nat.zero_le i) hi
  have hfloor : 0 < keys.toNat / n := Nat.div_pos hfew hn
  have hceil : keys.toNat / n ≤ (keys.toNat + n - 1) / n := Nat.div_le_div_right (by omega)
  rw [UInt64.lt_iff_toNat_lt]
  refine Nat.lt_of_sub_pos (?_ : 0 < (evenRange keys n i).width)
  have hwidth : (evenRange keys n i).width = keys.toNat / n ∨
      (evenRange keys n i).width = (keys.toNat + n - 1) / n := width_evenRange hi
  omega

/-! ### The ranges -/

/-- As many ranges as are wanted, from `0` up to `keys` without a gap, no two of which differ in
width by more than rounding makes necessary. -/
structure SplitsEvenly (keys : UInt64) (n : Nat) (ranges : List Interval) : Prop where
  count : ranges.length = n
  first : ranges.head?.map (·.lo) = some 0
  last : ranges.getLast?.map (·.hi) = some keys
  touching : ranges.IsChain fun a b => a.hi = b.lo
  width : ∀ r ∈ ranges, r.width = keys.toNat / n ∨ r.width = (keys.toNat + n - 1) / n

theorem touching_evenRanges (keys : UInt64) (n : Nat) :
    (evenRanges keys n).IsChain fun a b => a.hi = b.lo := by
  rw [List.isChain_iff_getElem]
  intro i hi
  simp only [evenRanges, List.getElem_map, List.getElem_range, evenRange]

theorem splitsEvenly_evenRanges (hn : 0 < n) : SplitsEvenly keys n (evenRanges keys n) where
  count := by rw [evenRanges, List.length_map, List.length_range]
  first := by
    rw [evenRanges, List.head?_map, List.head?_range, if_neg (Nat.ne_of_gt hn)]
    exact congrArg some (cutAt_zero keys n)
  last := by
    rw [evenRanges, List.getLast?_map, List.getLast?_range, if_neg (Nat.ne_of_gt hn)]
    refine congrArg some (?_ : cutAt keys n (n - 1 + 1) = keys)
    rw [Nat.sub_add_cancel hn, cutAt_self hn]
  touching := touching_evenRanges keys n
  width := by
    intro r hr
    obtain ⟨i, hi, rfl⟩ := List.mem_map.mp hr
    exact width_evenRange (List.mem_range.mp hi)

/-- Repeated shards are all that can be wrong with them. -/
theorem defect?_evenRanges {shards : List ThreadId} (hne : shards ≠ [])
    (hfew : shards.length ≤ keys.toNat) :
    defect? (evenRanges keys shards.length) shards = none ↔ shards.Nodup := by
  have heven : SplitsEvenly keys shards.length (evenRanges keys shards.length) :=
    splitsEvenly_evenRanges (List.length_pos_iff.mpr hne)
  rw [defect?_eq_none_iff]
  refine ⟨fun h => h.2.2.1, fun hnodup => ⟨?_, heven.count, hnodup, ?_, ?_⟩⟩
  · rw [← List.length_pos_iff, heven.count]
    exact List.length_pos_iff.mpr hne
  · intro r hr
    obtain ⟨i, hi, rfl⟩ := List.mem_map.mp hr
    exact lo_lt_hi_evenRange hfew (List.mem_range.mp hi)
  · exact heven.touching.imp fun a b hsame => UInt64.le_of_eq hsame

/-! ### The split -/

/-- One range after the other is computed. -/
def cutRange (keys : UInt64) (n i : Nat) : Attempt Interval := do
  return Interval.mk (← evenCut keys n i) (← evenCut keys n (i + 1))

/-- The upper end has the larger product. -/
theorem cutRange_eq (keys : UInt64) (n i : Nat) :
    cutRange keys n i = if keys.toNat * (i + 1) < UInt64.size then .ok (evenRange keys n i)
      else .error (.fault .multiplyOverflow) := by
  have hle : keys.toNat * i ≤ keys.toNat * (i + 1) := Nat.mul_le_mul_left _ (Nat.le_succ i)
  by_cases hhi : keys.toNat * (i + 1) < UInt64.size
  · simp only [cutRange, evenCut, if_pos hhi, if_pos (Nat.lt_of_le_of_lt hle hhi)]
    rfl
  · by_cases hlo : keys.toNat * i < UInt64.size
    · simp only [cutRange, evenCut, if_neg hhi, if_pos hlo]
      rfl
    · simp only [cutRange, evenCut, if_neg hhi, if_neg hlo]
      rfl

variable {shards : List ThreadId}

theorem even_of_few (h : shards.length = 0 ∨ keys.toNat < shards.length) :
    even keys shards = .error (.error (.config (.cannotSplit keys shards.length))) := by
  simp only [even, if_pos h]
  rfl

theorem even_eq_bind (h : ¬(shards.length = 0 ∨ keys.toNat < shards.length)) :
    even keys shards = (List.range shards.length).mapM (cutRange keys shards.length) >>=
      fun ranges => (ofRanges ranges shards).mapError .error := by
  simp only [even, if_neg h]
  rfl

theorem even_of_fit (h : ¬(shards.length = 0 ∨ keys.toNat < shards.length))
    (hfit : keys.toNat * shards.length < UInt64.size) :
    even keys shards = (ofRanges (evenRanges keys shards.length) shards).mapError .error := by
  have hcut : ∀ i ∈ List.range shards.length,
      cutRange keys shards.length i = .ok (evenRange keys shards.length i) := by
    intro i hi
    have hle := Nat.mul_le_mul_left keys.toNat (List.mem_range.mp hi)
    rw [cutRange_eq, if_pos (Nat.lt_of_le_of_lt hle hfit)]
  rw [even_eq_bind h, mapM_eq_ok hcut]
  rfl

/-- The last range of all needs the largest product. -/
theorem even_of_large (h : ¬(shards.length = 0 ∨ keys.toNat < shards.length))
    (hlarge : UInt64.size ≤ keys.toNat * shards.length) :
    even keys shards = .error (.fault .multiplyOverflow) := by
  have hcut : ∀ i ∈ List.range shards.length,
      cutRange keys shards.length i = .error (.fault .multiplyOverflow) ∨
        ∃ range, cutRange keys shards.length i = .ok range := by
    intro i _
    rw [cutRange_eq]
    split
    · exact Or.inr ⟨_, rfl⟩
    · exact Or.inl rfl
  have hlast : shards.length - 1 ∈ List.range shards.length := by
    rw [List.mem_range]
    omega
  have hfails : cutRange keys shards.length (shards.length - 1) =
      .error (.fault .multiplyOverflow) := by
    rw [cutRange_eq, Nat.sub_add_cancel (by omega), if_neg (Nat.not_lt.mpr hlarge)]
  rw [even_eq_bind h, mapM_eq_error hcut hlast hfails]
  rfl

/-- **An even split, where it can be computed.** Without shards, and with fewer keys than shards,
there is a configuration error. Otherwise, if the product of keys and shards fits 64 bits, a
repeated shard is a configuration error too, and shards that do not repeat get even ranges in their
order; a product that does not fit is a fault. -/
theorem even_exactly (keys : UInt64) (shards : List ThreadId) :
    (shards.length = 0 ∨ keys.toNat < shards.length →
      even keys shards = .error (.error (.config (.cannotSplit keys shards.length)))) ∧
    (¬(shards.length = 0 ∨ keys.toNat < shards.length) →
      (keys.toNat * shards.length < UInt64.size →
        (¬shards.Nodup → ∃ why, even keys shards = .error (.error (.config why))) ∧
        (shards.Nodup → ∃ l, even keys shards = .ok l ∧ l.shards = shards ∧
          SplitsEvenly keys shards.length l.ranges)) ∧
      (UInt64.size ≤ keys.toNat * shards.length →
        even keys shards = .error (.fault .multiplyOverflow))) := by
  refine ⟨even_of_few, fun h => ⟨fun hfit => ?_, even_of_large h⟩⟩
  have hne : shards ≠ [] := by
    rintro rfl
    exact h (Or.inl rfl)
  have hfew : shards.length ≤ keys.toNat := by omega
  have hdefect := defect?_evenRanges hne hfew
  rw [even_of_fit h hfit]
  constructor
  · intro hrepeats
    cases hcase : defect? (evenRanges keys shards.length) shards with
    | none => exact absurd (hdefect.mp hcase) hrepeats
    | some why => exact ⟨why, by rw [ofRanges_of_defect hcase]; rfl⟩
  · intro hnodup
    obtain ⟨l, hl⟩ := exists_ofRanges_iff.mpr (hdefect.mpr hnodup)
    have heven : SplitsEvenly keys shards.length (evenRanges keys shards.length) :=
      splitsEvenly_evenRanges (List.length_pos_iff.mpr hne)
    obtain ⟨hranges, hshards⟩ := ranges_of_zipPieces (pieces_of_ofRanges hl) heven.count
    rw [hl]
    exact ⟨l, rfl, hshards, hranges ▸ heven⟩

/-- Three shards and the largest number of keys that they can share. -/
theorem even_exactly_thirds :
    ∃ l, even 6148914691236517205 [4, 9, 2] = .ok l ∧ l.shards = [4, 9, 2] ∧
      SplitsEvenly 6148914691236517205 3 l.ranges := by
  obtain ⟨-, hfits⟩ := even_exactly 6148914691236517205 [4, 9, 2]
  obtain ⟨heven, -⟩ := hfits (by decide)
  exact (heven (by decide)).2 (by decide)

/-- Half of all keys cannot be split in two, although there are enough of them and the two shards
differ. -/
theorem even_overflows :
    ([1, 2] : List ThreadId).length ≤ (9223372036854775808 : UInt64).toNat ∧
      ([1, 2] : List ThreadId).Nodup ∧
      even 9223372036854775808 [1, 2] = .error (.fault .multiplyOverflow) :=
  ⟨by decide, by decide, rfl⟩

end ParamServer.Layout
