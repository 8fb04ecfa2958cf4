import ParamServer.Error

/-!
# Layouts

Which shard owns which keys of a table. A layout is well formed by construction
(`Layout.WellFormed`, checked by `defect?`); it finds the owner of a key and cuts an ascending
batch of keys into one run for each shard it touches.
-/

namespace ParamServer

/-- A shard and the keys it owns. -/
structure Piece where
  range : Interval
  shard : ThreadId
  deriving DecidableEq, Repr

/-- What stands in the way of a layout, the first of several in the order of the checks. -/
def Layout.defect? (ranges : List Interval) (shards : List ThreadId) : Option ConfigError :=
  if ranges = [] then some .noRanges
  else if ranges.length ≠ shards.length then some (.rangeCount ranges.length shards.length)
  else (repeated? [] shards).or <| (ranges.find? (·.isEmpty)).map .emptyRange |>.or <|
    misordered? ranges
where
  repeated? (before : List ThreadId) : List ThreadId → Option ConfigError
    | [] => none
    | s :: rest =>
      if s ∈ before then some (.sharedShard s before.length) else repeated? (before ++ [s]) rest
  misordered? : List Interval → Option ConfigError
    | a :: b :: rest => if b.lo < a.hi then some (.misordered a b) else misordered? (b :: rest)
    | _ => none

/-- Non-empty ranges in ascending order without overlap, each owned by a shard of its own. -/
structure Layout.WellFormed (pieces : List Piece) : Prop where
  nonempty : pieces ≠ []
  distinct : (pieces.map (·.shard)).Nodup
  inhabited : ∀ p ∈ pieces, p.range.lo < p.range.hi
  ordered : pieces.Pairwise fun a b => a.range.hi ≤ b.range.lo

structure Layout where
  pieces : List Piece
  wellFormed : Layout.WellFormed pieces

/-- Neighbouring keys of a batch that one shard owns. -/
structure Run where
  shard : ThreadId
  /-- Where the run begins in its batch. -/
  start : Nat
  keys : List Key
  deriving DecidableEq, Repr

def Run.stop (r : Run) : Nat := r.start + r.keys.length

namespace Layout

theorem nodup_of_repeated?_eq_none {before shards : List ThreadId} (hb : before.Nodup)
    (h : defect?.repeated? before shards = none) : (before ++ shards).Nodup := by
  induction shards generalizing before with
  | nil => simpa using hb
  | cons s rest ih =>
    rw [defect?.repeated?] at h
    split at h
    · simp at h
    · rename_i hs
      have hb' : (before ++ [s]).Nodup := by
        rw [List.nodup_append]
        exact ⟨hb, by simp, fun a ha b hab => by
          rw [List.mem_singleton.mp hab]
          rintro rfl
          exact hs ha⟩
      simpa using ih hb' h

theorem chain_of_misordered?_eq_none {ranges : List Interval}
    (hne : ∀ r ∈ ranges, r.lo < r.hi) (h : defect?.misordered? ranges = none) :
    ranges.Pairwise fun a b => a.hi ≤ b.lo := by
  induction ranges with
  | nil => exact .nil
  | cons a rest ih =>
    cases rest with
    | nil => simp
    | cons b rest =>
      rw [defect?.misordered?] at h
      split at h
      · simp at h
      · rename_i hab
        have htail := ih (fun r hr => hne r (List.mem_cons_of_mem _ hr)) h
        have hab : a.hi ≤ b.lo := UInt64.not_lt.mp hab
        refine List.pairwise_cons.mpr ⟨fun c hc => ?_, htail⟩
        rcases List.mem_cons.mp hc with rfl | hc
        · exact hab
        · have hb : b.lo < b.hi := hne b (by simp)
          have hbc := (List.pairwise_cons.mp htail).1 c hc
          rw [UInt64.le_iff_toNat_le] at *
          rw [UInt64.lt_iff_toNat_lt] at hb
          omega

def zipPieces (ranges : List Interval) (shards : List ThreadId) : List Piece :=
  (ranges.zip shards).map fun e => ⟨e.1, e.2⟩

theorem wellFormed_of_defect?_eq_none {ranges : List Interval} {shards : List ThreadId}
    (h : defect? ranges shards = none) : WellFormed (zipPieces ranges shards) := by
  unfold defect? at h
  split at h
  · simp at h
  rename_i hnil
  split at h
  · simp at h
  rename_i hlen
  have hlen : ranges.length = shards.length := Decidable.not_not.mp hlen
  simp only [Option.or_eq_none_iff, Option.map_eq_none_iff] at h
  obtain ⟨hshards, hempty, horder⟩ := h
  have hne : ∀ r ∈ ranges, r.lo < r.hi := fun r hr => by
    have := List.find?_eq_none.mp hempty r hr
    exact Interval.isEmpty_eq_false_iff.mp (by simpa using this)
  have hrange : (zipPieces ranges shards).map (·.range) = ranges := by
    simpa [zipPieces, Function.comp_def] using List.map_fst_zip (Nat.le_of_eq hlen)
  have hshard : (zipPieces ranges shards).map (·.shard) = shards := by
    simpa [zipPieces, Function.comp_def] using List.map_snd_zip (Nat.le_of_eq hlen.symm)
  refine ⟨fun hp => hnil (by rw [← hrange, hp, List.map_nil]), ?_, fun p hp => ?_, ?_⟩
  · rw [hshard]
    simpa using nodup_of_repeated?_eq_none .nil hshards
  · exact hne _ (hrange ▸ List.mem_map_of_mem hp)
  · have hchain := chain_of_misordered?_eq_none hne horder
    rw [← hrange] at hchain
    exact List.pairwise_map.mp hchain

def ofRanges (ranges : List Interval) (shards : List ThreadId) : Except Error Layout :=
  match h : defect? ranges shards with
  | some why => .error (.config why)
  | none => .ok ⟨zipPieces ranges shards, wellFormed_of_defect?_eq_none h⟩

/-- The `i`-th of `shards` equal cuts through `[0, keys)`, rounded down. The product must fit 64
bits. -/
def evenCut (keys : UInt64) (shards i : Nat) : Except Fault Key :=
  if keys.toNat * i < UInt64.size then .ok (UInt64.ofNat (keys.toNat * i / shards))
  else .error .multiplyOverflow

/-- Splits `[0, keys)` into ranges of near equal width, one a shard. -/
def even (keys : UInt64) (shards : List ThreadId) : Attempt Layout := do
  let n := shards.length
  if n = 0 ∨ keys.toNat < n then throw (.error (.config (.cannotSplit keys n)))
  let ranges ← (List.range n).mapM fun i => do
    return Interval.mk (← evenCut keys n i) (← evenCut keys n (i + 1))
  ofRanges ranges shards

def ranges (l : Layout) : List Interval := l.pieces.map (·.range)

/-- Every shard that owns keys, in the order of the ranges. -/
def shards (l : Layout) : List ThreadId := l.pieces.map (·.shard)

def rangeOf? (l : Layout) (shard : ThreadId) : Option Interval :=
  (l.pieces.find? (·.shard = shard)).map (·.range)

/-- The ranges ascend, so only the first that ends above the key can hold it. -/
def locate (l : Layout) (key : Key) : Except Error Piece :=
  match l.pieces.find? (key < ·.range.hi) with
  | some p => if key ∈ p.range then .ok p else .error (.keyOutOfRange key)
  | none => .error (.keyOutOfRange key)

def owner (l : Layout) (key : Key) : Except Error ThreadId := (l.locate key).map (·.shard)

/-- The keys from position `start` on. A key joins the run behind it if both have the same owner. -/
def runsFrom (l : Layout) (start : Nat) : List Key → Except Error (List Run)
  | [] => .ok []
  | key :: rest => do
    let shard ← l.owner key
    match ← l.runsFrom (start + 1) rest with
    | [] => return [⟨shard, start, [key]⟩]
    | r :: later =>
      if r.shard = shard then return ⟨shard, start, key :: r.keys⟩ :: later
      else return ⟨shard, start, [key]⟩ :: r :: later

/-- Cuts an ascending batch into the runs of its shards. Any other batch is a fault. -/
def runs (l : Layout) (keys : List Key) : Attempt (List Run) :=
  if ascending keys then l.runsFrom 0 keys else throw (.fault .unsortedKeys)

end Layout

end ParamServer
