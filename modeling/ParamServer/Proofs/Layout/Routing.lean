import Mathlib.Data.List.Pairwise
import Mathlib.Data.List.Sort
import ParamServer.Proofs.Layout.Search

/-!
# Which shard gets which key

What is asked of the ranges and shards of a layout is exactly what makes it well formed
(`defect?_eq_none_iff`). Then a key has the one shard whose range it is in, and the runs of an
ascending batch are laid end to end (`Tiles`) in the order of the ranges, one for each shard that
has keys in it (`routes_exactly`).
-/

namespace ParamServer

/-- The position is one of the run's. -/
def Run.Spans (r : Run) (i : Nat) : Prop := r.start ≤ i ∧ i < r.stop

namespace Layout

/-! ### What stands in the way of a layout -/

theorem repeated?_eq_none_iff {before shards : List ThreadId} (hb : before.Nodup) :
    defect?.repeated? before shards = none ↔ (before ++ shards).Nodup := by
  refine ⟨nodup_of_repeated?_eq_none hb, fun h => ?_⟩
  induction shards generalizing before with
  | nil => rfl
  | cons s rest ih =>
    have hs : s ∉ before := fun hs => (List.nodup_append.mp h).2.2 s hs s List.mem_cons_self rfl
    have hsplit : before ++ s :: rest = (before ++ [s]) ++ rest := by
      rw [List.append_assoc]
      rfl
    rw [hsplit] at h
    rw [defect?.repeated?, if_neg hs]
    exact ih (List.nodup_append.mp h).1 h

theorem misordered?_eq_none_iff {ranges : List Interval} :
    defect?.misordered? ranges = none ↔ ranges.IsChain fun a b => a.hi ≤ b.lo := by
  induction ranges with
  | nil => simp [defect?.misordered?]
  | cons a rest ih =>
    cases rest with
    | nil => simp [defect?.misordered?]
    | cons b rest =>
      rw [defect?.misordered?, List.isChain_cons_cons, ← ih]
      split
      · next hba => simp [UInt64.not_le.mpr hba]
      · next hba => simp [UInt64.not_lt.mp hba]

theorem defect?_eq_none_iff {ranges : List Interval} {shards : List ThreadId} :
    defect? ranges shards = none ↔
      ranges ≠ [] ∧ ranges.length = shards.length ∧ shards.Nodup ∧
        (∀ r ∈ ranges, r.lo < r.hi) ∧ ranges.IsChain fun a b => a.hi ≤ b.lo := by
  have hshards : defect?.repeated? [] shards = none ↔ ([] ++ shards).Nodup :=
    repeated?_eq_none_iff List.nodup_nil
  have hempty : ranges.find? (·.isEmpty) = none ↔ ∀ r ∈ ranges, r.lo < r.hi := by
    simp only [List.find?_eq_none, Bool.not_eq_true, Interval.isEmpty_eq_false_iff]
  unfold defect?
  split
  · next hnil => simp [hnil]
  split
  · next hlen => simp [hlen]
  next hnil hlen =>
  simp only [Option.or_eq_none_iff, Option.map_eq_none_iff, hshards, hempty,
    misordered?_eq_none_iff, List.nil_append]
  exact ⟨fun h => ⟨hnil, Decidable.not_not.mp hlen, h⟩, fun h => h.2.2⟩

theorem ofRanges_of_defect {ranges : List Interval} {shards : List ThreadId} {why : ConfigError}
    (h : defect? ranges shards = some why) : ofRanges ranges shards = .error (.config why) := by
  unfold ofRanges
  split
  · next hwhy => rw [Option.some.inj (hwhy.symm.trans h)]
  · next hnone => cases hnone.symm.trans h

theorem exists_ofRanges_iff {ranges : List Interval} {shards : List ThreadId} :
    (∃ l, ofRanges ranges shards = .ok l) ↔ defect? ranges shards = none := by
  cases hdefect : defect? ranges shards with
  | some why => simp [ofRanges_of_defect hdefect]
  | none =>
    unfold ofRanges
    split
    · next hwhy => cases hwhy.symm.trans hdefect
    · simp

variable {l : Layout} {keys : List Key} {runs : List Run} {start : Nat}

/-! ### Where a run lies -/

/-- The runs lie end to end from `start` to `stop`, and none is empty. -/
def Tiles (start stop : Nat) : List Run → Prop
  | [] => start = stop
  | r :: rest => r.start = start ∧ r.start < r.stop ∧ Tiles r.stop stop rest

theorem Tiles.exists_spans {stop i : Nat} (h : Tiles start stop runs) (hlo : start ≤ i)
    (hhi : i < stop) : ∃ r ∈ runs, r.Spans i := by
  induction runs generalizing start with
  | nil =>
    obtain rfl : start = stop := h
    omega
  | cons r rest ih =>
    obtain ⟨rfl, -, hrest⟩ := h
    by_cases hin : i < r.stop
    · exact ⟨r, List.mem_cons_self, hlo, hin⟩
    · obtain ⟨q, hq, hspans⟩ := ih hrest (Nat.le_of_not_lt hin)
      exact ⟨q, List.mem_cons_of_mem _ hq, hspans⟩

theorem Cut.tiles (h : l.Cut start keys runs) : Tiles start (start + keys.length) runs := by
  have hwhole := h.whole
  suffices htiles : ∀ front back, runs = front ++ back →
      Tiles (start + (front.flatMap (·.keys)).length) (start + keys.length) back by
    simpa using htiles [] runs rfl
  intro front back hsplit
  induction back generalizing front with
  | nil =>
    rw [List.append_nil] at hsplit
    rw [← hsplit, hwhole]
    rfl
  | cons r rest ih =>
    have hstart := h.starts front r rest hsplit
    have hr : r ∈ runs := hsplit ▸ List.mem_append_right _ List.mem_cons_self
    have hne : 0 < r.keys.length := List.length_pos_iff.mpr (h.owned r hr).1
    have hrest := ih (front ++ [r]) (by rw [hsplit, List.append_assoc]; rfl)
    refine ⟨hstart, Nat.lt_add_of_pos_right hne, ?_⟩
    rw [Run.stop, hstart, Nat.add_assoc]
    simpa using hrest

theorem Cut.keys_eq (h : l.Cut start keys runs) {r : Run} (hr : r ∈ runs) :
    start ≤ r.start ∧ r.keys = (keys.drop (r.start - start)).take r.keys.length := by
  obtain ⟨front, back, hsplit⟩ := List.append_of_mem hr
  have hstart := h.starts front r back hsplit
  have hwhole := h.whole
  rw [hsplit, List.flatMap_append, List.flatMap_cons] at hwhole
  refine ⟨Nat.le.intro hstart.symm, ?_⟩
  rw [hstart, Nat.add_sub_cancel_left, ← hwhole, List.drop_left, List.take_left]

theorem Cut.owner_of_spans (h : l.Cut start keys runs) {r : Run} (hr : r ∈ runs) {i : Nat}
    (hi : i < keys.length) (hspans : r.Spans (start + i)) : l.owner keys[i] = .ok r.shard := by
  obtain ⟨hle, hkeys⟩ := h.keys_eq hr
  obtain ⟨hlo, hhi⟩ := hspans
  have hoffset : r.start - start + (start + i - r.start) = i := by omega
  have hin : start + i - r.start < r.keys.length := by
    rw [Run.stop] at hhi
    omega
  refine (h.owned r hr).2 _ ?_
  rw [List.mem_iff_getElem?]
  refine ⟨start + i - r.start, ?_⟩
  rw [hkeys, List.getElem?_take_of_lt hin, List.getElem?_drop, hoffset,
    List.getElem?_eq_getElem hi]

theorem Cut.owner_iff_spans (h : l.Cut 0 keys runs) {i : Nat} (hi : i < keys.length)
    {shard : ThreadId} : l.owner keys[i] = .ok shard ↔ ∃ r ∈ runs, r.shard = shard ∧ r.Spans i := by
  have hown : ∀ r ∈ runs, r.Spans i → l.owner keys[i] = .ok r.shard := fun r hr hspans =>
    h.owner_of_spans hr hi ((Nat.zero_add i).symm ▸ hspans)
  constructor
  · intro howner
    have htiles := h.tiles
    rw [Nat.zero_add] at htiles
    obtain ⟨r, hr, hspans⟩ := htiles.exists_spans (Nat.zero_le i) hi
    exact ⟨r, hr, Except.ok.inj ((hown r hr hspans).symm.trans howner), hspans⟩
  · rintro ⟨r, hr, rfl, hspans⟩
    exact hown r hr hspans

/-! ### The order of the runs -/

theorem apart_of_ne {p q : Piece} (hp : p ∈ l.pieces) (hq : q ∈ l.pieces) (hne : p ≠ q) :
    p.range.hi ≤ q.range.lo ∨ q.range.hi ≤ p.range.lo := by
  have hpairs : l.pieces.Pairwise fun a b =>
      a.range.hi ≤ b.range.lo ∨ b.range.hi ≤ a.range.lo := l.wellFormed.ordered.imp Or.inl
  have : Std.Symm fun a b : Piece => a.range.hi ≤ b.range.lo ∨ b.range.hi ≤ a.range.lo :=
    ⟨fun _ _ => Or.symm⟩
  exact hpairs.forall hp hq hne

/-- The range of one shard begins below that of the other. -/
def Before (l : Layout) (s s' : ThreadId) : Prop :=
  ∃ p ∈ l.pieces, ∃ q ∈ l.pieces, p.shard = s ∧ q.shard = s' ∧ p.range.lo < q.range.lo

theorem antisymm_before (l : Layout) : Std.Antisymm l.Before where
  antisymm := by
    rintro _ _ ⟨p, hp, q, hq, rfl, rfl, hpq⟩ ⟨q', hq', p', hp', hqshard, hpshard, hqp⟩
    obtain rfl := eq_of_shard_eq hp' hp hpshard
    obtain rfl := eq_of_shard_eq hq' hq hqshard
    exact absurd hqp (UInt64.not_lt.mpr (UInt64.le_of_lt hpq))

theorem before_of_le {p q : Piece} (hp : p ∈ l.pieces) (hq : q ∈ l.pieces)
    (h : p.range.hi ≤ q.range.lo) : l.Before p.shard q.shard :=
  ⟨p, hp, q, hq, rfl, rfl, UInt64.lt_of_lt_of_le (l.wellFormed.inhabited p hp) h⟩

theorem Cut.sublist_shards (h : l.Cut start keys runs) (hascending : keys.Pairwise (· ≤ ·)) :
    (runs.map (·.shard)).Sublist l.shards := by
  have hruns : (runs.map (·.shard)).Pairwise l.Before := by
    rw [← h.whole, List.pairwise_flatMap] at hascending
    have hdistinct := List.pairwise_map.mp h.distinct
    refine List.pairwise_map.mpr ((hascending.2.and hdistinct).imp_of_mem ?_)
    rintro r r' hr hr' ⟨hle, hne⟩
    obtain ⟨p, hp, hpshard, hpkeys⟩ := h.piece hr
    obtain ⟨q, hq, hqshard, hqkeys⟩ := h.piece hr'
    obtain ⟨x, hx⟩ := List.exists_mem_of_ne_nil _ (h.owned r hr).1
    obtain ⟨y, hy⟩ := List.exists_mem_of_ne_nil _ (h.owned r' hr').1
    have hpq : p ≠ q := by
      rintro rfl
      exact hne (hpshard.symm.trans hqshard)
    rw [← hpshard, ← hqshard]
    rcases apart_of_ne hp hq hpq with hbefore | hafter
    · exact before_of_le hp hq hbefore
    · have hyx : y < x :=
        UInt64.lt_of_lt_of_le (hqkeys y hy).2 (UInt64.le_trans hafter (hpkeys x hx).1)
      exact absurd (hle x hx y hy) (UInt64.not_le.mpr hyx)
  have hshards : l.shards.Pairwise l.Before := List.pairwise_map.mpr <|
    l.wellFormed.ordered.imp_of_mem fun hp hq hle => before_of_le hp hq hle
  have hsubset : ∀ s ∈ runs.map (·.shard), s ∈ l.shards := by
    intro s hs
    obtain ⟨r, hr, rfl⟩ := List.mem_map.mp hs
    obtain ⟨p, hp, hshard, -⟩ := h.piece hr
    exact hshard ▸ List.mem_map_of_mem hp
  have := l.antisymm_before
  have hsubperm := List.subperm_of_subset h.distinct hsubset
  exact List.sublist_of_subperm_of_pairwise hsubperm hruns hshards

/-! ### The whole of it -/

/-- Ranges and shards that no layout is made of are always a configuration error. -/
theorem config_of_ofRanges {ranges : List Interval} {shards : List ThreadId} {failure : Error}
    (h : ofRanges ranges shards = .error failure) : ∃ why, failure = .config why := by
  cases hdefect : defect? ranges shards with
  | none =>
    obtain ⟨l, hl⟩ := exists_ofRanges_iff.mpr hdefect
    cases hl.symm.trans h
  | some why =>
    rw [ofRanges_of_defect hdefect] at h
    exact ⟨why, (Except.error.inj h).symm⟩

theorem mem_zipPieces {ranges : List Interval} {shards : List ThreadId} {p : Piece} :
    p ∈ zipPieces ranges shards ↔ (p.range, p.shard) ∈ ranges.zip shards := by
  unfold zipPieces
  rw [List.mem_map]
  exact ⟨fun ⟨e, he, hp⟩ => hp ▸ he, fun h => ⟨_, h, rfl⟩⟩

theorem ranges_of_zipPieces {ranges : List Interval} {shards : List ThreadId}
    (hpieces : l.pieces = zipPieces ranges shards) (hlen : ranges.length = shards.length) :
    l.ranges = ranges ∧ l.shards = shards := by
  unfold Layout.ranges Layout.shards
  rw [hpieces, zipPieces, List.map_map, List.map_map]
  exact ⟨List.map_fst_zip (Nat.le_of_eq hlen), List.map_snd_zip (Nat.le_of_eq hlen.symm)⟩

theorem routes_iff_mem {key : Key} : l.Routes key ↔ ∃ range ∈ l.ranges, key ∈ range := by
  unfold Routes Layout.ranges
  simp only [List.mem_map, exists_exists_and_eq_and]

theorem rangeOf?_eq_some_iff {shard : ThreadId} {range : Interval} :
    l.rangeOf? shard = some range ↔ ⟨range, shard⟩ ∈ l.pieces := by
  constructor
  · intro h
    obtain ⟨p, hfind, rfl⟩ := Option.map_eq_some_iff.mp h
    have hshard : p.shard = shard := by simpa using List.find?_some hfind
    exact hshard ▸ List.mem_of_find?_eq_some hfind
  · exact rangeOf?_of_mem

theorem owner_eq_error_iff {key : Key} :
    l.owner key = .error (.keyOutOfRange key) ↔ ¬l.Routes key := by
  refine ⟨fun h hroutes => ?_, owner_of_not_routes⟩
  obtain ⟨shard, howner⟩ := routes_iff.mp hroutes
  cases h.symm.trans howner

/-- What the runs of an ascending batch are: they lie end to end over all its positions, each has
the keys at its positions, no shard has two, they are in the order of the ranges, and a position is
in the run of the shard that owns its key. -/
structure Parts (l : Layout) (keys : List Key) (runs : List Run) : Prop where
  tiles : Tiles 0 keys.length runs
  held : ∀ r ∈ runs, r.keys = (keys.drop r.start).take r.keys.length
  distinct : (runs.map (·.shard)).Nodup
  ordered : (runs.map (·.shard)).Sublist l.shards
  owned : ∀ i (hi : i < keys.length) shard,
    l.owner keys[i] = .ok shard ↔ ∃ r ∈ runs, r.shard = shard ∧ r.Spans i

theorem parts_of_runs (h : l.runs keys = .ok runs) : l.Parts keys runs := by
  obtain ⟨hcut, hascending⟩ := cut_of_runs h
  exact ⟨by simpa using hcut.tiles, fun r hr => (hcut.keys_eq hr).2, hcut.distinct,
    hcut.sublist_shards hascending, fun i hi shard => hcut.owner_iff_spans hi⟩

/-- The first key that nobody owns is the one that is named. -/
theorem runs_of_first_stray {front back : List Key} {key : Key}
    (hascending : (front ++ key :: back).Pairwise (· ≤ ·)) (hfront : ∀ k ∈ front, l.Routes k)
    (hstray : ¬l.Routes key) :
    l.runs (front ++ key :: back) = .error (.error (.keyOutOfRange key)) := by
  refine runs_of_stray hascending (List.find?_eq_some_iff_append.mpr
    ⟨decide_eq_true hstray, front, back, rfl, fun k hk => ?_⟩)
  simpa using hfront k hk

theorem runs_eq_sweep (hascending : keys.Pairwise (· ≤ ·)) :
    l.runs keys = (l.sweep 0 keys).mapError .error := by
  rw [Layout.runs, if_pos ((ascending_iff_pairwise keys).mpr hascending),
    sweep_eq_runsFrom hascending]
  rfl

/-- **Exact routing.** There is a layout for ranges and shards exactly if there is a range, there
are as many ranges as shards, no shard comes twice, no range is empty and none ends above where the
next one begins; all else is a configuration error. In every layout a key is owned by the shard
whose range it is in, and by none exactly if it is in no range. An ascending batch is refused for
the first of its keys that is in no range; without such a key it is cut into its parts. Both can be
found by halving, in rounds that each take a key at least. -/
theorem routes_exactly (ranges : List Interval) (shards : List ThreadId) :
    ((∃ l, ofRanges ranges shards = .ok l) ↔
      ranges ≠ [] ∧ ranges.length = shards.length ∧ shards.Nodup ∧
        (∀ r ∈ ranges, r.lo < r.hi) ∧ ranges.IsChain fun a b => a.hi ≤ b.lo) ∧
    (∀ failure, ofRanges ranges shards = .error failure → ∃ why, failure = .config why) ∧
    ∀ l, ofRanges ranges shards = .ok l →
      (l.ranges = ranges ∧ l.shards = shards) ∧
      (∀ range shard, l.rangeOf? shard = some range ↔ (range, shard) ∈ ranges.zip shards) ∧
      (∀ key shard, l.owner key = .ok shard ↔
        ∃ range, (range, shard) ∈ ranges.zip shards ∧ key ∈ range) ∧
      (∀ key, l.owner key = .error (.keyOutOfRange key) ↔ ∀ range ∈ ranges, key ∉ range) ∧
      ∀ keys : List Key, keys.Pairwise (· ≤ ·) →
        (∀ front key back, keys = front ++ key :: back →
          (∀ k ∈ front, ∃ range ∈ ranges, k ∈ range) → (∀ range ∈ ranges, key ∉ range) →
          l.runs keys = .error (.error (.keyOutOfRange key))) ∧
        ((∀ key ∈ keys, ∃ range ∈ ranges, key ∈ range) →
          ∃ runs, l.runs keys = .ok runs ∧ l.Parts keys runs) ∧
        l.runs keys = (l.sweep 0 keys).mapError .error := by
  refine ⟨exists_ofRanges_iff.trans defect?_eq_none_iff, ?_, ?_⟩
  · exact fun failure hfailure => config_of_ofRanges hfailure
  · intro l hl
    have hpieces := pieces_of_ofRanges hl
    have hlen := (defect?_eq_none_iff.mp (exists_ofRanges_iff.mp ⟨l, hl⟩)).2.1
    obtain ⟨hranges, hshards⟩ := ranges_of_zipPieces hpieces hlen
    have hroutes : ∀ key, l.Routes key ↔ ∃ range ∈ ranges, key ∈ range := fun key => by
      rw [routes_iff_mem, hranges]
    refine ⟨⟨hranges, hshards⟩, ?_, ?_, ?_, ?_⟩
    · intro range shard
      rw [rangeOf?_eq_some_iff, hpieces, mem_zipPieces]
    · intro key shard
      rw [owner_eq_ok_iff, hpieces]
      constructor
      · rintro ⟨p, hp, rfl, hkey⟩
        exact ⟨p.range, mem_zipPieces.mp hp, hkey⟩
      · rintro ⟨range, hrange, hkey⟩
        exact ⟨⟨range, shard⟩, mem_zipPieces.mpr hrange, rfl, hkey⟩
    · intro key
      rw [owner_eq_error_iff, hroutes]
      simp only [not_exists, not_and]
    · intro keys hascending
      refine ⟨?_, ?_, runs_eq_sweep hascending⟩
      · rintro front key back rfl hfront hkey
        have hstray : ¬l.Routes key := fun h => by
          obtain ⟨range, hrange, hin⟩ := (hroutes key).mp h
          exact hkey range hrange hin
        exact runs_of_first_stray hascending (fun k hk => (hroutes k).mpr (hfront k hk)) hstray
      · intro hall
        obtain ⟨runs, hruns⟩ := runs_eq_ok hascending fun key hkey =>
          (hroutes key).mpr (hall key hkey)
        exact ⟨runs, hruns, parts_of_runs hruns⟩

/-- Three ranges: two touch, and the last one ends where the keys do. -/
def gapped : List Interval := [⟨0, 2⟩, ⟨2, 3⟩, ⟨18446744073709551614, 18446744073709551615⟩]

theorem routes_exactly_gapped :
    ∃ l runs, ofRanges gapped [7, 2, 9] = .ok l ∧ l.owner 2 = .ok 2 ∧
      l.owner 18446744073709551615 = .error (.keyOutOfRange 18446744073709551615) ∧
      l.runs [1, 1, 2, 18446744073709551614] = .ok runs ∧
      l.Parts [1, 1, 2, 18446744073709551614] runs ∧
      l.runs [1, 3, 18446744073709551615] = .error (.error (.keyOutOfRange 3)) := by
  obtain ⟨hexists, -, hlayout⟩ := routes_exactly gapped [7, 2, 9]
  obtain ⟨l, hl⟩ := hexists.mpr (by decide)
  obtain ⟨-, -, howner, hstray, hkeys⟩ := hlayout l hl
  obtain ⟨-, hparts, -⟩ := hkeys [1, 1, 2, 18446744073709551614] (by decide)
  obtain ⟨hfirst, -, -⟩ := hkeys [1, 3, 18446744073709551615] (by decide)
  obtain ⟨runs, hruns, hcut⟩ := hparts (by
    rw [List.forall_mem_cons, List.forall_mem_cons, List.forall_mem_cons, List.forall_mem_singleton]
    decide)
  exact ⟨l, runs, hl, (howner 2 2).mpr ⟨⟨2, 3⟩, by decide, by decide⟩,
    (hstray 18446744073709551615).mpr (by decide), hruns, hcut,
    hfirst [1] 3 [18446744073709551615] rfl (by rw [List.forall_mem_singleton]; decide)
      (by decide)⟩

end Layout

end ParamServer
