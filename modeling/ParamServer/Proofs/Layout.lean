import Mathlib.Data.List.Nodup
import ParamServer.Layout

/-!
# What a batch is cut into

The owner of a key is the shard of the one piece that has the key (`owner_eq_ok_iff`). Pieces are
ranges, so between two keys of one shard there are no keys of another, and an ascending batch comes
back to no shard that it has left. That is what makes the runs of a batch as good as a table of its
shards (`cut_of_runsFrom`).
-/

namespace ParamServer.Layout

variable {l : Layout}

theorem eq_of_shard_eq {p q : Piece} (hp : p ∈ l.pieces) (hq : q ∈ l.pieces)
    (h : p.shard = q.shard) : p = q :=
  List.inj_on_of_nodup_map l.wellFormed.distinct hp hq h

theorem rangeOf?_of_mem {p : Piece} (hp : p ∈ l.pieces) :
    l.rangeOf? p.shard = some p.range := by
  unfold rangeOf?
  cases hfind : l.pieces.find? (·.shard = p.shard) with
  | none => exact absurd (List.find?_eq_none.mp hfind p hp) (by simp)
  | some q =>
    have hshard : q.shard = p.shard := by simpa using List.find?_some hfind
    rw [eq_of_shard_eq (List.mem_of_find?_eq_some hfind) hp hshard]
    rfl

theorem pieces_of_ofRanges {ranges : List Interval} {shards : List ThreadId}
    (h : ofRanges ranges shards = .ok l) : l.pieces = zipPieces ranges shards := by
  unfold ofRanges at h
  split at h
  · cases h
  · rw [← Except.ok.inj h]

theorem locate_of_mem {p : Piece} (hp : p ∈ l.pieces) {key : Key} (hkey : key ∈ p.range) :
    l.locate key = .ok p := by
  obtain ⟨front, back, hpieces⟩ := List.append_of_mem hp
  have hordered := l.wellFormed.ordered
  rw [hpieces] at hordered
  have hfront : ∀ q ∈ front, ¬key < q.range.hi := by
    intro q hq
    have hle := (List.pairwise_append.mp hordered).2.2 q hq p (List.mem_cons_self ..)
    exact UInt64.not_lt.mpr (UInt64.le_trans hle hkey.1)
  have hfind : l.pieces.find? (key < ·.range.hi) = some p := by
    rw [hpieces, List.find?_append, List.find?_eq_none.mpr (by simpa using hfront),
      List.find?_cons_of_pos (by simpa using hkey.2)]
    rfl
  rw [locate, hfind]
  exact if_pos hkey

theorem mem_of_locate {key : Key} {p : Piece} (h : l.locate key = .ok p) :
    p ∈ l.pieces ∧ key ∈ p.range := by
  unfold locate at h
  split at h
  · next q hfind =>
    split at h
    · next hkey =>
      obtain rfl := Except.ok.inj h
      exact ⟨List.mem_of_find?_eq_some hfind, hkey⟩
    · cases h
  · cases h

theorem owner_eq_ok_iff {key : Key} {shard : ThreadId} :
    l.owner key = .ok shard ↔ ∃ p ∈ l.pieces, p.shard = shard ∧ key ∈ p.range := by
  constructor
  · intro h
    cases hlocate : l.locate key with
    | error why =>
      rw [owner, hlocate] at h
      cases h
    | ok p =>
      rw [owner, hlocate] at h
      obtain ⟨hp, hkey⟩ := mem_of_locate hlocate
      exact ⟨p, hp, Except.ok.inj h, hkey⟩
  · rintro ⟨p, hp, rfl, hkey⟩
    rw [owner, locate_of_mem hp hkey]
    rfl

/-- Ten keys in two halves, the layout of the runs on fixed inputs. -/
theorem wellFormed_halves : WellFormed [⟨⟨0, 5⟩, 1⟩, ⟨⟨5, 10⟩, 2⟩] :=
  ⟨by decide, by decide, by decide, by decide⟩

/-- Some shard owns the key. -/
def Routes (l : Layout) (key : Key) : Prop := ∃ p ∈ l.pieces, key ∈ p.range

instance (l : Layout) (key : Key) : Decidable (l.Routes key) :=
  inferInstanceAs (Decidable (∃ p ∈ l.pieces, key ∈ p.range))

theorem routes_iff {key : Key} : l.Routes key ↔ ∃ shard, l.owner key = .ok shard := by
  simp only [owner_eq_ok_iff, Routes]
  constructor
  · rintro ⟨p, hp, hkey⟩
    exact ⟨p.shard, p, hp, rfl, hkey⟩
  · rintro ⟨-, p, hp, -, hkey⟩
    exact ⟨p, hp, hkey⟩

theorem owner_of_not_routes {key : Key} (h : ¬l.Routes key) :
    l.owner key = .error (.keyOutOfRange key) := by
  unfold owner locate
  split
  case h_1 p hfind =>
    rw [if_neg fun hkey => h ⟨p, List.mem_of_find?_eq_some hfind, hkey⟩]
    rfl
  case h_2 => rfl

theorem owner_of_between {a b c : Key} {shard : ThreadId} (ha : l.owner a = .ok shard)
    (hc : l.owner c = .ok shard) (hab : a ≤ b) (hbc : b ≤ c) : l.owner b = .ok shard := by
  obtain ⟨p, hp, hshard, hap⟩ := owner_eq_ok_iff.mp ha
  obtain ⟨q, hq, hqshard, hcq⟩ := owner_eq_ok_iff.mp hc
  obtain rfl := eq_of_shard_eq hp hq (hshard.trans hqshard.symm)
  refine owner_eq_ok_iff.mpr ⟨p, hp, hshard, UInt64.le_trans hap.1 hab, ?_⟩
  exact UInt64.lt_of_le_of_lt hbc hcq.2

/-- The runs of a batch that begins at position `start`: side by side they are the batch, each is
its shard's, and no shard has two. -/
structure Cut (l : Layout) (start : Nat) (keys : List Key) (runs : List Run) : Prop where
  whole : runs.flatMap (·.keys) = keys
  starts : ∀ front r back, runs = front ++ r :: back →
    r.start = start + (front.flatMap (·.keys)).length
  owned : ∀ r ∈ runs, r.keys ≠ [] ∧ ∀ key ∈ r.keys, l.owner key = .ok r.shard
  distinct : (runs.map (·.shard)).Nodup

theorem cut_nil (l : Layout) (start : Nat) : l.Cut start [] [] :=
  ⟨rfl, by simp, by simp, by simp⟩

theorem cut_singleton {start : Nat} {key : Key} {shard : ThreadId}
    (howner : l.owner key = .ok shard) : l.Cut start [key] [⟨shard, start, [key]⟩] where
  whole := rfl
  starts := by
    intro front r back h
    cases front with
    | nil =>
      obtain ⟨rfl, -⟩ := List.cons.inj h
      rfl
    | cons _ front => simp at h
  owned := by simpa using howner
  distinct := by simp

/-- The key joins the run behind it. -/
theorem Cut.join {start : Nat} {key : Key} {rest : List Key} {r : Run} {later : List Run}
    (h : l.Cut (start + 1) rest (r :: later)) (howner : l.owner key = .ok r.shard) :
    l.Cut start (key :: rest) (⟨r.shard, start, key :: r.keys⟩ :: later) where
  whole := by
    have hwhole := h.whole
    rw [List.flatMap_cons] at hwhole ⊢
    rw [← hwhole]
    rfl
  starts := by
    intro front q back hsplit
    cases front with
    | nil =>
      obtain ⟨rfl, -⟩ := List.cons.inj hsplit
      rfl
    | cons head front =>
      obtain ⟨rfl, hlater⟩ := List.cons.inj hsplit
      rw [h.starts (r :: front) q back (by rw [hlater]; rfl)]
      simp only [List.flatMap_cons, List.length_append, List.length_cons]
      omega
  owned := by
    intro q hq
    rcases List.mem_cons.mp hq with rfl | hq
    · refine ⟨by simp, ?_⟩
      intro k hk
      rcases List.mem_cons.mp hk with rfl | hk
      · exact howner
      · exact (h.owned r (List.mem_cons_self ..)).2 k hk
    · exact h.owned q (List.mem_cons_of_mem _ hq)
  distinct := h.distinct

/-- The key is another shard's than the run behind it, and opens a run of its own. -/
theorem Cut.open {start : Nat} {key : Key} {rest : List Key} {r : Run} {later : List Run}
    {shard : ThreadId} (hascending : (key :: rest).Pairwise (· ≤ ·))
    (h : l.Cut (start + 1) rest (r :: later)) (howner : l.owner key = .ok shard)
    (hother : r.shard ≠ shard) :
    l.Cut start (key :: rest) (⟨shard, start, [key]⟩ :: r :: later) where
  whole := by
    rw [List.flatMap_cons, h.whole]
    rfl
  starts := by
    intro front q back hsplit
    cases front with
    | nil =>
      obtain ⟨rfl, -⟩ := List.cons.inj hsplit
      rfl
    | cons head front =>
      obtain ⟨rfl, hlater⟩ := List.cons.inj hsplit
      rw [h.starts front q back hlater]
      simp only [List.flatMap_cons, List.length_append, List.length_cons, List.length_nil]
      omega
  owned := by
    intro q hq
    rcases List.mem_cons.mp hq with rfl | hq
    · exact ⟨by simp, fun k hk => by rw [List.mem_singleton.mp hk]; exact howner⟩
    · exact h.owned q hq
  distinct := by
    rw [List.map_cons, List.nodup_cons]
    refine ⟨?_, h.distinct⟩
    intro hmem
    obtain ⟨q, hq, hshard⟩ := List.mem_map.mp hmem
    rcases List.mem_cons.mp hq with rfl | hq
    · exact hother hshard
    -- A key of `r` lies between `key` and a key of `q`, which would be of one shard.
    · obtain ⟨hrne, hrowned⟩ := h.owned r (List.mem_cons_self ..)
      obtain ⟨hqne, hqowned⟩ := h.owned q (List.mem_cons_of_mem _ hq)
      obtain ⟨b, hb⟩ := List.exists_mem_of_ne_nil _ hrne
      obtain ⟨c, hc⟩ := List.exists_mem_of_ne_nil _ hqne
      have hrest := h.whole
      rw [List.flatMap_cons] at hrest
      have hclater : c ∈ later.flatMap (·.keys) := List.mem_flatMap.mpr ⟨q, hq, hc⟩
      obtain ⟨hkey, hpairs⟩ := List.pairwise_cons.mp hascending
      have hab : key ≤ b := hkey b (by rw [← hrest]; exact List.mem_append_left _ hb)
      have hbc : b ≤ c := by
        rw [← hrest] at hpairs
        exact (List.pairwise_append.mp hpairs).2.2 b hb c hclater
      have hcowner := hqowned c hc
      rw [hshard] at hcowner
      have hbetween := owner_of_between howner hcowner hab hbc
      rw [hrowned b hb] at hbetween
      exact hother (Except.ok.inj hbetween)

theorem cut_of_runsFrom {start : Nat} {keys : List Key} (hascending : keys.Pairwise (· ≤ ·))
    {runs : List Run} (h : l.runsFrom start keys = .ok runs) : l.Cut start keys runs := by
  induction keys generalizing start runs with
  | nil =>
    cases h
    exact cut_nil l start
  | cons key rest ih =>
    rw [runsFrom] at h
    cases howner : l.owner key with
    | error why =>
      rw [howner] at h
      cases h
    | ok shard =>
      rw [howner] at h
      cases hruns : l.runsFrom (start + 1) rest with
      | error why =>
        rw [hruns] at h
        cases h
      | ok tail =>
        have htail := ih (List.pairwise_cons.mp hascending).2 hruns
        rw [hruns] at h
        cases tail with
        | nil =>
          cases h
          obtain rfl : rest = [] := htail.whole.symm
          exact cut_singleton howner
        | cons r later =>
          simp only [bind, Except.bind, pure, Except.pure] at h
          split at h
          case isTrue hshard =>
            rw [← Except.ok.inj h, ← hshard]
            exact htail.join (hshard ▸ howner)
          case isFalse hother =>
            rw [← Except.ok.inj h]
            exact htail.open hascending howner hother

theorem cut_of_runs {keys : List Key} {runs : List Run} (h : l.runs keys = .ok runs) :
    l.Cut 0 keys runs ∧ keys.Pairwise (· ≤ ·) := by
  unfold Layout.runs at h
  split at h
  case isTrue hascending =>
    have hpairs := (ascending_iff_pairwise keys).mp hascending
    refine ⟨cut_of_runsFrom hpairs ?_, hpairs⟩
    cases hruns : l.runsFrom 0 keys with
    | error why =>
      rw [hruns] at h
      cases h
    | ok runs =>
      rw [hruns] at h
      rw [Except.ok.inj h]
  case isFalse => cases h

/-- The first key of a batch that no shard owns. -/
def stray? (l : Layout) (keys : List Key) : Option Key :=
  keys.find? fun key => decide (¬l.Routes key)

theorem runsFrom_eq_ok {keys : List Key} (h : ∀ key ∈ keys, l.Routes key) (start : Nat) :
    ∃ runs, l.runsFrom start keys = .ok runs := by
  induction keys generalizing start with
  | nil => exact ⟨[], rfl⟩
  | cons key rest ih =>
    obtain ⟨shard, howner⟩ := routes_iff.mp (h key (List.mem_cons_self ..))
    obtain ⟨tail, htail⟩ := ih (fun key hkey => h key (List.mem_cons_of_mem _ hkey)) (start + 1)
    rw [runsFrom, howner, htail]
    cases tail with
    | nil => exact ⟨_, rfl⟩
    | cons r later =>
      by_cases hshard : r.shard = shard
      · exact ⟨_, by simp [bind, Except.bind, hshard]; rfl⟩
      · exact ⟨_, by simp [bind, Except.bind, hshard]; rfl⟩

theorem runsFrom_of_stray {front back : List Key} (hfront : ∀ key ∈ front, l.Routes key) {key : Key}
    (hkey : ¬l.Routes key) (start : Nat) :
    l.runsFrom start (front ++ key :: back) = .error (.keyOutOfRange key) := by
  induction front generalizing start with
  | nil =>
    rw [List.nil_append, runsFrom, owner_of_not_routes hkey]
    rfl
  | cons head rest ih =>
    obtain ⟨shard, howner⟩ := routes_iff.mp (hfront head (List.mem_cons_self ..))
    rw [List.cons_append, runsFrom, howner,
      ih (fun key hkey => hfront key (List.mem_cons_of_mem _ hkey))]
    rfl

theorem runs_eq_ok {keys : List Key} (hascending : keys.Pairwise (· ≤ ·))
    (h : ∀ key ∈ keys, l.Routes key) : ∃ runs, l.runs keys = .ok runs := by
  obtain ⟨runs, hruns⟩ := runsFrom_eq_ok h 0
  refine ⟨runs, ?_⟩
  rw [Layout.runs, if_pos ((ascending_iff_pairwise keys).mpr hascending), hruns]
  rfl

theorem runs_of_stray {keys : List Key} (hascending : keys.Pairwise (· ≤ ·)) {key : Key}
    (h : l.stray? keys = some key) : l.runs keys = .error (.error (.keyOutOfRange key)) := by
  obtain ⟨hkey, front, back, rfl, hfront⟩ := List.find?_eq_some_iff_append.mp h
  have hruns : l.runsFrom 0 (front ++ key :: back) = .error (.keyOutOfRange key) :=
    runsFrom_of_stray (fun key hkey => by simpa using hfront key hkey) (by simpa using hkey) 0
  rw [Layout.runs, if_pos ((ascending_iff_pairwise _).mpr hascending), hruns]
  rfl

theorem error_of_runs {keys : List Key} {why : Error} (h : l.runs keys = .error (.error why)) :
    ∃ key, why = .keyOutOfRange key := by
  by_cases hascending : keys.Pairwise (· ≤ ·)
  · cases hstray : l.stray? keys with
    | none =>
      have hroutes : ∀ key ∈ keys, l.Routes key := by
        simpa [stray?] using List.find?_eq_none.mp hstray
      obtain ⟨runs, hruns⟩ := runs_eq_ok hascending hroutes
      rw [hruns] at h
      cases h
    | some key =>
      rw [runs_of_stray hascending hstray] at h
      cases h
      exact ⟨key, rfl⟩
  · rw [Layout.runs, if_neg (mt (ascending_iff_pairwise keys).mp hascending)] at h
    cases h

theorem Cut.ascending {keys : List Key} {runs : List Run} {start : Nat}
    (h : l.Cut start keys runs) (hascending : keys.Pairwise (· ≤ ·)) {r : Run} (hr : r ∈ runs) :
    ascending r.keys = true := by
  rw [ascending_iff_pairwise]
  rw [← h.whole, List.pairwise_flatMap] at hascending
  exact hascending.1 r hr

theorem Cut.piece {start : Nat} {keys : List Key} {runs : List Run} (h : l.Cut start keys runs)
    {r : Run} (hr : r ∈ runs) :
    ∃ p ∈ l.pieces, p.shard = r.shard ∧ ∀ key ∈ r.keys, key ∈ p.range := by
  obtain ⟨hne, howned⟩ := h.owned r hr
  obtain ⟨first, hfirst⟩ := List.exists_mem_of_ne_nil _ hne
  obtain ⟨p, hp, hshard, -⟩ := owner_eq_ok_iff.mp (howned first hfirst)
  refine ⟨p, hp, hshard, ?_⟩
  intro key hkey
  obtain ⟨q, hq, hqshard, hqkey⟩ := owner_eq_ok_iff.mp (howned key hkey)
  obtain rfl := eq_of_shard_eq hp hq (hshard.trans hqshard.symm)
  exact hqkey

theorem Cut.mem_shards_iff {start : Nat} {keys : List Key} {runs : List Run}
    (h : l.Cut start keys runs) {shard : ThreadId} :
    shard ∈ runs.map (·.shard) ↔ ∃ key ∈ keys, l.owner key = .ok shard := by
  rw [List.mem_map, ← h.whole]
  constructor
  · rintro ⟨r, hr, rfl⟩
    obtain ⟨hne, howned⟩ := h.owned r hr
    obtain ⟨key, hkey⟩ := List.exists_mem_of_ne_nil _ hne
    exact ⟨key, List.mem_flatMap.mpr ⟨r, hr, hkey⟩, howned key hkey⟩
  · rintro ⟨key, hkey, howner⟩
    obtain ⟨r, hr, hkey⟩ := List.mem_flatMap.mp hkey
    rw [(h.owned r hr).2 key hkey] at howner
    exact ⟨r, hr, Except.ok.inj howner⟩

theorem Cut.stop_le {start : Nat} {keys : List Key} {runs : List Run} (h : l.Cut start keys runs)
    {r : Run} (hr : r ∈ runs) : r.stop ≤ start + keys.length := by
  obtain ⟨front, back, rfl⟩ := List.append_of_mem hr
  have hwhole := congrArg List.length h.whole
  simp only [List.flatMap_append, List.flatMap_cons, List.length_append] at hwhole
  rw [Run.stop, h.starts front r back rfl]
  omega

end ParamServer.Layout
