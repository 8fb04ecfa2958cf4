import Mathlib.Data.List.TakeWhile
import ParamServer.Proofs.Layout

/-!
# Cutting by halving

The pieces of a layout ascend, and so do the keys of a batch. Hence the piece of a key and the end
of its run can each be found by halving (`splitPoint`), and a batch can be cut in rounds of two
searches. A round takes one key at least, so there are never more rounds than keys, and they come
to the runs that going through the batch key by key comes to (`sweep_eq_runsFrom`).
-/

namespace ParamServer

section SplitPoint

variable {α : Type} {p : α → Bool} {xs : List α}

/-- As far as a list holds of `p`, found by halving: the answer is between `lo` and `hi`. -/
def splitBetween (p : α → Bool) (xs : List α) (lo hi : Nat) (hhi : hi ≤ xs.length) : Nat :=
  if hlt : lo < hi then
    let mid := lo + (hi - lo) / 2
    have hmid : mid < xs.length := by omega
    if p xs[mid] then splitBetween p xs (mid + 1) hi hhi
    else splitBetween p xs lo mid (Nat.le_of_lt hmid)
  else lo
termination_by hi - lo

def splitPoint (p : α → Bool) (xs : List α) : Nat := splitBetween p xs 0 xs.length (Nat.le_refl _)

theorem le_splitBetween {lo hi : Nat} (hhi : hi ≤ xs.length) :
    lo ≤ splitBetween p xs lo hi hhi := by
  fun_induction splitBetween p xs lo hi hhi with
  | case1 lo hi hhi hlt mid hmid hp ih => omega
  | case2 lo hi hhi hlt mid hmid hp ih => exact ih
  | case3 lo hi hhi hlt => exact Nat.le_refl lo

/-- Halving looks at the first element before it answers that there is nothing in front. -/
theorem splitBetween_pos {lo hi : Nat} (hhi : hi ≤ xs.length) (hlt : lo < hi)
    (hfirst : ∀ x ∈ xs.head?, p x = true) : 0 < splitBetween p xs lo hi hhi := by
  fun_induction splitBetween p xs lo hi hhi with
  | case1 lo hi hhi _ mid hmid hp ih =>
    exact Nat.lt_of_lt_of_le (Nat.succ_pos mid) (le_splitBetween hhi)
  | case2 lo hi hhi _ mid hmid hp ih =>
    by_cases hlo : lo < mid
    · exact ih hlo
    · have hzero : 0 < mid := by
        refine Nat.pos_of_ne_zero fun hzero => hp (hfirst _ ?_)
        rw [List.head?_eq_getElem?, ← hzero]
        exact List.getElem?_eq_getElem hmid
      exact Nat.lt_of_lt_of_le (by omega) (le_splitBetween _)
  | case3 lo hi hhi hnot => exact absurd hlt hnot

/-- If the list goes over from `p` to not `p` once, it is there that halving ends. -/
theorem splitBetween_eq {n lo hi : Nat} (hhi : hi ≤ xs.length)
    (hfront : ∀ i (hi : i < xs.length), i < n → p xs[i] = true)
    (hback : ∀ i (hi : i < xs.length), n ≤ i → p xs[i] = false) (hlo : lo ≤ n) (hn : n ≤ hi) :
    splitBetween p xs lo hi hhi = n := by
  fun_induction splitBetween p xs lo hi hhi with
  | case1 lo hi hhi hlt mid hmid hp ih =>
    refine ih (Nat.lt_of_not_le fun hle => ?_) hn
    rw [hback mid hmid hle] at hp
    cases hp
  | case2 lo hi hhi hlt mid hmid hp ih =>
    exact ih hlo (Nat.le_of_not_lt fun hless => hp (hfront mid hmid hless))
  | case3 lo hi hhi hnot => omega

theorem splitPoint_append {front back : List α} (hfront : ∀ x ∈ front, p x = true)
    (hback : ∀ x ∈ back, p x = false) : splitPoint p (front ++ back) = front.length := by
  refine splitBetween_eq _ (fun i hi hlt => ?_) (fun i hi hle => ?_) (Nat.zero_le _) (by simp)
  · rw [List.getElem_append_left hlt]
    exact hfront _ (List.getElem_mem hlt)
  · rw [List.getElem_append_right hle]
    exact hback _ (List.getElem_mem _)

/-- Once `p` has failed it does not hold again. -/
theorem false_of_mem_dropWhile (h : xs.Pairwise fun a b => p b = true → p a = true) {x : α}
    (hx : x ∈ xs.dropWhile p) : p x = false := by
  induction xs with
  | nil => cases hx
  | cons a rest ih =>
    obtain ⟨hhead, hrest⟩ := List.pairwise_cons.mp h
    by_cases ha : p a = true
    · rw [List.dropWhile_cons_of_pos ha] at hx
      exact ih hrest hx
    · rw [List.dropWhile_cons_of_neg ha] at hx
      rcases List.mem_cons.mp hx with rfl | hx
      · exact Bool.eq_false_iff.mpr ha
      · exact Bool.eq_false_iff.mpr fun hp => ha (hhead x hx hp)

theorem exists_splitPoint (h : xs.Pairwise fun a b => p b = true → p a = true) :
    ∃ front back, xs = front ++ back ∧ splitPoint p xs = front.length ∧
      (∀ x ∈ front, p x = true) ∧ ∀ x ∈ back, p x = false := by
  have hfront : ∀ x ∈ xs.takeWhile p, p x = true := fun x => List.mem_takeWhile_imp
  have hback : ∀ x ∈ xs.dropWhile p, p x = false := fun x => false_of_mem_dropWhile h
  have hsplit := splitPoint_append hfront hback
  rw [List.takeWhile_append_dropWhile] at hsplit
  exact ⟨_, _, List.takeWhile_append_dropWhile.symm, hsplit, hfront, hback⟩

theorem splitPoint_pos {x : α} {rest : List α} (hx : p x = true) :
    0 < splitPoint p (x :: rest) := by
  refine splitBetween_pos _ (Nat.succ_pos _) fun y hy => ?_
  obtain rfl := Option.some.inj hy
  exact hx

end SplitPoint

namespace Layout

/-- The piece of a key, found by halving the pieces. -/
def probe (l : Layout) (key : Key) : Except Error Piece :=
  match l.pieces[splitPoint (fun p => decide (p.range.hi ≤ key)) l.pieces]? with
  | some p => if key ∈ p.range then .ok p else .error (.keyOutOfRange key)
  | none => .error (.keyOutOfRange key)

theorem mem_of_probe {l : Layout} {key : Key} {p : Piece} (h : l.probe key = .ok p) :
    key ∈ p.range := by
  unfold probe at h
  split at h
  · split at h
    · next hkey =>
      obtain rfl := Except.ok.inj h
      exact hkey
    · cases h
  · cases h

/-- Cuts a batch in rounds: finds the piece of the first key, then, in what is left of the batch,
how far its range reaches. -/
def sweep (l : Layout) (start : Nat) : List Key → Except Error (List Run)
  | [] => .ok []
  | key :: rest =>
    match hprobe : l.probe key with
    | .error why => .error why
    | .ok p =>
      let n := splitPoint (fun k => decide (k < p.range.hi)) (key :: rest)
      have : 0 < n := splitPoint_pos (decide_eq_true (mem_of_probe hprobe).2)
      (l.sweep (start + n) ((key :: rest).drop n)).map
        (⟨p.shard, start, (key :: rest).take n⟩ :: ·)
termination_by keys => keys.length
decreasing_by
  rw [List.length_drop, List.length_cons]
  omega

variable {l : Layout}

/-- What ends at or below a key does so before anything that ends above it. -/
theorem probe_eq_locate (l : Layout) (key : Key) : l.probe key = l.locate key := by
  have hordered : l.pieces.Pairwise fun a b =>
      decide (b.range.hi ≤ key) = true → decide (a.range.hi ≤ key) = true := by
    refine l.wellFormed.ordered.imp_of_mem fun {a b} _ hb hab hkey => ?_
    have hinhabited := l.wellFormed.inhabited b hb
    rw [decide_eq_true_eq] at hkey ⊢
    exact UInt64.le_trans hab (UInt64.le_trans (UInt64.le_of_lt hinhabited) hkey)
  obtain ⟨front, back, hpieces, hpoint, hfront, hback⟩ := exists_splitPoint hordered
  have hnone : front.find? (fun p => decide (key < p.range.hi)) = none := by
    refine List.find?_eq_none.mpr fun p hp => ?_
    simpa [UInt64.not_lt] using hfront p hp
  have hfind : l.pieces[front.length]? = l.pieces.find? (key < ·.range.hi) := by
    rw [hpieces, List.getElem?_append_right (Nat.le_refl _), List.find?_append, hnone,
      Nat.sub_self]
    cases back with
    | nil => rfl
    | cons p rest =>
      have hp : key < p.range.hi := by simpa [UInt64.not_le] using hback p List.mem_cons_self
      rw [List.find?_cons_of_pos (by simpa using hp)]
      rfl
  cases hfound : l.pieces.find? (key < ·.range.hi) with
  | none => simp only [probe, locate, hpoint, hfind, hfound]
  | some p => simp only [probe, locate, hpoint, hfind, hfound]

/-! ### Round by round and key by key -/

theorem shard_of_runsFrom {start : Nat} {key : Key} {rest : List Key} {r : Run} {later : List Run}
    (h : l.runsFrom start (key :: rest) = .ok (r :: later)) : l.owner key = .ok r.shard := by
  rw [runsFrom] at h
  cases howner : l.owner key with
  | error why =>
    rw [howner] at h
    cases h
  | ok shard =>
    rw [howner] at h
    cases hruns : l.runsFrom (start + 1) rest with
    | error why =>
      rw [hruns] at h
      cases h
    | ok tail =>
      rw [hruns] at h
      cases tail with
      | nil =>
        cases h
        rfl
      | cons q more =>
        simp only [bind, Except.bind, pure, Except.pure] at h
        split at h <;> · cases h; rfl

/-- Keys of one shard with a key of another behind them, if any, are one run. -/
theorem runsFrom_append {front back : List Key} {shard : ThreadId} (hne : front ≠ [])
    (hfront : ∀ key ∈ front, l.owner key = .ok shard)
    (hback : ∀ key ∈ back.head?, l.owner key ≠ .ok shard) (start : Nat) :
    l.runsFrom start (front ++ back) =
      (l.runsFrom (start + front.length) back).map (⟨shard, start, front⟩ :: ·) := by
  induction front generalizing start with
  | nil => exact absurd rfl hne
  | cons key rest ih =>
    obtain ⟨howner, hrest⟩ := List.forall_mem_cons.mp hfront
    rw [List.cons_append, runsFrom, howner]
    cases rest with
    | nil =>
      cases hruns : l.runsFrom (start + 1) back with
      | error why => simp only [List.nil_append, hruns]; rfl
      | ok later =>
        cases later with
        | nil => simp only [List.nil_append, hruns]; rfl
        | cons r later =>
          cases back with
          | nil => cases hruns
          | cons next back =>
            have hother : r.shard ≠ shard := by
              rintro rfl
              exact hback next rfl (shard_of_runsFrom hruns)
            simp only [List.nil_append, hruns, bind, Except.bind, if_neg hother]
            rfl
    | cons next rest =>
      have hlength : start + 1 + (next :: rest).length = start + (key :: next :: rest).length := by
        simp only [List.length_cons]
        omega
      rw [ih (List.cons_ne_nil _ _) hrest, hlength]
      cases l.runsFrom (start + (key :: next :: rest).length) back with
      | error why => rfl
      | ok later =>
        simp only [Except.map, bind, Except.bind, ↓reduceIte]
        rfl

/-- **Two ways to cut.** -/
theorem sweep_eq_runsFrom {keys : List Key} (hascending : keys.Pairwise (· ≤ ·)) (start : Nat) :
    l.sweep start keys = l.runsFrom start keys := by
  fun_induction sweep l start keys with
  | case1 start => rfl
  | case2 start key rest why hprobe =>
    rw [probe_eq_locate] at hprobe
    rw [runsFrom, owner, hprobe]
    rfl
  | case3 start key rest p hprobe n _ ih =>
    have hlocate : l.locate key = .ok p := by rw [← probe_eq_locate, hprobe]
    obtain ⟨hp, hkey⟩ := mem_of_locate hlocate
    have hordered : (key :: rest).Pairwise fun a b =>
        decide (b < p.range.hi) = true → decide (a < p.range.hi) = true := by
      refine hascending.imp fun {a b} hab hb => ?_
      rw [decide_eq_true_eq] at hb ⊢
      exact UInt64.lt_of_le_of_lt hab hb
    obtain ⟨front, back, hkeys, hpoint, hfront, hback⟩ := exists_splitPoint hordered
    have hne : front ≠ [] := by
      rintro rfl
      rw [List.nil_append] at hkeys
      have hfalse := hback key (hkeys ▸ List.mem_cons_self)
      exact absurd hkey.2 (of_decide_eq_false hfalse)
    have hfloor : ∀ k ∈ key :: rest, key ≤ k := fun k hk =>
      (List.mem_cons.mp hk).elim (fun heq => heq ▸ UInt64.le_refl _)
        ((List.pairwise_cons.mp hascending).1 k)
    have hown : ∀ k ∈ front, l.owner k = .ok p.shard := fun k hk =>
      owner_eq_ok_iff.mpr ⟨p, hp, rfl,
        UInt64.le_trans hkey.1 (hfloor k (hkeys ▸ List.mem_append_left _ hk)),
        of_decide_eq_true (hfront k hk)⟩
    have hother : ∀ k ∈ back.head?, l.owner k ≠ .ok p.shard := by
      intro k hk howner
      obtain ⟨q, hq, hshard, hqkey⟩ := owner_eq_ok_iff.mp howner
      obtain rfl := eq_of_shard_eq hq hp hshard
      exact of_decide_eq_false (hback k (List.mem_of_head? hk)) hqkey.2
    have hn : n = front.length := hpoint
    rw [hkeys] at hascending ih ⊢
    rw [hn, List.drop_left] at ih
    rw [hn, List.take_left, List.drop_left, ih (List.pairwise_append.mp hascending).2.1,
      runsFrom_append hne hown hother]

end Layout

end ParamServer
