import ParamServer.Proofs.Lists
import ParamServer.Proofs.SortedMap
import ParamServer.Waitlist

/-!
# The order of what waits

A waitlist is read as one list, `entries`, ordered by clock and by arrival within a clock. Each
operation is a cut, an insertion or a filter of that list, so nothing that waits is lost, doubled or
moved to another clock on the way. Everything else in the library argues about `entries` alone.
-/

namespace ParamServer.Waitlist

theorem rank_lt_iff {a b : Clock} : rank a < rank b ↔ a < b := UInt64.lt_iff_toNat_lt.symm

theorem rank_le_iff {a b : Clock} : rank a ≤ rank b ↔ a ≤ b := UInt64.le_iff_toNat_le.symm

@[simp]
theorem entries_empty : empty.entries = [] := rfl

/-- Buckets one after the other, each message with the clock of its bucket. -/
def unfolded (buckets : List (Clock × List Message)) : List (Clock × Message) :=
  buckets.flatMap fun e => e.2.map (e.1, ·)

theorem entries_eq_unfolded (w : Waitlist) : w.entries = unfolded w.buckets.entries := rfl

theorem entries_sorted (w : Waitlist) : w.entries.Pairwise fun a b => a.1 ≤ b.1 := by
  unfold entries
  rw [List.pairwise_flatMap]
  constructor
  · intro e _
    rw [List.pairwise_map]
    exact List.pairwise_of_forall fun _ _ => UInt64.le_refl _
  · refine w.buckets.sorted.imp ?_
    intro a b hab x hx y hy
    obtain ⟨_, _, rfl⟩ := List.mem_map.mp hx
    obtain ⟨_, _, rfl⟩ := List.mem_map.mp hy
    exact UInt64.le_of_lt (rank_lt_iff.mp hab)

/-- What waits for one clock stands together, and a change of it leaves all else in place. -/
theorem exists_split_unfolded (w : Waitlist) (clock : Clock)
    (f : Option (List Message) → Option (List Message)) :
    ∃ before behind,
      w.entries = before ++ (((w.buckets.get? clock).getD []).map (clock, ·) ++ behind) ∧
      unfolded (w.buckets.alter clock f).entries =
        before ++ (((f (w.buckets.get? clock)).getD []).map (clock, ·) ++ behind) ∧
      (∀ e ∈ before, e.1 < clock) ∧ ∀ e ∈ behind, clock < e.1 := by
  obtain ⟨before, behind, hold, hnew, hbefore, hbehind⟩ := w.buckets.exists_split_alter clock f
  have hbucket : ∀ waiting : Option (List Message),
      unfolded (waiting.toList.map (clock, ·)) = (waiting.getD []).map (clock, ·) := by
    intro waiting
    cases waiting <;> simp [unfolded]
  have happend : ∀ l l', unfolded (l ++ l') = unfolded l ++ unfolded l' := fun l l' =>
    List.flatMap_append
  refine ⟨unfolded before, unfolded behind, ?_, ?_, ?_, ?_⟩
  · rw [entries_eq_unfolded, hold, happend, happend, hbucket]
  · rw [hnew, happend, happend, hbucket]
  · intro e he
    obtain ⟨b, hb, he⟩ := List.mem_flatMap.mp he
    obtain ⟨_, _, rfl⟩ := List.mem_map.mp he
    exact rank_lt_iff.mp (hbefore b hb)
  · intro e he
    obtain ⟨b, hb, he⟩ := List.mem_flatMap.mp he
    obtain ⟨_, _, rfl⟩ := List.mem_map.mp he
    exact rank_lt_iff.mp (hbehind b hb)

/-- **Parking.** A message goes behind all that waits for its clock or an earlier one. -/
theorem exists_split_park (w : Waitlist) (clock : Clock) (m : Message) :
    ∃ before behind,
      w.entries = before ++ behind ∧ (w.park clock m).entries = before ++ (clock, m) :: behind ∧
      (∀ e ∈ before, e.1 ≤ clock) ∧ ∀ e ∈ behind, clock < e.1 := by
  obtain ⟨before, behind, hold, hnew, hbefore, hbehind⟩ :=
    w.exists_split_unfolded clock fun waiting => some (waiting.getD [] ++ [m])
  let waiting := (w.buckets.get? clock).getD []
  refine ⟨before ++ waiting.map (clock, ·), behind, ?_, ?_, ?_, hbehind⟩
  · rw [hold, List.append_assoc]
  · rw [entries_eq_unfolded]
    refine hnew.trans ?_
    simp [waiting]
  · intro e he
    rcases List.mem_append.mp he with he | he
    · exact UInt64.le_of_lt (hbefore e he)
    · obtain ⟨_, _, rfl⟩ := List.mem_map.mp he
      exact UInt64.le_refl _

theorem entries_park_perm (w : Waitlist) (clock : Clock) (m : Message) :
    (w.park clock m).entries.Perm ((clock, m) :: w.entries) := by
  obtain ⟨before, behind, hold, hnew, -, -⟩ := w.exists_split_park clock m
  rw [hold, hnew]
  exact List.perm_middle

theorem entries_park (w : Waitlist) (clock : Clock) (m : Message) :
    (w.park clock m).entries = (w.entries.filter fun e => decide (e.1 ≤ clock)) ++
      (clock, m) :: w.entries.filter fun e => !decide (e.1 ≤ clock) := by
  obtain ⟨before, behind, hold, hnew, hbefore, hbehind⟩ := w.exists_split_park clock m
  have hlate : ∀ e ∈ behind, decide (e.1 ≤ clock) = false := fun e he =>
    decide_eq_false (UInt64.not_le.mpr (hbehind e he))
  have hearly : ∀ e ∈ before, (!decide (e.1 ≤ clock)) = false := fun e he => by simp [hbefore e he]
  obtain ⟨hnone, hall⟩ := filter_of_forall_false hlate
  obtain ⟨hnone', hall'⟩ := filter_of_forall_false hearly
  simp only [Bool.not_not] at hall'
  rw [hnew, hold, List.filter_append, List.filter_append, hnone, hall, hnone', hall',
    List.append_nil, List.nil_append]

theorem size_eq_length (w : Waitlist) : w.size = w.entries.length := by
  simp [size, messages, entries, SortedMap.values, List.length_flatten, List.length_flatMap,
    Function.comp_def]

/-! ### Letting go by clock -/

theorem unfolded_filter (p : Clock → Bool) (l : List (Clock × List Message)) :
    unfolded (l.filter fun e => p e.1) = (unfolded l).filter fun e => p e.1 := by
  unfold unfolded
  induction l with
  | nil => rfl
  | cons head rest ih =>
    rw [List.flatMap_cons, List.filter_append, ← ih]
    by_cases hp : p head.1 = true
    · simp [hp, List.filter_eq_self.mpr]
    · simp [hp, List.filter_map, Function.comp_def]

theorem map_snd_unfolded (l : List (Clock × List Message)) :
    (unfolded l).map (·.2) = (l.map (·.2)).flatten := by
  simp [unfolded, List.map_flatMap, List.flatten_eq_flatMap, List.flatMap_map, Function.comp_def]

theorem splitAt_next {clock : Clock} (h : clock.toNat + 1 < UInt64.size)
    (buckets : SortedMap Clock (List Message)) :
    buckets.splitAt (clock + 1) =
      (buckets.filter fun c => decide (c ≤ clock), buckets.filter fun c => decide (clock < c)) := by
  have hnext : rank (clock + 1) = rank clock + 1 := by
    refine (UInt64.toNat_add clock 1).trans ?_
    exact Nat.mod_eq_of_lt h
  have hdue : ∀ c : Clock, rank c < rank (clock + 1) ↔ c ≤ clock := fun c => by
    rw [← rank_le_iff, hnext, Nat.lt_succ_iff]
  have hlater : ∀ c : Clock, rank (clock + 1) ≤ rank c ↔ clock < c := fun c => by
    rw [← rank_lt_iff, hnext, Nat.succ_le_iff]
  simp only [SortedMap.splitAt, hdue, hlater]

/-- Behind the last clock there is nothing. -/
theorem filter_of_last {clock : Clock} (h : ¬clock.toNat + 1 < UInt64.size)
    (buckets : SortedMap Clock (List Message)) :
    (buckets.filter fun c => decide (c ≤ clock)) = buckets ∧
      (buckets.filter fun c => decide (clock < c)) = .empty := by
  have hle : ∀ c : Clock, c ≤ clock := fun c => by
    have := c.toNat_lt_size
    rw [UInt64.le_iff_toNat_le]
    omega
  refine ⟨SortedMap.ext_entries ?_, SortedMap.ext_entries ?_⟩
  · exact List.filter_eq_self.mpr fun e _ => decide_eq_true (hle e.1)
  · exact List.filter_eq_nil_iff.mpr fun e _ => by simpa using hle e.1

theorem takeThrough_eq (w : Waitlist) (clock : Clock) :
    w.takeThrough clock = ((w.buckets.filter fun c => decide (c ≤ clock)).values.flatten,
      ⟨w.buckets.filter fun c => decide (clock < c)⟩) := by
  by_cases h : clock.toNat + 1 < UInt64.size
  · simp only [takeThrough, if_pos h, splitAt_next h]
  · obtain ⟨hdue, hlater⟩ := filter_of_last h w.buckets
    simp only [takeThrough, if_neg h, hdue, hlater]

theorem takeThrough_fst (w : Waitlist) (clock : Clock) :
    (w.takeThrough clock).1 = (w.entries.filter fun e => decide (e.1 ≤ clock)).map (·.2) := by
  rw [takeThrough_eq, entries_eq_unfolded, ← unfolded_filter fun c => decide (c ≤ clock),
    map_snd_unfolded]
  rfl

theorem takeThrough_snd (w : Waitlist) (clock : Clock) :
    (w.takeThrough clock).2.entries = w.entries.filter fun e => decide (clock < e.1) := by
  rw [takeThrough_eq]
  exact unfolded_filter (fun c => decide (clock < c)) w.buckets.entries

theorem mem_of_takeThrough {w : Waitlist} {clock : Clock} {m : Message}
    (h : m ∈ (w.takeThrough clock).1) : ∃ due, (due, m) ∈ w.entries := by
  rw [takeThrough_fst] at h
  obtain ⟨e, he, rfl⟩ := List.mem_map.mp h
  exact ⟨e.1, (List.mem_filter.mp he).1⟩

/-! ### Letting go by message -/

/-- The elements whose verdict is yes. -/
def chosen {α : Type} (l : List α) (verdicts : List Bool) : List α :=
  ((l.zip verdicts).filter (·.2)).map (·.1)

/-- The elements whose verdict is no. -/
def spared {α : Type} (l : List α) (verdicts : List Bool) : List α :=
  ((l.zip verdicts).filter (!·.2)).map (·.1)

section Verdicts

variable {α β σ : Type} {verdicts verdicts' : List Bool}

theorem chosen_cons (a : α) (l : List α) (verdict : Bool) :
    chosen (a :: l) (verdict :: verdicts) =
      if verdict then a :: chosen l verdicts else chosen l verdicts := by
  cases verdict <;> rfl

theorem spared_cons (a : α) (l : List α) (verdict : Bool) :
    spared (a :: l) (verdict :: verdicts) =
      if verdict then spared l verdicts else a :: spared l verdicts := by
  cases verdict <;> rfl

theorem chosen_append {l l' : List α} (h : l.length = verdicts.length) :
    chosen (l ++ l') (verdicts ++ verdicts') = chosen l verdicts ++ chosen l' verdicts' := by
  rw [chosen, List.zip_append h, List.filter_append, List.map_append, chosen, chosen]

theorem spared_append {l l' : List α} (h : l.length = verdicts.length) :
    spared (l ++ l') (verdicts ++ verdicts') = spared l verdicts ++ spared l' verdicts' := by
  rw [spared, List.zip_append h, List.filter_append, List.map_append, spared, spared]

theorem chosen_map (f : α → β) (l : List α) :
    chosen (l.map f) verdicts = (chosen l verdicts).map f := by
  simp [chosen, List.zip_map_left, List.filter_map, Function.comp_def]

theorem spared_map (f : α → β) (l : List α) :
    spared (l.map f) verdicts = (spared l verdicts).map f := by
  simp [spared, List.zip_map_left, List.filter_map, Function.comp_def]

theorem chosen_of_map (p : α → Bool) (l : List α) : chosen l (l.map p) = l.filter p := by
  induction l with
  | nil => rfl
  | cons a rest ih => rw [List.map_cons, chosen_cons, ih, List.filter_cons]

theorem spared_of_map (p : α → Bool) (l : List α) :
    spared l (l.map p) = l.filter fun a => !p a := by
  induction l with
  | nil => rfl
  | cons a rest ih =>
    rw [List.map_cons, spared_cons, ih, List.filter_cons]
    cases p a <;> rfl

theorem chosen_append_spared_perm {l : List α} (h : l.length = verdicts.length) :
    (chosen l verdicts ++ spared l verdicts).Perm l := by
  rw [chosen, spared, ← List.map_append]
  have hfront : (l.zip verdicts).map (·.1) = l := List.map_fst_zip (Nat.le_of_eq h)
  exact (List.Perm.map _ (List.filter_append_perm ..)).trans (List.Perm.of_eq hfront)

/-! #### Asking in turn -/

/-- What `p` says to one element after the other, and the state it has come to. -/
def ask (p : α → StateM σ Bool) (l : List α) (s : σ) : List Bool × σ := (l.mapM p).run s

theorem ask_cons (p : α → StateM σ Bool) (a : α) (l : List α) (s : σ) :
    ask p (a :: l) s =
      let first := (p a).run s
      (first.1 :: (ask p l first.2).1, (ask p l first.2).2) := by
  rw [ask, List.mapM_cons]
  rfl

theorem ask_append (p : α → StateM σ Bool) (l l' : List α) (s : σ) :
    ask p (l ++ l') s =
      ((ask p l s).1 ++ (ask p l' (ask p l s).2).1, (ask p l' (ask p l s).2).2) := by
  rw [ask, List.mapM_append]
  rfl

theorem ask_map (p : β → StateM σ Bool) (f : α → β) (l : List α) (s : σ) :
    ask p (l.map f) s = ask (fun a => p (f a)) l s := by
  rw [ask, List.mapM_map]
  rfl

theorem length_ask (p : α → StateM σ Bool) (l : List α) (s : σ) :
    (ask p l s).1.length = l.length := by
  induction l generalizing s with
  | nil => rfl
  | cons a rest ih => rw [ask_cons, List.length_cons, List.length_cons, ih]

theorem ask_pure (p : α → Bool) (l : List α) (s : σ) :
    ask (fun a => pure (p a)) l s = (l.map p, s) := by
  induction l with
  | nil => rfl
  | cons a rest ih =>
    rw [ask_cons]
    exact congrArg (fun r => (p a :: r.1, r.2)) ih

theorem pick_run (p : α → StateM σ Bool) (l : List α) (s : σ) :
    (pick p l).run s = ((chosen l (ask p l s).1, spared l (ask p l s).1), (ask p l s).2) := by
  induction l generalizing s with
  | nil => rfl
  | cons a rest ih =>
    let first := (p a).run s
    let later := (pick p rest).run first.2
    have hpick : (pick p (a :: rest)).run s =
        (if first.1 then (a :: later.1.1, later.1.2) else (later.1.1, a :: later.1.2),
          later.2) := rfl
    have hlater : later = _ := ih first.2
    rw [hpick, hlater, ask_cons, chosen_cons, spared_cons]
    cases first.1 <;> rfl

theorem pickEach_cons_run {p : α → StateM σ Bool} {bucket : List α} {rest others : List (List α)}
    {taken : List α} {s s' : σ}
    (h : (pickEach p rest).run (ask p bucket s).2 = ((taken, others), s')) :
    (pickEach p (bucket :: rest)).run s =
      ((chosen bucket (ask p bucket s).1 ++ taken, spared bucket (ask p bucket s).1 :: others),
        s') := by
  have hcons : (pickEach p (bucket :: rest)).run s =
      let first := (pick p bucket).run s
      let later := (pickEach p rest).run first.2
      ((first.1.1 ++ later.1.1, first.1.2 :: later.1.2), later.2) := rfl
  simp only [hcons, pick_run, h]

end Verdicts

/-- Asking in one bucket after the other is asking once through the whole list. -/
theorem exists_pickEach_run {σ : Type} (p : Message → StateM σ Bool)
    (l : List (Clock × List Message)) (s : σ) :
    let asked := ask (fun e : Clock × Message => p e.2) (unfolded l) s
    ∃ kept, (pickEach p (l.map (·.2))).run s =
        (((chosen (unfolded l) asked.1).map (·.2), kept), asked.2) ∧
      unfolded ((l.map (·.1)).zip kept) = spared (unfolded l) asked.1 := by
  induction l generalizing s with
  | nil => exact ⟨[], rfl, rfl⟩
  | cons bucket rest ih =>
    obtain ⟨clock, waiting⟩ := bucket
    let now := ask p waiting s
    obtain ⟨kept, hlater, hkept⟩ := ih now.2
    have hhere : ask (fun e : Clock × Message => p e.2) (waiting.map (clock, ·)) s = now :=
      ask_map ..
    have hlength : (waiting.map (clock, ·)).length = now.1.length := by
      rw [List.length_map, length_ask]
    have hunfold : unfolded ((clock, waiting) :: rest) =
        waiting.map (clock, ·) ++ unfolded rest := rfl
    have hchosen : ((chosen waiting now.1).map (clock, ·)).map (·.2) = chosen waiting now.1 := by
      rw [List.map_map]
      exact List.map_id _
    refine ⟨spared waiting now.1 :: kept, ?_, ?_⟩
    · rw [hunfold, ask_append, hhere, chosen_append hlength, chosen_map, List.map_append, hchosen]
      exact pickEach_cons_run hlater
    · rw [hunfold, ask_append, hhere, spared_append hlength, spared_map, ← hkept]
      rfl

theorem unfolded_filterMap (buckets : SortedMap Clock (List Message)) :
    unfolded (buckets.filterMap fun _ waiting =>
      if waiting.isEmpty then none else some waiting).entries = unfolded buckets.entries := by
  simp only [SortedMap.filterMap]
  induction buckets.entries with
  | nil => rfl
  | cons bucket rest ih =>
    obtain ⟨clock, waiting⟩ := bucket
    cases waiting with
    | nil => exact ih
    | cons m later => exact congrArg (((m :: later).map (clock, ·)) ++ ·) ih

/-- **Taking by message.** The choice is made once for each entry, in order. -/
theorem takeWhereM_run {σ : Type} (w : Waitlist) (p : Message → StateM σ Bool) (s : σ) :
    let asked := ask (fun e : Clock × Message => p e.2) w.entries s
    ∃ rest, (w.takeWhereM p).run s = (((chosen w.entries asked.1).map (·.2), rest), asked.2) ∧
      rest.entries = spared w.entries asked.1 := by
  obtain ⟨kept, hpick, hkept⟩ := exists_pickEach_run p w.buckets.entries s
  let picked := (pickEach p w.buckets.values).run s
  let left (kept : List (List Message)) : Waitlist :=
    ⟨(w.buckets.withValues kept).filterMap fun _ waiting =>
      if waiting.isEmpty then none else some waiting⟩
  have htake : (w.takeWhereM p).run s = ((picked.1.1, left picked.1.2), picked.2) := rfl
  have hpicked : picked = _ := hpick
  refine ⟨left kept, ?_, ?_⟩
  · rw [htake, hpicked]
    rfl
  · rw [entries_eq_unfolded, unfolded_filterMap]
    exact hkept

theorem takeWhere_cases (w : Waitlist) (p : Message → Bool) :
    (w.takeWhere p).1 = (w.entries.filter fun e => p e.2).map (·.2) ∧
      (w.takeWhere p).2.entries = w.entries.filter fun e => !p e.2 := by
  obtain ⟨rest, hrun, hrest⟩ := w.takeWhereM_run (fun m => (pure (p m) : StateM Unit Bool)) ()
  rw [ask_pure fun e : Clock × Message => p e.2] at hrun hrest
  have htake : w.takeWhere p = _ := congrArg (·.1) hrun
  rw [htake]
  exact ⟨by rw [chosen_of_map], hrest.trans (spared_of_map ..)⟩

theorem takeWhere_fst (w : Waitlist) (p : Message → Bool) :
    (w.takeWhere p).1 = (w.entries.filter fun e => p e.2).map (·.2) :=
  (w.takeWhere_cases p).1

theorem mem_of_takeWhere {w : Waitlist} {p : Message → Bool} {m : Message}
    (h : m ∈ (w.takeWhere p).1) : ∃ due, (due, m) ∈ w.entries := by
  rw [takeWhere_fst] at h
  obtain ⟨e, he, rfl⟩ := List.mem_map.mp h
  exact ⟨e.1, (List.mem_filter.mp he).1⟩

theorem takeWhere_snd (w : Waitlist) (p : Message → Bool) :
    (w.takeWhere p).2.entries = w.entries.filter fun e => !p e.2 :=
  (w.takeWhere_cases p).2

end ParamServer.Waitlist
