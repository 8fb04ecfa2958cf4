import ParamServer.Proofs.Waitlist

/-!
# A queue ordered by clocks

Whatever is called on a waitlist, its entries are one list, ordered by clock and by arrival within a
clock, and each call does to that list what it says (`Waitlist.Queues`). No bucket is ever left
empty, which is what lets `isEmpty` look at the buckets alone. Over a whole run, what was parked has
been handed out once or still waits where it was put (`Waitlist.queues_of_run`).
-/

namespace ParamServer.Waitlist

variable {w : Waitlist}

/-! ### One clock -/

theorem exists_split_takeAt (w : Waitlist) (clock : Clock) :
    ∃ before behind,
      w.entries = before ++ ((w.takeAt clock).1.map (clock, ·) ++ behind) ∧
      (w.takeAt clock).2.entries = before ++ behind ∧
      (∀ e ∈ before, e.1 < clock) ∧ ∀ e ∈ behind, clock < e.1 :=
  w.exists_split_unfolded clock fun _ => none

theorem filter_takeAt (w : Waitlist) (clock : Clock) :
    (w.entries.filter fun e => decide (e.1 = clock)) = (w.takeAt clock).1.map (clock, ·) ∧
      (w.entries.filter fun e => !decide (e.1 = clock)) = (w.takeAt clock).2.entries := by
  obtain ⟨before, behind, hold, hnew, hbefore, hbehind⟩ := w.exists_split_takeAt clock
  have hearly : ∀ e ∈ before, decide (e.1 = clock) = false := fun e he =>
    decide_eq_false (UInt64.ne_of_lt (hbefore e he))
  have hlate : ∀ e ∈ behind, decide (e.1 = clock) = false := fun e he =>
    decide_eq_false (UInt64.ne_of_lt (hbehind e he)).symm
  have hhere : ∀ e ∈ (w.takeAt clock).1.map (clock, ·), decide (e.1 = clock) = true := by
    intro e he
    obtain ⟨m, -, rfl⟩ := List.mem_map.mp he
    exact decide_eq_true rfl
  rw [hold, hnew]
  exact filter_of_split hearly hhere hlate

theorem takeAt_fst (w : Waitlist) (clock : Clock) :
    (w.takeAt clock).1 = (w.entries.filter fun e => decide (e.1 = clock)).map (·.2) := by
  rw [(w.filter_takeAt clock).1, List.map_map]
  exact (List.map_id _).symm

theorem countAt_eq_countP (w : Waitlist) (clock : Clock) :
    w.countAt clock = w.entries.countP fun e => decide (e.1 = clock) := by
  rw [List.countP_eq_length_filter, (w.filter_takeAt clock).1, List.length_map]
  rfl

/-! ### Buckets -/

/-- Where there is a bucket, something waits. -/
def Filled (w : Waitlist) : Prop := ∀ bucket ∈ w.buckets.entries, bucket.2 ≠ []

theorem filled_empty : empty.Filled := fun _ h => by cases h

theorem Filled.alter (h : w.Filled) {clock : Clock}
    {f : Option (List Message) → Option (List Message)}
    (hf : f (w.buckets.get? clock) ≠ some []) : Filled ⟨w.buckets.alter clock f⟩ := by
  obtain ⟨before, behind, hold, hnew, -⟩ := w.buckets.exists_split_alter clock f
  unfold Filled at h ⊢
  rw [hold] at h
  intro bucket hbucket
  rw [hnew] at hbucket
  rcases List.mem_append.mp hbucket with hbefore | hbucket
  · exact h bucket (List.mem_append_left _ hbefore)
  rcases List.mem_append.mp hbucket with hhere | hbehind
  · obtain ⟨waiting, hwaiting, rfl⟩ := List.mem_map.mp hhere
    rintro rfl
    exact hf (Option.mem_toList.mp hwaiting)
  · exact h bucket (List.mem_append_right _ (List.mem_append_right _ hbehind))

theorem Filled.takeThrough (h : w.Filled) (clock : Clock) : (w.takeThrough clock).2.Filled := by
  rw [takeThrough_eq]
  exact fun bucket hbucket => h bucket (List.mem_filter.mp hbucket).1

theorem filled_takeWhereM {σ : Type} (w : Waitlist) (p : Message → StateM σ Bool) (s : σ) :
    ((w.takeWhereM p).run s).1.2.Filled := by
  intro bucket hbucket
  obtain ⟨⟨clock, waiting⟩, -, hkept⟩ := List.mem_filterMap.mp hbucket
  cases waiting with
  | nil => cases hkept
  | cons m rest =>
    obtain rfl := Option.some.inj hkept
    exact List.cons_ne_nil m rest

theorem Filled.isEmpty_iff (h : w.Filled) : w.isEmpty = true ↔ w.size = 0 := by
  rw [size_eq_length, List.length_eq_zero_iff, entries_eq_unfolded, isEmpty, SortedMap.isEmpty,
    List.isEmpty_iff]
  constructor
  · intro hnone
    rw [hnone]
    rfl
  · intro hnone
    rw [List.eq_nil_iff_forall_not_mem]
    intro bucket hbucket
    obtain ⟨m, hm⟩ := List.exists_mem_of_ne_nil _ (h bucket hbucket)
    have hmem : (bucket.1, m) ∈ unfolded w.buckets.entries :=
      List.mem_flatMap.mpr ⟨bucket, hbucket, List.mem_map_of_mem hm⟩
    rw [hnone] at hmem
    cases hmem

/-! ### Calls -/

/-- A choice comes with the state it begins in. -/
inductive Call : Type 1 where
  | park (clock : Clock) (m : Message)
  | takeAt (clock : Clock)
  | takeThrough (clock : Clock)
  | takeWhere {σ : Type} (p : Message → StateM σ Bool) (s : σ)

/-- What a call puts in, under the clock it shall wait for. -/
def Call.parked : Call → List (Clock × Message)
  | .park clock m => [(clock, m)]
  | _ => []

/-- What a call hands out, and what it leaves. -/
def call (w : Waitlist) : Call → List Message × Waitlist
  | .park clock m => ([], w.park clock m)
  | .takeAt clock => w.takeAt clock
  | .takeThrough clock => w.takeThrough clock
  | .takeWhere p s => ((w.takeWhereM p).run s).1

/-- What one call after the other hands out, and what they leave. -/
def run (w : Waitlist) : List Call → List Message × Waitlist
  | [] => ([], w)
  | c :: rest =>
    let (out, w) := w.call c
    let (later, w) := run w rest
    (out ++ later, w)

theorem Filled.call (h : w.Filled) (c : Call) : (w.call c).2.Filled := by
  cases c with
  | park clock m => exact h.alter fun hnil => absurd (Option.some.inj hnil) (by simp)
  | takeAt clock => exact h.alter fun hnil => by cases hnil
  | takeThrough clock => exact h.takeThrough clock
  | takeWhere p s => exact w.filled_takeWhereM p s

theorem Filled.run (h : w.Filled) (calls : List Call) : (w.run calls).2.Filled := by
  induction calls generalizing w with
  | nil => exact h
  | cons c rest ih => exact ih (h.call c)

/-- A call hands out what leaves the list, and nothing else leaves it. -/
theorem exists_released_call (w : Waitlist) (c : Call) :
    ∃ released : List (Clock × Message), (w.call c).1 = released.map (·.2) ∧
      (c.parked ++ w.entries).Perm (released ++ (w.call c).2.entries) := by
  cases c with
  | park clock m => exact ⟨[], rfl, (w.entries_park_perm clock m).symm⟩
  | takeAt clock =>
    refine ⟨_, w.takeAt_fst clock, ?_⟩
    rw [call, ← (w.filter_takeAt clock).2]
    exact (List.filter_append_perm ..).symm
  | takeThrough clock =>
    refine ⟨_, w.takeThrough_fst clock, ?_⟩
    have hlater : (w.entries.filter fun e => decide (clock < e.1)) =
        w.entries.filter fun e => !decide (e.1 ≤ clock) :=
      List.filter_congr fun e _ => by
        rw [← decide_not]
        exact decide_eq_decide.mpr UInt64.not_le.symm
    rw [call, takeThrough_snd, hlater]
    exact (List.filter_append_perm ..).symm
  | takeWhere p s =>
    obtain ⟨rest, hrun, hrest⟩ := w.takeWhereM_run p s
    refine ⟨_, congrArg (·.1.1) hrun, ?_⟩
    rw [call, hrun, hrest]
    exact (chosen_append_spared_perm (length_ask ..).symm).symm

theorem exists_released_run (w : Waitlist) (calls : List Call) :
    ∃ released : List (Clock × Message), (w.run calls).1 = released.map (·.2) ∧
      (calls.flatMap Call.parked ++ w.entries).Perm (released ++ (w.run calls).2.entries) := by
  induction calls generalizing w with
  | nil => exact ⟨[], rfl, List.Perm.refl _⟩
  | cons c rest ih =>
    obtain ⟨now, hnow, hcall⟩ := w.exists_released_call c
    obtain ⟨later, hlater, hrest⟩ := ih (w.call c).2
    refine ⟨now ++ later, ?_, ?_⟩
    · rw [List.map_append, ← hnow, ← hlater]
      rfl
    · let put := rest.flatMap Call.parked
      let left := (w.call c).2.entries
      let last := (w.run (c :: rest)).2.entries
      have hcomm : ∀ a b d : List (Clock × Message), (a ++ (b ++ d)).Perm (b ++ (a ++ d)) :=
        List.perm_append_comm_assoc
      calc (c.parked ++ put) ++ w.entries
        _ = c.parked ++ (put ++ w.entries) := List.append_assoc ..
        _ |>.Perm (put ++ (c.parked ++ w.entries)) := hcomm ..
        _ |>.Perm (put ++ (now ++ left)) := List.Perm.append_left _ hcall
        _ |>.Perm (now ++ (put ++ left)) := hcomm ..
        _ |>.Perm (now ++ (later ++ last)) := List.Perm.append_left _ hrest
        _ = (now ++ later) ++ last := (List.append_assoc ..).symm

/-- A waitlist that is one list to whoever calls it: what each call does to the list, and what can
be asked about it. -/
structure Queues (w : Waitlist) : Prop where
  ordered : w.entries.Pairwise fun a b => a.1 ≤ b.1
  park : ∀ clock m, ∃ before behind,
    w.entries = before ++ behind ∧ (w.park clock m).entries = before ++ (clock, m) :: behind ∧
    (∀ e ∈ before, e.1 ≤ clock) ∧ ∀ e ∈ behind, clock < e.1
  takeAt : ∀ clock,
    (w.takeAt clock).1 = (w.entries.filter fun e => decide (e.1 = clock)).map (·.2) ∧
    (w.takeAt clock).2.entries = w.entries.filter fun e => !decide (e.1 = clock)
  takeThrough : ∀ clock,
    (w.takeThrough clock).1 = (w.entries.filter fun e => decide (e.1 ≤ clock)).map (·.2) ∧
    (w.takeThrough clock).2.entries = w.entries.filter fun e => decide (clock < e.1)
  /-- The choice is made once for each entry, in the order of the list. -/
  takeWhere : ∀ {σ : Type} (p : Message → StateM σ Bool) (s : σ),
    let asked := ask (fun e : Clock × Message => p e.2) w.entries s
    ∃ rest, (w.takeWhereM p).run s = (((chosen w.entries asked.1).map (·.2), rest), asked.2) ∧
      rest.entries = spared w.entries asked.1
  filled : w.Filled
  isEmpty_iff : w.isEmpty = true ↔ w.size = 0
  size : w.size = w.entries.length
  countAt : ∀ clock, w.countAt clock = w.entries.countP fun e => decide (e.1 = clock)

theorem Filled.queues (h : w.Filled) : w.Queues where
  ordered := w.entries_sorted
  park := w.exists_split_park
  takeAt clock := ⟨w.takeAt_fst clock, (w.filter_takeAt clock).2.symm⟩
  takeThrough clock := ⟨w.takeThrough_fst clock, w.takeThrough_snd clock⟩
  takeWhere := w.takeWhereM_run
  filled := h
  isEmpty_iff := h.isEmpty_iff
  size := w.size_eq_length
  countAt := w.countAt_eq_countP

/-- **Any calls.** They leave a queue ordered by clocks, and all that was parked has been handed out
once or still waits under its clock. -/
theorem queues_of_run (calls : List Call) :
    (empty.run calls).2.Queues ∧
      ∃ released : List (Clock × Message), (empty.run calls).1 = released.map (·.2) ∧
        (calls.flatMap Call.parked).Perm (released ++ (empty.run calls).2.entries) := by
  obtain ⟨released, hout, hperm⟩ := empty.exists_released_run calls
  rw [entries_empty, List.append_nil] at hperm
  exact ⟨(filled_empty.run calls).queues, released, hout, hperm⟩

end ParamServer.Waitlist
