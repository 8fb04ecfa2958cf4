import ParamServer.Proofs.Roster

/-!
# The minimum over any calls

A roster keeps its minimum beside the clocks and brings it up to date in a way of its own in each
call: anew, at zero, or not at all. Over any calls it is the true one (`Roster.tells_of_calls`).
Between two resets the roster is closed, and then nothing that is called changes who is known or
brings the minimum down (`Roster.Holds`).
-/

namespace ParamServer.Roster

variable {r r' r'' : Roster}

def Knows (r : Roster) (worker : ThreadId) : Prop := ∃ clock, r.clockOf? worker = some clock

/-- The lowest clock of all, or zero where nobody is known. -/
def IsLowest (r : Roster) (low : Clock) : Prop :=
  (∀ worker clock, r.clockOf? worker = some clock → low ≤ clock) ∧
  ((∃ worker, r.clockOf? worker = some low) ∨ (∀ worker, ¬r.Knows worker) ∧ low = 0)

theorem Tight.isLowest (h : r.Tight) : r.IsLowest r.minClock := by
  refine ⟨fun _ _ hclock => h.minClock_le hclock, ?_⟩
  have hlow : r.minClock = r.clocks.values.min?.getD 0 := h
  cases hmin : r.clocks.values.min? with
  | none =>
    rw [hmin, Option.getD_none] at hlow
    rw [List.min?_eq_none_iff] at hmin
    refine Or.inr ⟨fun worker hknown => ?_, hlow⟩
    obtain ⟨clock, hclock⟩ := hknown
    have hmem : clock ∈ r.clocks.values := SortedMap.mem_values_iff.mpr ⟨worker, hclock⟩
    rw [hmin] at hmem
    cases hmem
  | some low =>
    rw [hmin, Option.getD_some] at hlow
    rw [hlow]
    exact Or.inl (SortedMap.mem_values_iff.mp (List.min?_eq_some_iff.mp hmin).1)

theorem exists_advance_iff {worker : ThreadId} {clock : Clock} :
    (∃ answer, r.advance worker clock = .ok answer) ↔
      (∃ current, r.clockOf? worker = some current ∧ current < clock) ∨
      (r.clockOf? worker = none ∧ r.closed = false ∧ 0 < clock) := by
  have hok : (∃ answer, r.advance worker clock = .ok answer) ↔
      r.check worker = .ok () ∧ (r.clockOf? worker).getD 0 < clock := by
    constructor
    · rintro ⟨⟨risen, r'⟩, h⟩
      rw [advance_eq_ok_iff] at h
      exact ⟨h.1, h.2.1⟩
    · rintro ⟨hcheck, hclock⟩
      exact ⟨(_, _), advance_eq_ok_iff.mpr ⟨hcheck, hclock, rfl, rfl⟩⟩
  rw [hok, check_eq_ok_iff]
  cases hknown : r.clockOf? worker with
  | some current => simp
  | none => simp

/-! ### Calls -/

inductive Call where
  | reset (workers : List ThreadId)
  | check (worker : ThreadId)
  | enrol (worker : ThreadId)
  | advance (worker : ThreadId) (clock : Clock)
  deriving DecidableEq, Repr

/-- The call is none of this worker's. -/
def Call.Spares : Call → ThreadId → Prop
  | .reset _, _ => False
  | .check _, _ => True
  | .enrol worker, other => other ≠ worker
  | .advance worker _, other => other ≠ worker

/-- What comes of a call, and the roster it leaves. -/
def call (r : Roster) : Call → Except Error (Option Clock) × Roster
  | .reset workers => (.ok none, r.reset workers)
  | .check worker => ((r.check worker).map fun _ => none, r)
  | .enrol worker =>
    match r.enrol worker with
    | .ok r' => (.ok none, r')
    | .error why => (.error why, r)
  | .advance worker clock =>
    match r.advance worker clock with
    | .ok (risen, r') => (.ok risen, r')
    | .error why => (.error why, r)

def run (r : Roster) (calls : List Call) : Roster := calls.foldl (fun r c => (r.call c).2) r

def after (calls : List Call) : Roster := empty.run calls

theorem run_append (r : Roster) (calls later : List Call) :
    r.run (calls ++ later) = (r.run calls).run later :=
  List.foldl_append

/-- **One call.** It closes the roster anew, takes a worker in, moves one ahead, or changes
nothing; and if it fails it changes nothing. -/
theorem call_cases (r : Roster) (c : Call) :
    (∃ workers, c = .reset workers ∧ r.call c = (.ok none, r.reset workers)) ∨
    (∃ worker r', c = .enrol worker ∧ r.enrol worker = .ok r' ∧ r.call c = (.ok none, r')) ∨
    (∃ worker clock risen r', c = .advance worker clock ∧
      r.advance worker clock = .ok (risen, r') ∧ r.call c = (.ok risen, r')) ∨
    (r.call c).2 = r := by
  cases c with
  | reset workers => exact Or.inl ⟨workers, rfl, rfl⟩
  | check worker => exact Or.inr (Or.inr (Or.inr rfl))
  | enrol worker =>
    cases henrol : r.enrol worker with
    | ok r' => exact Or.inr (Or.inl ⟨worker, r', rfl, henrol, by simp only [call, henrol]⟩)
    | error why => exact Or.inr (Or.inr (Or.inr (by simp only [call, henrol])))
  | advance worker clock =>
    cases hadvance : r.advance worker clock with
    | ok answer =>
      obtain ⟨risen, r'⟩ := answer
      exact Or.inr (Or.inr (Or.inl
        ⟨worker, clock, risen, r', rfl, hadvance, by simp only [call, hadvance]⟩))
    | error why => exact Or.inr (Or.inr (Or.inr (by simp only [call, hadvance])))

theorem call_of_error {c : Call} {why : Error} (h : (r.call c).1 = .error why) :
    (r.call c).2 = r := by
  rcases r.call_cases c with
    ⟨_, -, hcall⟩ | ⟨_, _, -, -, hcall⟩ | ⟨_, _, _, _, -, -, hcall⟩ | hsame
  · rw [hcall] at h
    cases h
  · rw [hcall] at h
    cases h
  · rw [hcall] at h
    cases h
  · exact hsame

theorem clockOf?_call {c : Call} {other : ThreadId} (h : c.Spares other) :
    (r.call c).2.clockOf? other = r.clockOf? other := by
  rcases r.call_cases c with
    ⟨_, rfl, -⟩ | ⟨worker, r', rfl, henrol, hcall⟩ | ⟨worker, clock, _, r', rfl, hadvance, hcall⟩ |
    hsame
  · exact h.elim
  · rw [hcall]
    rw [enrol_eq_ok_iff] at henrol
    rcases henrol with ⟨-, rfl⟩ | ⟨-, -, rfl⟩
    · rfl
    · have hrank : rank other ≠ rank worker := fun hrank => h (rank_inj hrank)
      rw [clockOf?, SortedMap.get?_insert, if_neg hrank, clockOf?]
  · rw [hcall, clockOf?_advance hadvance, if_neg h]
  · rw [hsame]

theorem Tight.call (h : r.Tight) (c : Call) : (r.call c).2.Tight := by
  rcases r.call_cases c with
    ⟨workers, -, hcall⟩ | ⟨_, _, -, henrol, hcall⟩ | ⟨_, _, _, _, -, hadvance, hcall⟩ | hsame
  · rw [hcall]
    exact r.tight_reset workers
  · rw [hcall]
    exact tight_enrol h henrol
  · rw [hcall]
    exact tight_advance hadvance
  · rw [hsame]
    exact h

theorem Tight.run (h : r.Tight) (calls : List Call) : (r.run calls).Tight := by
  induction calls generalizing r with
  | nil => exact h
  | cons c rest ih => exact ih (h.call c)

theorem tight_after (calls : List Call) : (after calls).Tight := tight_empty.run calls

/-! ### Between two resets -/

/-- A closed roster, and the same some calls later. -/
structure Holds (r r' : Roster) : Prop where
  closed : r'.closed = true
  knows : ∀ worker, r'.Knows worker ↔ r.Knows worker
  minClock : r.minClock ≤ r'.minClock

theorem holds_refl (h : r.closed = true) : r.Holds r := ⟨h, fun _ => Iff.rfl, UInt64.le_refl _⟩

theorem Holds.trans (h : r.Holds r') (h' : r'.Holds r'') : r.Holds r'' where
  closed := h'.closed
  knows worker := (h'.knows worker).trans (h.knows worker)
  minClock := UInt64.le_trans h.minClock h'.minClock

theorem holds_advance (ht : r.Tight) (hclosed : r.closed = true) {worker : ThreadId}
    {clock : Clock} {risen : Option Clock} (h : r.advance worker clock = .ok (risen, r')) :
    r.Holds r' := by
  obtain ⟨current, hcurrent⟩ := check_eq_ok_iff.mp (advance_eq_ok_iff.mp h).1 hclosed
  refine ⟨(closed_advance h).trans hclosed, fun other => ?_, minClock_le_advance ht hcurrent h⟩
  rw [Knows, clockOf?_advance h]
  by_cases heq : other = worker
  · rw [heq, if_pos rfl]
    exact ⟨fun _ => ⟨current, hcurrent⟩, fun _ => ⟨clock, rfl⟩⟩
  · rw [if_neg heq, Knows]

theorem holds_call (ht : r.Tight) (hclosed : r.closed = true) {c : Call}
    (h : ∀ workers, c ≠ .reset workers) : r.Holds (r.call c).2 := by
  rcases r.call_cases c with
    ⟨workers, hreset, -⟩ | ⟨_, _, -, henrol, hcall⟩ | ⟨_, _, _, _, -, hadvance, hcall⟩ | hsame
  · exact absurd hreset (h workers)
  · rw [hcall, enrol_of_closed hclosed henrol]
    exact holds_refl hclosed
  · rw [hcall]
    exact holds_advance ht hclosed hadvance
  · rw [hsame]
    exact holds_refl hclosed

theorem holds_run (ht : r.Tight) (hclosed : r.closed = true) {calls : List Call}
    (h : ∀ c ∈ calls, ∀ workers, c ≠ .reset workers) : r.Holds (r.run calls) := by
  induction calls generalizing r with
  | nil => exact holds_refl hclosed
  | cons c rest ih =>
    obtain ⟨hc, hrest⟩ := List.forall_mem_cons.mp h
    have hcall := holds_call ht hclosed hc
    exact hcall.trans (ih (ht.call c) hcall.closed hrest)

theorem knows_reset (r : Roster) (workers : List ThreadId) (worker : ThreadId) :
    (r.reset workers).Knows worker ↔ worker ∈ workers := by
  rw [Knows, clockOf?_reset]
  by_cases hmem : worker ∈ workers <;> simp [hmem]

theorem after_reset (before since : List Call) (workers : List ThreadId) :
    after (before ++ .reset workers :: since) = ((after before).reset workers).run since :=
  run_append ..

/-! ### All of it -/

/-- A roster whose answers are right: on the minimum, on who may move and what comes of it, and on
who is left alone. -/
structure Tells (r : Roster) : Prop where
  lowest : r.IsLowest r.minClock
  moves : ∀ worker clock, (∃ answer, r.advance worker clock = .ok answer) ↔
    (∃ current, r.clockOf? worker = some current ∧ current < clock) ∨
    (r.clockOf? worker = none ∧ r.closed = false ∧ 0 < clock)
  moved : ∀ worker clock risen r', r.advance worker clock = .ok (risen, r') →
    r'.clockOf? worker = some clock ∧ r'.IsLowest r'.minClock ∧
    ∀ low, risen = some low ↔ r.minClock < low ∧ low = r'.minClock
  refused : ∀ c why, (r.call c).1 = .error why → (r.call c).2 = r
  spared : ∀ c other, Call.Spares c other → (r.call c).2.clockOf? other = r.clockOf? other

theorem risen_eq_some_iff {worker : ThreadId} {clock low : Clock} {risen : Option Clock}
    (h : r.advance worker clock = .ok (risen, r')) :
    risen = some low ↔ r.minClock < low ∧ low = r'.minClock := by
  constructor
  · rintro rfl
    obtain ⟨rfl, hrisen⟩ := minClock_of_risen h
    exact ⟨hrisen, rfl⟩
  · rintro ⟨hrisen, rfl⟩
    obtain ⟨-, -, -, hanswer⟩ := advance_eq_ok_iff.mp h
    rw [hanswer, if_pos hrisen]

theorem Tight.tells (h : r.Tight) : r.Tells where
  lowest := h.isLowest
  moves _ _ := exists_advance_iff
  moved worker clock risen r' hadvance :=
    ⟨by rw [clockOf?_advance hadvance, if_pos rfl], (tight_advance hadvance).isLowest,
      fun _ => risen_eq_some_iff hadvance⟩
  refused _ _ := call_of_error
  spared _ _ := clockOf?_call

/-- **Any calls.** The minimum is right, and so is all that is said about a move. From one reset to
the next those are known whom the reset has named, and the minimum does not fall. -/
theorem tells_of_calls (calls : List Call) :
    (after calls).Tells ∧
    ∀ before workers since, calls = before ++ .reset workers :: since →
      (∀ c ∈ since, ∀ others, c ≠ .reset others) →
      (∀ worker, (after calls).Knows worker ↔ worker ∈ workers) ∧
      ∀ done rest, since = done ++ rest →
        (after (before ++ .reset workers :: done)).minClock ≤ (after calls).minClock := by
  refine ⟨(tight_after calls).tells, ?_⟩
  rintro before workers since rfl hsince
  have ht := (after before).tight_reset workers
  refine ⟨fun worker => ?_, ?_⟩
  · have hholds := holds_run ht rfl hsince
    rw [after_reset, hholds.knows, knows_reset]
  · rintro done rest rfl
    obtain ⟨hdone, hrest⟩ := List.forall_mem_append.mp hsince
    have hheld := holds_run ht rfl hdone
    rw [after_reset, after_reset, run_append]
    exact (holds_run (ht.run done) hheld.closed hrest).minClock

/-- A stranger brings the minimum down; behind a reset nobody does, and strangers stay out. -/
theorem tells_of_calls_shut :
    (after [.advance 4 3]).minClock = 3 ∧ (after [.advance 4 3, .enrol 5]).minClock = 0 ∧
    (∀ worker, (after ([.advance 4 3, .enrol 5] ++
      .reset [1, 2] :: [.advance 1 4, .advance 2 2, .advance 4 1])).Knows worker ↔
        worker ∈ ([1, 2] : List ThreadId)) ∧
    (after ([.advance 4 3, .enrol 5] ++
      .reset [1, 2] :: [.advance 1 4, .advance 2 2, .advance 4 1])).minClock = 2 := by
  have hsince : ∀ c ∈ ([.advance 1 4, .advance 2 2, .advance 4 1] : List Call),
      ∀ others, c ≠ .reset others := by simp
  obtain ⟨-, hresets⟩ := tells_of_calls ([.advance 4 3, .enrol 5] ++
    .reset [1, 2] :: [.advance 1 4, .advance 2 2, .advance 4 1])
  exact ⟨by decide, by decide, (hresets _ _ _ rfl hsince).1, by decide⟩

end ParamServer.Roster
