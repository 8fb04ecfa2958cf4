import ParamServer.Proofs.SortedMap
import ParamServer.Roster

/-!
# The slowest worker

The minimum that a roster keeps beside its clocks is the true one (`Tight`), whatever is done to
the roster. It falls only when a stranger turns up or the roster is closed anew, so in a closed
roster it never does.
-/

namespace ParamServer.Roster

theorem lowest_le {clocks : SortedMap ThreadId Clock} {worker : ThreadId} {clock : Clock}
    (h : clocks.get? worker = some clock) : lowest clocks ≤ clock := by
  have hmem : clock ∈ clocks.values := SortedMap.mem_values_iff.mpr ⟨worker, h⟩
  unfold lowest
  cases hmin : clocks.values.min? with
  | none =>
    rw [List.min?_eq_none_iff] at hmin
    rw [hmin] at hmem
    cases hmem
  | some low => exact (List.min?_eq_some_iff.mp hmin).2 clock hmem

theorem le_lowest {clocks : SortedMap ThreadId Clock} {bound : Clock}
    (hne : ∃ worker clock, clocks.get? worker = some clock)
    (h : ∀ worker clock, clocks.get? worker = some clock → bound ≤ clock) :
    bound ≤ lowest clocks := by
  unfold lowest
  cases hmin : clocks.values.min? with
  | none =>
    obtain ⟨worker, clock, hget⟩ := hne
    have hmem : clock ∈ clocks.values := SortedMap.mem_values_iff.mpr ⟨worker, hget⟩
    rw [List.min?_eq_none_iff] at hmin
    rw [hmin] at hmem
    cases hmem
  | some low =>
    have hmem : low ∈ clocks.values := (List.min?_eq_some_iff.mp hmin).1
    obtain ⟨worker, hget⟩ := SortedMap.mem_values_iff.mp hmem
    exact h worker low hget

/-- The minimum kept beside the clocks is the minimum of the clocks. -/
def Tight (r : Roster) : Prop := r.minClock = lowest r.clocks

theorem Tight.minClock_le {r : Roster} (h : r.Tight) {worker : ThreadId} {clock : Clock}
    (hget : r.clockOf? worker = some clock) : r.minClock ≤ clock := by
  rw [h]
  exact lowest_le hget

theorem tight_empty : empty.Tight := rfl

theorem clockOf?_reset (r : Roster) (workers : List ThreadId) (worker : ThreadId) :
    (r.reset workers).clockOf? worker = if worker ∈ workers then some 0 else none :=
  SortedMap.get?_ofList_const workers 0 worker

theorem tight_reset (r : Roster) (workers : List ThreadId) : (r.reset workers).Tight := by
  have hzero : ∀ clock ∈ (r.reset workers).clocks.values, clock = 0 := by
    intro clock hmem
    obtain ⟨worker, hget⟩ := SortedMap.mem_values_iff.mp hmem
    have hclock := r.clockOf?_reset workers worker
    rw [clockOf?, hget] at hclock
    split at hclock <;> simp_all
  unfold Tight lowest
  cases hmin : (r.reset workers).clocks.values.min? with
  | none => rfl
  | some low => exact (hzero low (List.min?_eq_some_iff.mp hmin).1).symm

/-! ### Taking a worker in -/

theorem check_eq_ok_iff {r : Roster} {worker : ThreadId} :
    r.check worker = .ok () ↔ (r.closed = true → ∃ clock, r.clockOf? worker = some clock) := by
  unfold check clockOf?
  rw [← SortedMap.contains_iff]
  cases r.closed <;> cases r.clocks.contains worker <;> simp

theorem enrol_of_known {r : Roster} {worker : ThreadId} {clock : Clock}
    (h : r.clockOf? worker = some clock) : r.enrol worker = .ok r := by
  have hcontains : r.clocks.contains worker = true := SortedMap.contains_iff.mpr ⟨clock, h⟩
  rw [enrol, if_pos hcontains]

theorem enrol_eq_ok_iff {r r' : Roster} {worker : ThreadId} :
    r.enrol worker = .ok r' ↔
      ((∃ clock, r.clockOf? worker = some clock) ∧ r' = r) ∨
      (r.clockOf? worker = none ∧ r.closed = false ∧
        r' = { r with clocks := r.clocks.insert worker 0, minClock := 0 }) := by
  cases hget : r.clockOf? worker with
  | some clock =>
    rw [enrol_of_known hget]
    constructor
    · intro h
      exact Or.inl ⟨⟨clock, rfl⟩, (Except.ok.inj h).symm⟩
    · rintro (⟨-, rfl⟩ | ⟨hnone, -⟩)
      · rfl
      · cases hnone
  | none =>
    have hcontains : r.clocks.contains worker = false := by
      simpa [SortedMap.contains, clockOf?] using hget
    rw [enrol, if_neg (by simp [hcontains]), check, hcontains]
    cases hclosed : r.closed with
    | true => simp [bind, Except.bind]
    | false =>
      constructor
      · intro h
        exact Or.inr ⟨rfl, rfl, (Except.ok.inj h).symm⟩
      · rintro (⟨⟨_, hsome⟩, -⟩ | ⟨-, -, rfl⟩)
        · cases hsome
        · rfl

theorem check_of_enrol {r r' : Roster} {worker : ThreadId} (h : r.enrol worker = .ok r') :
    r.check worker = .ok () := by
  rw [check_eq_ok_iff]
  rw [enrol_eq_ok_iff] at h
  rcases h with ⟨hknown, -⟩ | ⟨-, hopen, -⟩
  · exact fun _ => hknown
  · intro hclosed
    rw [hopen] at hclosed
    cases hclosed

theorem enrol_of_check {r : Roster} {worker : ThreadId} (h : r.check worker = .ok ()) :
    ∃ r', r.enrol worker = .ok r' := by
  cases hget : r.clockOf? worker with
  | some clock => exact ⟨r, enrol_of_known hget⟩
  | none =>
    refine ⟨_, enrol_eq_ok_iff.mpr (Or.inr ⟨hget, ?_, rfl⟩)⟩
    rw [← Bool.not_eq_true]
    intro hclosed
    obtain ⟨clock, hclock⟩ := check_eq_ok_iff.mp h hclosed
    rw [hget] at hclock
    cases hclock

/-- Taking a worker in turns nobody away. -/
theorem check_enrol {r r' : Roster} {worker other : ThreadId} (h : r.enrol worker = .ok r')
    (hother : r.check other = .ok ()) : r'.check other = .ok () := by
  rw [enrol_eq_ok_iff] at h
  rcases h with ⟨-, rfl⟩ | ⟨-, hopen, rfl⟩
  · exact hother
  · rw [check_eq_ok_iff]
    intro hclosed
    rw [hopen] at hclosed
    cases hclosed

theorem check_empty (worker : ThreadId) : empty.check worker = .ok () :=
  check_eq_ok_iff.mpr fun hclosed => by cases hclosed

theorem check_reset (r : Roster) {workers : List ThreadId} {worker : ThreadId}
    (h : worker ∈ workers) : (r.reset workers).check worker = .ok () :=
  check_eq_ok_iff.mpr fun _ => ⟨0, (clockOf?_reset r workers worker).trans (if_pos h)⟩

theorem enrol_of_closed {r r' : Roster} {worker : ThreadId} (hclosed : r.closed = true)
    (h : r.enrol worker = .ok r') : r' = r := by
  rw [enrol_eq_ok_iff] at h
  rcases h with ⟨-, rfl⟩ | ⟨-, hopen, -⟩
  · rfl
  · rw [hclosed] at hopen
    cases hopen

theorem minClock_enrol_le {r r' : Roster} {worker : ThreadId} (h : r.enrol worker = .ok r') :
    r'.minClock ≤ r.minClock := by
  rw [enrol_eq_ok_iff] at h
  rcases h with ⟨-, rfl⟩ | ⟨-, -, rfl⟩
  · exact UInt64.le_refl _
  · exact UInt64.zero_le

theorem tight_enrol {r r' : Roster} {worker : ThreadId} (ht : r.Tight)
    (h : r.enrol worker = .ok r') : r'.Tight := by
  rw [enrol_eq_ok_iff] at h
  rcases h with ⟨-, rfl⟩ | ⟨-, -, rfl⟩
  · exact ht
  · have hget : (r.clocks.insert worker 0).get? worker = some 0 := by simp
    exact UInt64.le_antisymm UInt64.zero_le (lowest_le hget)

/-! ### Moving a worker ahead -/

theorem advance_eq_ok_iff {r r' : Roster} {worker : ThreadId} {clock : Clock}
    {risen : Option Clock} :
    r.advance worker clock = .ok (risen, r') ↔
      r.check worker = .ok () ∧ (r.clockOf? worker).getD 0 < clock ∧
      r' = { r with
        clocks := r.clocks.insert worker clock
        minClock := lowest (r.clocks.insert worker clock) } ∧
      risen = if r.minClock < r'.minClock then some r'.minClock else none := by
  unfold advance clockOf?
  cases hget : r.clocks.get? worker with
  | some current =>
    have hcheck : r.check worker = .ok () := check_eq_ok_iff.mpr fun _ => ⟨current, hget⟩
    by_cases hclock : clock ≤ current
    · have hnot : ¬current < clock := UInt64.not_lt.mpr hclock
      simp [hclock, hnot, bind, Except.bind, pure, Except.pure, throw, throwThe,
        MonadExceptOf.throw]
    · have hlt : current < clock := UInt64.not_le.mp hclock
      simp only [hclock, hlt, hcheck, bind, Except.bind, pure, Except.pure, Option.getD_some,
        if_false, Except.ok.injEq, Prod.mk.injEq, true_and]
      constructor
      · rintro ⟨rfl, rfl⟩
        exact ⟨rfl, rfl⟩
      · rintro ⟨rfl, rfl⟩
        exact ⟨rfl, rfl⟩
  | none =>
    cases hcheck : r.check worker with
    | error why => simp [bind, Except.bind]
    | ok _ =>
      by_cases hclock : clock ≤ 0
      · have hnot : ¬(0 : Clock) < clock := UInt64.not_lt.mpr hclock
        simp [hclock, hnot, bind, Except.bind, pure, Except.pure, throw, throwThe,
          MonadExceptOf.throw]
      · have hlt : (0 : Clock) < clock := UInt64.not_le.mp hclock
        simp only [hclock, hlt, bind, Except.bind, pure, Except.pure, Option.getD_none,
          if_false, Except.ok.injEq, Prod.mk.injEq, true_and]
        constructor
        · rintro ⟨rfl, rfl⟩
          exact ⟨rfl, rfl⟩
        · rintro ⟨rfl, rfl⟩
          exact ⟨rfl, rfl⟩

variable {r r' : Roster} {worker : ThreadId} {clock : Clock} {risen : Option Clock}

theorem tight_advance (h : r.advance worker clock = .ok (risen, r')) : r'.Tight := by
  rw [advance_eq_ok_iff] at h
  obtain ⟨-, -, rfl, -⟩ := h
  rfl

theorem closed_advance (h : r.advance worker clock = .ok (risen, r')) : r'.closed = r.closed := by
  rw [advance_eq_ok_iff] at h
  obtain ⟨-, -, rfl, -⟩ := h
  rfl

theorem clockOf?_advance (h : r.advance worker clock = .ok (risen, r')) (other : ThreadId) :
    r'.clockOf? other = if other = worker then some clock else r.clockOf? other := by
  rw [advance_eq_ok_iff] at h
  obtain ⟨-, -, rfl, -⟩ := h
  rw [clockOf?, SortedMap.get?_insert]
  by_cases hother : other = worker
  · rw [hother, if_pos rfl, if_pos rfl]
  · rw [if_neg fun hrank => hother (rank_inj hrank), if_neg hother, clockOf?]

/-- Moving a worker ahead turns nobody away. -/
theorem check_advance {other : ThreadId} (h : r.advance worker clock = .ok (risen, r'))
    (hother : r.check other = .ok ()) : r'.check other = .ok () := by
  rw [check_eq_ok_iff] at hother ⊢
  intro hclosed
  rw [clockOf?_advance h]
  split
  · exact ⟨clock, rfl⟩
  · exact hother (closed_advance h ▸ hclosed)

/-- How far a worker has got, as far as the roster knows. -/
def reached (r : Roster) (worker : ThreadId) : Clock := (r.clockOf? worker).getD 0

theorem reached_reset (r : Roster) (workers : List ThreadId) (worker : ThreadId) :
    (r.reset workers).reached worker = 0 := by
  rw [reached, clockOf?_reset]
  split <;> rfl

theorem reached_enrol (h : r.enrol worker = .ok r') (other : ThreadId) :
    r'.reached other = r.reached other := by
  rw [enrol_eq_ok_iff] at h
  rcases h with ⟨-, rfl⟩ | ⟨hnone, -, rfl⟩
  · rfl
  · rw [reached, clockOf?, SortedMap.get?_insert]
    split
    case isTrue hrank =>
      rw [reached, rank_inj hrank, hnone]
      rfl
    case isFalse => rfl

theorem reached_advance (h : r.advance worker clock = .ok (risen, r')) (other : ThreadId) :
    r'.reached other = if other = worker then clock else r.reached other := by
  rw [reached, clockOf?_advance h]
  split <;> rfl

theorem clockOf?_of_reached (h : 0 < r.reached worker) :
    r.clockOf? worker = some (r.reached worker) := by
  unfold reached at h ⊢
  cases hclock : r.clockOf? worker with
  | none =>
    rw [hclock] at h
    exact absurd h (UInt64.lt_irrefl 0)
  | some clock => rfl

theorem minClock_of_risen {low : Clock} (h : r.advance worker clock = .ok (some low, r')) :
    low = r'.minClock ∧ r.minClock < r'.minClock := by
  rw [advance_eq_ok_iff] at h
  obtain ⟨-, -, -, hrisen⟩ := h
  split at hrisen
  · exact ⟨Option.some.inj hrisen, by assumption⟩
  · cases hrisen

theorem minClock_le_of_not_risen (h : r.advance worker clock = .ok (none, r')) :
    r'.minClock ≤ r.minClock := by
  rw [advance_eq_ok_iff] at h
  obtain ⟨-, -, -, hrisen⟩ := h
  split at hrisen
  · cases hrisen
  · exact UInt64.not_lt.mp (by assumption)

/-- As long as it is known who moves, the minimum does not fall. -/
theorem minClock_le_advance (ht : r.Tight) {current : Clock}
    (hcurrent : r.clockOf? worker = some current) (h : r.advance worker clock = .ok (risen, r')) :
    r.minClock ≤ r'.minClock := by
  have hclocks := clockOf?_advance h
  rw [advance_eq_ok_iff] at h
  obtain ⟨-, hclock, rfl, -⟩ := h
  rw [hcurrent, Option.getD_some] at hclock
  refine le_lowest ⟨worker, clock, by simp⟩ ?_
  intro other c hget
  have hother := hclocks other
  rw [clockOf?, hget] at hother
  split at hother
  · obtain rfl := Option.some.inj hother
    exact UInt64.le_trans (ht.minClock_le hcurrent) (UInt64.le_of_lt hclock)
  · exact ht.minClock_le hother.symm

end ParamServer.Roster
