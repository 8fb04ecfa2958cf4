import ParamServer.Proofs.Tablet.Move

/-!
# What no message can break

A tablet that was put together for a specification stays sound, keeps its range and its rule, and
never holds back what its own rule would let go ahead (`Serves`). The last is the delicate part: the
minimum can fall and a write can make a key busier, and both only ever close the gate, so a gate can
open at no other moment than when the minimum rises.
-/

namespace ParamServer

namespace Gate

/-- A gate is the one that a specification asks for, whatever has been written meanwhile. -/
def Follows (spec : TableSpec) (g : Gate) : Prop :=
  match spec.model with
  | .asp => g = .open
  | .bsp => g = .barrier
  | .ssp => g = .bounded spec.staleness
  | .sparseSsp => ∃ log, g = .speculative spec.staleness spec.speculation log

theorem follows_ofSpec {spec : TableSpec} {range : Interval} {g : Gate}
    (h : ofSpec spec range = .ok g) : g.Follows spec ∧ g.Covers range := by
  unfold ofSpec at h
  unfold Follows
  cases hmodel : spec.model <;> simp only [hmodel] at h ⊢
  case sparseSsp =>
    cases hrecorder : spec.recorder with
    | none =>
      rw [hrecorder] at h
      cases h
    | some backing =>
      simp only [hrecorder] at h
      cases hlog : WriteLog.new backing range with
      | error why =>
        rw [hlog] at h
        cases h
      | ok log =>
        rw [hlog] at h
        cases h
        exact ⟨⟨log, rfl⟩, WriteLog.covers_new hlog⟩
  all_goals
    cases h
    exact ⟨rfl, trivial⟩

theorem follows_note {spec : TableSpec} {g : Gate} (h : g.Follows spec) (m : Message) :
    (g.note m).Follows spec := by
  unfold Follows at h ⊢
  cases hmodel : spec.model <;> simp only [hmodel] at h ⊢
  case sparseSsp =>
    obtain ⟨log, rfl⟩ := h
    rw [note]
    split
    · exact ⟨_, rfl⟩
    · exact ⟨_, rfl⟩
  all_goals
    rw [h]
    rfl

theorem follows_forget {spec : TableSpec} {g : Gate} (h : g.Follows spec) (low : Clock) :
    (g.forget low).Follows spec := by
  unfold Follows at h ⊢
  cases hmodel : spec.model <;> simp only [hmodel] at h ⊢
  case sparseSsp =>
    obtain ⟨log, rfl⟩ := h
    exact ⟨_, rfl⟩
  all_goals
    rw [h]
    rfl

theorem eq_barrier_of_follows {spec : TableSpec} {g : Gate} (h : g.Follows spec)
    (hmodel : spec.model = .bsp) : g = .barrier := by
  unfold Follows at h
  rwa [hmodel] at h

theorem eq_open_of_follows {spec : TableSpec} {g : Gate} (h : g.Follows spec)
    (hmodel : spec.model = .asp) : g = .open := by
  unfold Follows at h
  rwa [hmodel] at h

theorem eq_open_iff {g : Gate} : g = .open ↔ g.model = .asp := by
  cases g <;> simp [model]

theorem eq_barrier_iff {g : Gate} : g = .barrier ↔ g.model = .bsp := by
  cases g <;> simp [model]

@[simp]
theorem model_note (g : Gate) (m : Message) : (g.note m).model = g.model := by
  cases g with
  | speculative staleness threshold log =>
    rw [note]
    split <;> rfl
  | _ => rfl

@[simp]
theorem model_forget (g : Gate) (low : Clock) : (g.forget low).model = g.model := by
  cases g <;> rfl

theorem passes_mono {g : Gate} {low high : Clock} (hle : low ≤ high) {m : Message}
    (h : g.passes low m = true) : g.passes high m = true := by
  unfold passes at h ⊢
  rw [Bool.or_eq_true, decide_eq_true_eq] at h ⊢
  exact h.imp_left fun hdue => UInt64.le_trans hdue hle

theorem passes_of_note {g : Gate} {range : Interval} (hcovers : g.Covers range) {m : Message}
    (hreads : m.ReadsIn range) {low : Clock} {read : Message}
    (h : (g.note m).passes low read = true) : g.passes low read = true := by
  unfold passes at h ⊢
  rw [Bool.or_eq_true, due_note] at h
  rw [Bool.or_eq_true]
  exact h.imp_right ((note_of_covers hcovers hreads).2 read)

end Gate

namespace Tablet

variable {τ : ScalarType}

/-- A tablet as its specification wants it. -/
structure Serves (spec : TableSpec) (range : Interval) (t : Tablet τ) : Prop extends Sound t where
  range_eq : t.slice.range = range
  follows : t.gate.Follows spec
  tight : t.slice.roster.Tight
  shut : t.Shut

theorem validate_of_new {spec : TableSpec} {table : TableId} {shard : ThreadId} {range : Interval}
    {t : Tablet τ} (h : Tablet.new τ spec table shard range = .ok t) : spec.validate = .ok () := by
  unfold Tablet.new at h
  cases hvalid : spec.validate with
  | error why =>
    rw [hvalid] at h
    cases h
  | ok _ => rfl

theorem eq_of_new {spec : TableSpec} {table : TableId} {shard : ThreadId} {range : Interval}
    {t : Tablet τ} (h : Tablet.new τ spec table shard range = .ok t) :
    ∃ store gate, Store.new τ spec.storage range = .ok store ∧ Gate.ofSpec spec range = .ok gate ∧
      t = ⟨.new table shard range store, gate⟩ := by
  unfold Tablet.new assemble at h
  cases hvalid : spec.validate with
  | error why =>
    rw [hvalid] at h
    cases h
  | ok _ =>
    rw [hvalid] at h
    cases hstore : Store.new τ spec.storage range with
    | error why =>
      rw [hstore] at h
      cases h
    | ok store =>
      rw [hstore] at h
      cases hgate : Gate.ofSpec spec range with
      | error why =>
        rw [hgate] at h
        cases h
      | ok gate =>
        rw [hgate] at h
        exact ⟨store, gate, rfl, rfl, (Except.ok.inj h).symm⟩

theorem eq_of_new_speculative {spec : TableSpec} (hmodel : spec.model = .sparseSsp)
    {table : TableId} {shard : ThreadId} {range : Interval} {t : Tablet τ}
    (h : Tablet.new τ spec table shard range = .ok t) :
    ∃ backing store log, spec.recorder = some backing ∧ Store.new τ spec.storage range = .ok store ∧
      WriteLog.new backing range = .ok log ∧
      t = ⟨.new table shard range store, .speculative spec.staleness spec.speculation log⟩ := by
  obtain ⟨store, gate, hstore, hgate, rfl⟩ := eq_of_new h
  simp only [Gate.ofSpec, hmodel] at hgate
  cases hrecorder : spec.recorder with
  | none =>
    rw [hrecorder] at hgate
    cases hgate
  | some backing =>
    cases hlog : WriteLog.new backing range with
    | error why =>
      simp only [hrecorder, hlog] at hgate
      cases hgate
    | ok log =>
      simp only [hrecorder, hlog] at hgate
      exact ⟨backing, store, log, rfl, hstore, hlog, by rw [← Except.ok.inj hgate]⟩

theorem serves_new {spec : TableSpec} {table : TableId} {shard : ThreadId} {range : Interval}
    {t : Tablet τ} (h : Tablet.new τ spec table shard range = .ok t) : t.Serves spec range := by
  obtain ⟨store, gate, hstore, hgate, rfl⟩ := eq_of_new h
  obtain ⟨hfollows, hcovers⟩ := Gate.follows_ofSpec hgate
  exact {
    store := Store.covers_new hstore
    gate := hcovers
    parked := by simp [Slice.new]
    range_eq := rfl
    follows := hfollows
    tight := Roster.tight_empty
    shut := by simp [Shut, Slice.new] }

/-! ### One step -/

section Step

variable {t t' : Tablet τ} {m : Message} {replies : List Message}

theorem Parked.mono {e : Clock × Message} (h : t.Parked e) (hrange : t'.slice.range = t.slice.range)
    (hdue : t'.gate.due = t.gate.due) (hmodel : t'.gate.model = t.gate.model) : t'.Parked e where
  due := by rw [hdue]; exact h.due
  gated := by
    rw [Ne, Gate.eq_open_iff, hmodel, ← Gate.eq_open_iff]
    exact h.gated
  fit := by
    rw [hrange, Gate.eq_barrier_iff, hmodel, ← Gate.eq_barrier_iff]
    exact h.fit

theorem sound_of_move (hs : t.Sound) (h : t.Move m replies t') : t'.Sound := by
  cases h with
  | @apply roster store hop hadds henrol hgate hstore =>
    exact {
      store := (Store.addAll_ok hs.store hadds.inside_updates hstore).1
      gate := (Gate.note_of_covers hs.gate hadds.toReadsIn).1
      parked := fun e he => (hs.parked e he).mono rfl (by simp) (by simp) }
  | @park roster hop hadds henrol hgate hlate =>
    refine ⟨hs.store, hs.gate, ?_⟩
    intro e he
    rcases List.mem_cons.mp ((Waitlist.entries_park_perm ..).mem_iff.mp he) with rfl | he
    · exact {
        due := by simp [hgate, Gate.due]
        gated := by simp [hgate]
        fit := Or.inr ⟨hop, hgate, hadds⟩ }
    · exact (hs.parked e he).mono rfl rfl rfl
  | @answer roster hop hreads henrol hpasses => exact hs.moved roster
  | @wait roster hop hreads henrol hpasses =>
    refine ⟨hs.store, hs.gate, ?_⟩
    intro e he
    rcases List.mem_cons.mp ((Waitlist.entries_park_perm ..).mem_iff.mp he) with rfl | he
    · refine ⟨rfl, ?_, Or.inl ⟨hop, hreads⟩⟩
      intro hgate
      have hdue : t.gate.due m.clock ≤ roster.minClock := by
        rw [show t.gate = .open from hgate]
        exact UInt64.zero_le
      simp [Gate.passes, hdue] at hpasses
    · exact (hs.parked e he).mono rfl rfl rfl
  | @tick roster hop hadvance => exact hs.moved roster
  | @release roster low _ _ hop hadvance hrelease =>
    obtain ⟨⟨store, waiting, rfl⟩, hkept, hadded, -⟩ := hrelease
    refine ⟨?_, Gate.covers_forget hs.gate low, ?_⟩
    · exact (Store.addAll_ok hs.store (inside_freed (hs.moved roster) low) hadded).1
    · intro e he
      rw [hkept] at he
      exact (hs.parked e (List.mem_filter.mp he).1).mono rfl (by simp) (by simp)
  | close hop hkeys hworkers => exact hs.moved _

/-- **A gate opens only when the minimum rises**, and what that opens the way for goes at once. -/
theorem shut_of_move (hs : t.Sound) (hshut : t.Shut) (h : t.Move m replies t') : t'.Shut := by
  have hstay : ∀ {low : Clock}, low ≤ t.slice.minClock → ∀ e ∈ t.slice.waiting.entries,
      t.gate.passes low e.2 = false := by
    intro low hlow e he
    have hclosed := hshut e he
    rw [← Bool.not_eq_true] at hclosed ⊢
    exact fun hpasses => hclosed (Gate.passes_mono hlow hpasses)
  cases h with
  | @apply roster store hop hadds henrol hgate hstore =>
    intro e he
    have hclosed := hstay (Roster.minClock_enrol_le henrol) e he
    rw [← Bool.not_eq_true] at hclosed ⊢
    exact fun hpasses => hclosed (Gate.passes_of_note hs.gate hadds.toReadsIn hpasses)
  | @park roster hop hadds henrol hgate hlate =>
    intro e he
    rcases List.mem_cons.mp ((Waitlist.entries_park_perm ..).mem_iff.mp he) with rfl | he
    · have hdue : ¬m.clock ≤ roster.minClock := UInt64.not_le.mpr hlate
      simp [Gate.passes, hgate, Gate.due, Gate.early, Slice.minClock, hlate]
    · exact hstay (Roster.minClock_enrol_le henrol) e he
  | @answer roster hop hreads henrol hpasses =>
    exact hstay (Roster.minClock_enrol_le henrol)
  | @wait roster hop hreads henrol hpasses =>
    intro e he
    rcases List.mem_cons.mp ((Waitlist.entries_park_perm ..).mem_iff.mp he) with rfl | he
    · exact hpasses
    · exact hstay (Roster.minClock_enrol_le henrol) e he
  | @tick roster hop hadvance => exact hstay (Roster.minClock_le_of_not_risen hadvance)
  | @release roster low _ _ hop hadvance hrelease =>
    obtain ⟨rfl, -⟩ := Roster.minClock_of_risen hadvance
    obtain ⟨⟨store, waiting, rfl⟩, hkept, -, -⟩ := hrelease
    intro e he
    rw [hkept] at he
    have hkeep := (List.mem_filter.mp he).2
    rw [Bool.not_eq_true'] at hkeep
    exact hkeep
  | close hop hkeys hworkers => exact hstay UInt64.zero_le

theorem serves_of_move {spec : TableSpec} {range : Interval} (hs : t.Serves spec range)
    (h : t.Move m replies t') : t'.Serves spec range := by
  refine ⟨sound_of_move hs.toSound h, ?_, ?_, ?_, shut_of_move hs.toSound hs.shut h⟩
  · cases h with
    | release _ _ hrelease =>
      obtain ⟨⟨_, _, rfl⟩, -⟩ := hrelease
      exact hs.range_eq
    | _ => exact hs.range_eq
  · cases h with
    | apply => exact Gate.follows_note hs.follows m
    | release _ _ hrelease =>
      obtain ⟨⟨_, _, rfl⟩, -⟩ := hrelease
      exact Gate.follows_forget hs.follows _
    | _ => exact hs.follows
  · cases h with
    | apply _ _ henrol => exact Roster.tight_enrol hs.tight henrol
    | park _ _ henrol => exact Roster.tight_enrol hs.tight henrol
    | answer _ _ henrol => exact Roster.tight_enrol hs.tight henrol
    | wait _ _ henrol => exact Roster.tight_enrol hs.tight henrol
    | tick _ hadvance => exact Roster.tight_advance hadvance
    | release _ hadvance hrelease =>
      obtain ⟨⟨_, _, rfl⟩, -⟩ := hrelease
      exact Roster.tight_advance hadvance
    | close => exact Roster.tight_reset t.slice.roster _

theorem readsIn_of_move (h : t.Move m replies t') (hop : m.op = .get) :
    m.ReadsIn t.slice.range := by
  cases h with
  | answer _ hreads => exact hreads
  | wait _ hreads => exact hreads
  | _ => simp_all

theorem addsIn_of_move (h : t.Move m replies t') (hop : m.op = .add) :
    m.AddsIn τ t.slice.range := by
  cases h with
  | apply _ hadds => exact hadds
  | park _ hadds => exact hadds
  | _ => simp_all

theorem barrier_iff_of_move (h : t.Move m replies t') : t'.gate = .barrier ↔ t.gate = .barrier := by
  cases h with
  | apply => simp [Gate.eq_barrier_iff]
  | release _ _ hrelease =>
    obtain ⟨⟨_, _, rfl⟩, -⟩ := hrelease
    simp [Gate.eq_barrier_iff]
  | _ => rfl

/-- **The roster.** A sender is taken in where it is not known, and a clock moves it ahead. -/
theorem roster_of_move (hop : m.op ≠ .resetWorkers) (h : t.Move m replies t') :
    (m.op ≠ .clock ∧ t.slice.roster.enrol m.sender = .ok t'.slice.roster) ∨
      (m.op = .clock ∧ ∃ risen,
        t.slice.roster.advance m.sender m.clock = .ok (risen, t'.slice.roster)) := by
  cases h with
  | apply hadd _ henrol => exact Or.inl ⟨by simp [hadd], henrol⟩
  | park hadd _ henrol => exact Or.inl ⟨by simp [hadd], henrol⟩
  | answer hget _ henrol => exact Or.inl ⟨by simp [hget], henrol⟩
  | wait hget _ henrol => exact Or.inl ⟨by simp [hget], henrol⟩
  | tick hclock hadvance => exact Or.inr ⟨hclock, _, hadvance⟩
  | release hclock hadvance hrelease =>
    obtain ⟨⟨_, _, rfl⟩, -⟩ := hrelease
    exact Or.inr ⟨hclock, _, hadvance⟩
  | close hclose => exact absurd hclose hop

/-- Strangers are listened to in an open roster only. -/
theorem known_of_move (h : t.Move m replies t') (hop : m.op ≠ .resetWorkers)
    (hclosed : t.slice.roster.closed = true) :
    ∃ clock, t.slice.roster.clockOf? m.sender = some clock := by
  rcases roster_of_move hop h with ⟨-, henrol⟩ | ⟨-, risen, hadvance⟩
  · exact Roster.check_eq_ok_iff.mp (Roster.check_of_enrol henrol) hclosed
  · exact Roster.check_eq_ok_iff.mp (Roster.advance_eq_ok_iff.mp hadvance).1 hclosed

/-- Who is welcome stays so, unless the roster is closed. -/
theorem check_of_move {worker : ThreadId} (hop : m.op ≠ .resetWorkers) (h : t.Move m replies t')
    (hworker : t.slice.roster.check worker = .ok ()) :
    t'.slice.roster.check worker = .ok () := by
  rcases roster_of_move hop h with ⟨-, henrol⟩ | ⟨-, risen, hadvance⟩
  · exact Roster.check_enrol henrol hworker
  · exact Roster.check_advance hadvance hworker

/-- The minimum never falls by a message of a worker that is known, unless it closes the roster. -/
theorem minClock_le_of_known {clock : Clock} (ht : t.slice.roster.Tight)
    (hknown : t.slice.roster.clockOf? m.sender = some clock) (hop : m.op ≠ .resetWorkers)
    (h : t.Move m replies t') :
    t'.slice.roster.closed = t.slice.roster.closed ∧ t.slice.minClock ≤ t'.slice.minClock := by
  unfold Slice.minClock
  rcases roster_of_move hop h with ⟨-, henrol⟩ | ⟨-, risen, hadvance⟩
  · rw [Roster.enrol_of_known hknown] at henrol
    rw [← Except.ok.inj henrol]
    exact ⟨rfl, UInt64.le_refl _⟩
  · exact ⟨Roster.closed_advance hadvance, Roster.minClock_le_advance ht hknown hadvance⟩

/-- In a closed roster the minimum never falls, as long as nobody closes it anew. -/
theorem minClock_le_of_move {spec : TableSpec} {range : Interval} (hs : t.Serves spec range)
    (hclosed : t.slice.roster.closed = true) (hop : m.op ≠ .resetWorkers)
    (h : t.Move m replies t') :
    t'.slice.roster.closed = true ∧ t.slice.minClock ≤ t'.slice.minClock := by
  obtain ⟨clock, hknown⟩ := known_of_move h hop hclosed
  rw [← hclosed]
  exact minClock_le_of_known hs.tight hknown hop h

/-- In a closed roster nobody's clock moves but the sender's, and that to where the message says. -/
theorem clockOf?_of_move (hclosed : t.slice.roster.closed = true) (hop : m.op ≠ .resetWorkers)
    (h : t.Move m replies t') :
    t'.slice.roster = t.slice.roster ∨ ∀ worker, t'.slice.roster.clockOf? worker =
      if worker = m.sender then some m.clock else t.slice.roster.clockOf? worker := by
  rcases roster_of_move hop h with ⟨-, henrol⟩ | ⟨-, risen, hadvance⟩
  · exact Or.inl (Roster.enrol_of_closed hclosed henrol)
  · exact Or.inr (Roster.clockOf?_advance hadvance)

end Step

end Tablet

end ParamServer
