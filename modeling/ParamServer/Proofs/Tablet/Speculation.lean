import Mathlib.Data.List.Dedup
import Mathlib.Data.List.Induction
import Mathlib.Data.List.Perm.Basic
import ParamServer.Proofs.Tablet.Answers
import ParamServer.Proofs.Tablet.Ledger

/-!
# Speculation sees the recent writes and no others

A speculative tablet lets a reader run ahead while few others have written its keys of late. What it
goes by is its log, and `Logged` says what the log holds after any run: for each key, every write
that was taken in and that the slowest worker has not clocked past, once. An update comes in with a
clock no lower than the minimum, so stamping it never revives what is past, and forgetting below the
minimum whenever it rises drops exactly what has become past.
-/

namespace ParamServer

variable {τ : ScalarType}

/-- The writes of `key` that are not behind `low`, each once. -/
def Message.writesOf (adds : List Message) (low : Clock) (key : Key) : List Stamp :=
  ((adds.filter fun m => decide (low ≤ m.clock ∧ key ∈ m.keyList)).map fun m =>
    ⟨m.sender, m.clock⟩).dedup

theorem Message.mem_writesOf {adds : List Message} {low : Clock} {key : Key} {s : Stamp} :
    s ∈ writesOf adds low key ↔
      low ≤ s.clock ∧ ∃ m ∈ adds, key ∈ m.keyList ∧ s = ⟨m.sender, m.clock⟩ := by
  simp only [writesOf, List.mem_dedup, List.mem_map, List.mem_filter, decide_eq_true_eq]
  constructor
  · rintro ⟨m, ⟨hm, hlow, hkey⟩, rfl⟩
    exact ⟨hlow, m, hm, hkey, rfl⟩
  · rintro ⟨hlow, m, hm, hkey, rfl⟩
    exact ⟨m, ⟨hm, hlow, hkey⟩, rfl⟩

/-- A log holds `writes` and nothing else: each of them once, and no key but theirs. -/
structure WriteLog.Holds (log : WriteLog) (writes : Key → List Stamp) : Prop where
  stamps : ∀ key, (log.stamps key).Perm (writes key)
  size : ∃ keys : List Key, keys.Nodup ∧ log.size = keys.length ∧
    ∀ key, key ∈ keys ↔ writes key ≠ []

theorem WriteLog.holds_of_tidy {log : WriteLog} (htidy : log.Tidy) {writes : Key → List Stamp}
    (hnodup : ∀ key, (writes key).Nodup) (hmem : ∀ key s, s ∈ log.stamps key ↔ s ∈ writes key) :
    log.Holds writes := by
  have hstamps : ∀ key, (log.stamps key).Perm (writes key) := fun key =>
    (List.perm_ext_iff_of_nodup (htidy.once key) (hnodup key)).mpr (hmem key)
  obtain ⟨keys, hkeys, hsize, hkey⟩ := exists_keys_of_tidy htidy
  refine ⟨hstamps, keys, hkeys, hsize, ?_⟩
  intro key
  rw [hkey, Ne, Ne, ← List.length_eq_zero_iff, ← List.length_eq_zero_iff, (hstamps key).length_eq]

/-- Whether fewer than the threshold of `writes` to each key of a read are by others. -/
def TableSpec.seldom (spec : TableSpec) (writes : Key → List Stamp) (g : Message) : Bool :=
  decide (0 < spec.speculation) && g.keyList.all fun key =>
    decide ((writes key).countP (·.writer ≠ g.sender) < spec.speculation.toNat)

namespace Tablet

/-- Whether every update that was taken in carries the clock that its sender had by then. -/
def tagged (t : Tablet τ) : List (Step τ) → Bool
  | [] => true
  | s :: rest =>
    (!s.took .add || decide (t.slice.roster.clockOf? s.message.sender = some s.message.clock)) &&
      tagged s.after rest

theorem tagged_append {t : Tablet τ} {front back : List (Step τ)} :
    t.tagged (front ++ back) = (t.tagged front && (t.finish front).tagged back) := by
  induction front generalizing t with
  | nil => rfl
  | cons s rest ih => rw [List.cons_append, tagged, tagged, ih, finish_cons, Bool.and_assoc]

variable {spec : TableSpec} {range : Interval} {t t' : Tablet τ} {adds : List Message}

/-- A speculative tablet whose roster is closed and whose log holds the recent ones of the updates
`adds`. -/
structure Logged (spec : TableSpec) (range : Interval) (t : Tablet τ) (adds : List Message) : Prop
    extends t.Serves spec range where
  closed : t.slice.roster.closed = true
  logged : ∃ log, t.gate = .speculative spec.staleness spec.speculation log ∧ log.Tidy ∧
    ∀ key s, s ∈ log.stamps key ↔ s ∈ Message.writesOf adds t.slice.minClock key

theorem log_of_new {table : TableId} {shard : ThreadId}
    (hmodel : spec.model = .sparseSsp) (hnew : Tablet.new τ spec table shard range = .ok t) :
    ∃ log, t.gate = .speculative spec.staleness spec.speculation log ∧ log.Tidy ∧
      ∀ key, log.stamps key = [] := by
  obtain ⟨_, _, log, -, -, hlog, rfl⟩ := eq_of_new_speculative hmodel hnew
  exact ⟨log, rfl, WriteLog.tidy_new hlog⟩

theorem logged_of_reset {table : TableId} {shard : ThreadId} {fresh pinned : Tablet τ}
    (hmodel : spec.model = .sparseSsp) (hnew : Tablet.new τ spec table shard range = .ok fresh)
    {reset : Message} (hop : reset.op = .resetWorkers) {ack : List Message}
    (hpin : fresh.handle reset = .ok ack pinned) :
    pinned.Logged spec range [] ∧ Accounted spec range [] pinned := by
  obtain ⟨log, hgate, htidy, hnone⟩ := log_of_new hmodel hnew
  have hpinned := pinned_of_reset hnew hop hpin
  have hsame : pinned.gate = fresh.gate := by
    cases move_of_handle (serves_new hnew).toSound reset hpin <;> simp_all
  constructor
  · refine ⟨hpinned.toServes, hpinned.closed, log, hsame.trans hgate, htidy, ?_⟩
    intro key s
    rw [hnone, Message.mem_writesOf]
    simp
  · refine ⟨hpinned.toServes, by simp [Step.taken], ?_⟩
    rw [List.eq_nil_iff_forall_not_mem.mpr fun g hg => List.not_mem_nil (hpinned.asked g hg)]
    exact List.Perm.refl _

/-! ### One step -/

section Step

variable {m : Message} {replies : List Message}

/-- **One step of the log.** -/
theorem logged_of_move (h : t.Logged spec range adds) (hop : m.op ≠ .resetWorkers)
    (htag : m.op = .add → t.slice.roster.clockOf? m.sender = some m.clock)
    (hmove : t.Move m replies t') :
    t'.Logged spec range (adds ++ [m].filter fun m => decide (m.op = .add)) := by
  obtain ⟨log, hgate, htidy, hlog⟩ := h.logged
  obtain ⟨hclosed, hmin⟩ := minClock_le_of_move h.toServes h.closed hop hmove
  refine ⟨serves_of_move h.toServes hmove, hclosed, ?_⟩
  cases hmove with
  | @apply roster store hadd hadds henrol _ _ =>
    obtain rfl := Roster.enrol_of_closed h.closed henrol
    have hlow : t.slice.minClock ≤ m.clock := h.tight.minClock_le (htag hadd)
    have hcovers := h.gate
    rw [hgate] at hcovers
    obtain ⟨log', hlog', -, -⟩ :=
      WriteLog.recordAll_of_covers hcovers hadds.inside m.sender m.clock
    have htidy' := WriteLog.tidy_recordAll hcovers htidy hadds.inside hlog'
    have hstamps := WriteLog.stamps_recordAll hcovers hadds.inside hlog'
    refine ⟨log', by simp only [hgate, Gate.note, hlog'], htidy', ?_⟩
    intro key s
    rw [hstamps, hlog, Message.mem_writesOf, Message.mem_writesOf]
    simp only [hadd, decide_true, List.filter_cons_of_pos, List.filter_nil, List.mem_append,
      List.mem_singleton]
    constructor
    · rintro (⟨hs, k, hk, hkey, rfl⟩ | ⟨hkey, rfl⟩)
      · exact ⟨hs, k, Or.inl hk, hkey, rfl⟩
      · exact ⟨hlow, m, Or.inr rfl, hkey, rfl⟩
    · rintro ⟨hs, k, hk | rfl, hkey, rfl⟩
      · exact Or.inl ⟨hs, k, hk, hkey, rfl⟩
      · exact Or.inr ⟨hkey, rfl⟩
  | park _ _ _ hbarrier =>
    rw [hgate] at hbarrier
    cases hbarrier
  | answer hget _ henrol =>
    obtain rfl := Roster.enrol_of_closed h.closed henrol
    exact ⟨log, hgate, htidy, by simpa [hget] using hlog⟩
  | wait hget _ henrol =>
    obtain rfl := Roster.enrol_of_closed h.closed henrol
    exact ⟨log, hgate, htidy, by simpa [hget, Slice.minClock] using hlog⟩
  | @tick roster hclock hadvance =>
    have hsame : roster.minClock = t.slice.minClock :=
      UInt64.le_antisymm (Roster.minClock_le_of_not_risen hadvance) hmin
    refine ⟨log, hgate, htidy, ?_⟩
    simpa [hclock, Slice.minClock, hsame] using hlog
  | @release roster low _ _ hclock hadvance hrelease =>
    obtain ⟨rfl, -⟩ := Roster.minClock_of_risen hadvance
    obtain ⟨⟨store, waiting, rfl⟩, -⟩ := hrelease
    refine ⟨log.forgetBelow roster.minClock, by simp only [hgate, Gate.forget],
      WriteLog.tidy_forgetBelow htidy _, ?_⟩
    intro key s
    rw [WriteLog.stamps_forgetBelow, List.mem_filter, decide_eq_true_eq, hlog,
      Message.mem_writesOf, Message.mem_writesOf]
    simp only [hclock, reduceCtorEq, decide_false, Bool.false_eq_true, not_false_eq_true,
      List.filter_cons_of_neg, List.filter_nil, List.append_nil]
    constructor
    · rintro ⟨⟨-, hs⟩, hlow⟩
      exact ⟨hlow, hs⟩
    · rintro ⟨hlow, hs⟩
      exact ⟨⟨UInt64.le_trans hmin hlow, hs⟩, hlow⟩
  | close hclose => exact absurd hclose hop

/-- Only a clock lets go of a read. -/
theorem asking_of_move (hclock : m.op ≠ .clock) (hmove : t.Move m replies t') :
    ∀ g ∈ t.slice.waiting.asking .get, g ∈ t'.slice.waiting.asking .get := by
  intro g hg
  have hpark : ∀ clock, g ∈ (t.slice.waiting.park clock m).asking .get := fun clock =>
    (Waitlist.asking_park .get t.slice.waiting clock m).mem_iff.mpr (List.mem_append_left _ hg)
  cases hmove with
  | park => exact hpark _
  | wait => exact hpark _
  | tick h => exact absurd h hclock
  | release h => exact absurd h hclock
  | _ => exact hg

end Step

variable {m : Message} {s : Step τ}

theorem logged_of_step (h : t.Logged spec range adds) (hstep : t.step m = .ok s)
    (honce : s.took .resetWorkers = false) (htag : t.tagged [s] = true) :
    s.after.Logged spec range (adds ++ Step.taken .add [s]) := by
  rcases step_cases h.toServes hstep with ⟨why, rfl⟩ | ⟨replies, t', rfl, hmove⟩
  · simpa using h
  · have hop : m.op ≠ .resetWorkers := by simpa using honce
    have htagged : m.op = .add → t.slice.roster.clockOf? m.sender = some m.clock := by
      intro hadd
      simpa [tagged, hadd] using htag
    rw [Step.taken_of_accepted]
    exact logged_of_move h hop htagged hmove

/-- A read that comes in is answered on the spot if the rule is content with it, and waits
otherwise. -/
theorem answers_of_took (hs : t.Serves spec range) (hstep : t.step m = .ok s)
    (htook : s.took .get = true) :
    s.answers = if spec.ready s.after s.message then
      [s.message.answerFrom s.after.slice.store] else [] := by
  rcases step_cases hs hstep with ⟨why, rfl⟩ | ⟨replies, t', rfl, hmove⟩
  · cases htook
  · have hget : m.op = .get := Step.op_of_took htook
    have hready := passes_eq_ready (serves_of_move hs hmove).follows
      (readsIn_of_move hmove hget).keys_eq
    rw [Step.answers_of_ne (by simp [hget]), ← hready]
    cases hmove with
    | @answer roster _ _ _ hpasses =>
      rw [if_pos (show passes ⟨{ t.slice with roster }, t.gate⟩ m = true from hpasses)]
    | @wait roster _ _ _ hpasses =>
      rw [if_neg]
      exact Bool.not_eq_true _ ▸ hpasses
    | _ => simp_all

/-- A step that opens the way for reads that were there before is a clock. -/
theorem clock_of_opening {steps : List (Step τ)} (h : Accounted spec range steps t)
    (hstep : t.step m = .ok s) (honce : s.took .resetWorkers = false) {e : Nat × Message}
    (he : e ∈ unopened spec steps) (hready : spec.ready s.after e.2 = true) :
    s.took .clock = true := by
  have hwaits : e.2 ∈ t.slice.waiting.asking .get :=
    h.waits.mem_iff.mpr (List.mem_map_of_mem he)
  have hkeys := (h.fit e.2 (Step.mem_readsFrom (List.mem_filter.mp he).1).2.2).keys_eq
  by_contra hclock
  rcases step_cases h.toServes hstep with ⟨why, rfl⟩ | ⟨replies, t', rfl, hmove⟩
  · have hshut := passes_of_shut h.shut .get e.2 hwaits
    rw [passes_eq_ready h.follows hkeys, hready] at hshut
    cases hshut
  · have hserves := serves_of_move h.toServes hmove
    have hop : m.op ≠ .clock := by simpa using hclock
    have hshut := passes_of_shut hserves.shut .get e.2 (asking_of_move hop hmove e.2 hwaits)
    rw [passes_eq_ready hserves.follows hkeys, hready] at hshut
    cases hshut

/-! ### Runs -/

theorem tagged_of_append {front back : List (Step τ)} (h : t.tagged (front ++ back) = true) :
    t.tagged front = true ∧ (t.finish front).tagged back = true := by
  rwa [tagged_append, Bool.and_eq_true] at h

/-- **A run of a speculative tablet.** -/
theorem logged_of_run (h : t.Logged spec range []) {ms : List Message} {steps : List (Step τ)}
    (hrun : t.run ms = .ok steps) (honce : ∀ s ∈ steps, s.took .resetWorkers = false)
    (htagged : t.tagged steps = true) :
    (t.finish steps).Logged spec range (Step.taken .add steps) := by
  induction steps using List.reverseRecOn generalizing ms with
  | nil => exact h
  | append_singleton front s ih =>
    obtain ⟨htagfront, htag⟩ := tagged_of_append htagged
    have hfront := ih (run_of_append hrun).1
      (fun s hs => honce s (List.mem_append_left _ hs)) htagfront
    rw [finish_concat, Step.taken_append]
    exact logged_of_step hfront (step_of_run hrun) (honce s (by simp)) htag

theorem holds_of_logged (h : t.Logged spec range adds) :
    ∃ log, t.gate = .speculative spec.staleness spec.speculation log ∧
      log.Holds (Message.writesOf adds t.slice.minClock) := by
  obtain ⟨log, hgate, htidy, hlog⟩ := h.logged
  exact ⟨log, hgate, WriteLog.holds_of_tidy htidy (fun _ => List.nodup_dedup _) hlog⟩

theorem ready_of_logged (hmodel : spec.model = .sparseSsp) (h : t.Logged spec range adds)
    (g : Message) : spec.ready t g =
      (spec.near t g || spec.seldom (Message.writesOf adds t.slice.minClock) g) := by
  obtain ⟨log, hgate, hholds⟩ := holds_of_logged h
  have hcount : ∀ key, t.foreignWrites key g.sender =
      (Message.writesOf adds t.slice.minClock key).countP (·.writer ≠ g.sender) := by
    intro key
    simp only [foreignWrites, hgate]
    exact (hholds.stamps key).countP_eq _
  simp only [TableSpec.ready, hmodel, TableSpec.quiet, TableSpec.seldom, hcount]

/-- **Speculation goes by the recent writes.** Take any run of a speculative tablet whose roster was
closed while it was new, and in which every update that is taken in carries its sender's clock. At
any moment the log holds the recent ones of the updates so far. So the rule is content with a read
when the reader is near enough to the slowest worker, or when few of the recent writes to each of
its keys are by others. A read that comes in is answered on the spot if it is; a read that waits is
answered by the first step after which it is, and that step is a clock. -/
theorem speculation_exact {table : TableId} {shard : ThreadId} {fresh pinned : Tablet τ}
    (hmodel : spec.model = .sparseSsp) (hnew : Tablet.new τ spec table shard range = .ok fresh)
    {reset : Message} (hop : reset.op = .resetWorkers) {ack : List Message}
    (hpin : fresh.handle reset = .ok ack pinned) {ms : List Message} {steps : List (Step τ)}
    (hrun : pinned.run ms = .ok steps) (honce : ∀ s ∈ steps, s.took .resetWorkers = false)
    (htagged : pinned.tagged steps = true) :
    (∀ front back, steps = front ++ back →
      ∃ log, (pinned.finish front).gate = .speculative spec.staleness spec.speculation log ∧
        log.Holds (Message.writesOf (Step.taken .add front)
          (pinned.finish front).slice.minClock)) ∧
    ∀ front s back, steps = front ++ s :: back →
      (∀ g, spec.ready s.after g = (spec.near s.after g ||
        spec.seldom (Message.writesOf (Step.taken .add (front ++ [s])) s.after.slice.minClock) g)) ∧
      (s.took .get = true → s.answers =
        if spec.ready s.after s.message then [s.message.answerFrom s.after.slice.store] else []) ∧
      s.answers.Perm (((Step.reads steps).filter fun e =>
        decide (spec.opening steps e.1 e.2 = some front.length)).map
          fun e => e.2.answerFrom s.after.slice.store) ∧
      ∀ e ∈ Step.reads steps, e.1 < front.length → spec.opening steps e.1 e.2 = some front.length →
        s.took .clock = true := by
  obtain ⟨hlogged, haccounted⟩ := logged_of_reset hmodel hnew hop hpin
  have hsofar : ∀ front back, steps = front ++ back →
      (pinned.finish front).Logged spec range (Step.taken .add front) := by
    rintro front back rfl
    exact logged_of_run hlogged (run_of_append hrun).1
      (fun s hs => honce s (List.mem_append_left _ hs)) (tagged_of_append htagged).1
  refine ⟨fun front back hsteps => holds_of_logged (hsofar front back hsteps), ?_⟩
  intro front s back hsteps
  have hafter := hsofar (front ++ [s]) back (by rw [hsteps, List.append_assoc]; rfl)
  rw [finish_concat] at hafter
  have hbefore : Accounted spec range front (pinned.finish front) := by
    subst hsteps
    exact run_induction (P := Accounted spec range) haccounted
      (fun _ _ hu _ _ _ hs => (accounted_of_step hu hs).1) (run_of_append hrun).1
  subst hsteps
  have hstep := step_of_run hrun
  obtain ⟨hopened, -⟩ := filter_reads_append spec front s back
  refine ⟨ready_of_logged hmodel hafter, answers_of_took hbefore.toServes hstep, ?_, ?_⟩
  · rw [hopened]
    exact (accounted_of_step hbefore hstep).2
  · intro e he hlt hopening
    have hfirst : e ∈ (Step.reads (front ++ [s])).filter fun e =>
        decide (spec.opening (front ++ [s]) e.1 e.2 = some front.length) := by
      rw [← hopened]
      exact List.mem_filter.mpr ⟨he, decide_eq_true hopening⟩
    rw [(unopened_concat spec front s).1] at hfirst
    obtain ⟨hleft, hready⟩ := List.mem_filter.mp hfirst
    rcases List.mem_append.mp hleft with hold | hnew
    · exact clock_of_opening hbefore hstep (honce s (by simp)) hold hready
    · have hle := (Step.mem_readsFrom hnew).1
      omega

/-- The roster of two workers. -/
def pinTwo : Message := ⟨.resetWorkers, controlThread, 7, 0, 0, 0, [.keys [1, 2]]⟩

/-- Worker 2 is two iterations ahead and asks for what worker 1 has just written. Worker 1 catches
up by one, which does not bring the two together, but makes its write an old one. -/
def overtaken : List Message := [
  ⟨.add, 1, 7, 0, 0, 0, [.keys [3], .integers [5]]⟩,
  ⟨.clock, 2, 7, 0, 2, 0, []⟩,
  ⟨.get, 2, 7, 0, 2, 1, [.keys [3]]⟩,
  ⟨.clock, 1, 7, 0, 1, 0, []⟩]

theorem speculation_exact_overtaken :
    ∃ fresh ack pinned steps,
      Tablet.new .integer cautious 0 7 ⟨0, 10⟩ = .ok fresh ∧
      fresh.handle pinTwo = .ok ack pinned ∧ pinned.run overtaken = .ok steps ∧
      (∀ s ∈ steps, s.took .resetWorkers = false) ∧ pinned.tagged steps = true ∧
      (Step.reads steps).map (fun e => cautious.opening steps e.1 e.2) = [some 3] ∧
      (∀ s ∈ steps, ∀ e ∈ Step.reads steps, s.took .clock = true →
        cautious.near s.after e.2 = false) ∧
      ∀ front s back, steps = front ++ s :: back →
        s.answers.Perm (((Step.reads steps).filter fun e =>
          decide (cautious.opening steps e.1 e.2 = some front.length)).map
            fun e => e.2.answerFrom s.after.slice.store) := by
  let fresh : Tablet .integer :=
    ⟨.new 0 7 ⟨0, 10⟩ (.sparse .empty), .speculative 0 1 (.sparse .empty)⟩
  let pinned : Tablet .integer :=
    { fresh with slice := { fresh.slice with roster := fresh.slice.roster.reset [1, 2] } }
  have hnew : Tablet.new .integer cautious 0 7 ⟨0, 10⟩ = .ok fresh := rfl
  have hpin : fresh.handle pinTwo = .ok [pinTwo.reply] pinned := rfl
  obtain ⟨steps, hrun⟩ : ∃ steps, pinned.run overtaken = .ok steps := ⟨_, rfl⟩
  have hfacts : (pinned.run overtaken).toOption.map (fun steps =>
      steps.all (fun s => !s.took .resetWorkers) && pinned.tagged steps &&
      decide ((Step.reads steps).map (fun e => cautious.opening steps e.1 e.2) = [some 3]) &&
      steps.all fun s => (Step.reads steps).all fun e =>
        !s.took .clock || !cautious.near s.after e.2) = some true := by
    decide +kernel
  rw [hrun] at hfacts
  simp only [Except.toOption, Option.map_some, Option.some.injEq, Bool.and_eq_true,
    List.all_eq_true, decide_eq_true_eq, Bool.not_eq_true', Bool.or_eq_true] at hfacts
  obtain ⟨⟨⟨honce, htagged⟩, hopenings⟩, hfar⟩ := hfacts
  refine ⟨fresh, _, pinned, steps, hnew, hpin, hrun, honce, htagged, hopenings, ?_, ?_⟩
  · intro s hs e he hclock
    rcases hfar s hs e he with hno | hfar
    · rw [hclock] at hno
      cases hno
    · exact hfar
  · intro front s back hsteps
    exact ((speculation_exact rfl hnew rfl hpin hrun honce htagged).2 front s back hsteps).2.2.1

end Tablet

end ParamServer
