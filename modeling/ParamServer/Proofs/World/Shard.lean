import ParamServer.Proofs.Tablet.Answers
import ParamServer.Proofs.World.Basic

/-!
# A shard among its workers

What a shard of the table relies on is that its messages come from listed workers and are sound
(`Site.Fit`), and that those of one worker come in the order of their clocks (`Host.Stream`). Then
it refuses no update and no read, it lags behind every message that is still to come, and no answer
is read off a state that is past the clock of its reader (`Host.Ran`).
-/

namespace ParamServer

variable {τ : ScalarType}

/-- A message that a worker has reason to send to the shard of a piece. -/
structure Site.Fit (site : Site τ) (q : Piece) (m : Message) : Prop where
  receiver_eq : m.receiver = q.shard
  listed : m.sender ∈ site.workers
  plain : m.op ≠ .resetWorkers
  adds : m.op = .add → m.AddsIn τ q.range
  reads : m.op = .get → m.ReadsIn q.range

namespace Host

/-- What the shard has seen of a worker's clock, what is in its queue from the worker, and the
worker's clock itself, in this order. -/
def Stream (h : Host τ) (w : ThreadId) (clock : Clock) : Prop :=
  ∃ seen, h.tablet.slice.roster.clockOf? w = some seen ∧
    (seen :: (h.queue.filter fun m => decide (m.sender = w)).map (·.clock) ++ [clock]).Pairwise
      (· ≤ ·)

/-- The clock messages of a worker in the queue. -/
def ticks (h : Host τ) (w : ThreadId) : List Message :=
  h.queue.filter fun m => decide (m.op = .clock ∧ m.sender = w)

/-- They lead, one by one, from what the shard has seen of the worker's clock to the clock
itself. -/
def Steady (h : Host τ) (w : ThreadId) (clock : Clock) : Prop :=
  ∃ (seen : Clock) (n : Nat), h.tablet.slice.roster.clockOf? w = some seen ∧
    (h.ticks w).map (·.clock.toNat) = List.range' (seen.toNat + 1) n ∧
    clock.toNat = seen.toNat + n

/-- The reads of a worker that the shard has yet to answer. -/
def pending (h : Host τ) (w : ThreadId) : List Message :=
  (h.queue.filter (fun m => decide (m.op = .get)) ++ h.tablet.slice.waiting.asking .get).filter
    fun m => decide (m.sender = w)

/-- The shard has got to where it is by sound messages, each from behind nobody's answer. -/
structure Ran (site : Site τ) (q : Piece) (h : Host τ) : Prop where
  run : (site.tablet q.shard).run (h.log.map (·.message)) = .ok h.log
  tablet_eq : h.tablet = (site.tablet q.shard).finish h.log
  fit : ∀ s ∈ h.log, site.Fit q s.message
  low : ∀ s ∈ h.log, s.after.slice.minClock ≤ h.tablet.slice.minClock
  rising : h.log.Pairwise fun s s' => s.after.slice.minClock ≤ s'.message.clock
  reached : ∀ s ∈ h.log, ∀ a ∈ s.answers, s.after.slice.minClock ≤ a.clock

variable {site : Site τ} {spec : TableSpec} {q : Piece} {h : Host τ} {w : ThreadId} {clock : Clock}

/-! ### Where a shard begins -/

theorem pinned_of_closed (hclosed : site.Closed spec) (hq : q ∈ site.layout.pieces) :
    (site.tablet q.shard).Pinned spec q.range [] [] ∧
      ∀ w, (site.tablet q.shard).slice.roster.clockOf? w =
        if w ∈ site.workers then some 0 else none := by
  obtain ⟨fresh, reset, keys, ack, hnew, hop, hkeys, hworkers, hpin⟩ := hclosed q hq
  refine ⟨Tablet.pinned_of_reset hnew hop hpin, ?_⟩
  rw [Tablet.eq_of_reset (Tablet.serves_new hnew).toSound hop hkeys hworkers hpin]
  exact Roster.clockOf?_reset fresh.slice.roster site.workers

theorem Ran.pinned (hclosed : site.Closed spec) (hran : h.Ran site q)
    (hq : q ∈ site.layout.pieces) :
    h.tablet.Pinned spec q.range (Step.taken .add h.log) (Step.taken .get h.log) := by
  rw [hran.tablet_eq]
  refine Tablet.pinned_of_run (pinned_of_closed hclosed hq).1 ?_ hran.run
  intro m hm
  obtain ⟨s, hs, rfl⟩ := List.mem_map.mp hm
  exact (hran.fit s hs).plain

theorem Ran.fit_of_waiting (hclosed : site.Closed spec) (hran : h.Ran site q)
    (hq : q ∈ site.layout.pieces) {g : Message}
    (hg : g ∈ h.tablet.slice.waiting.asking .get) : site.Fit q g ∧ g.op = .get := by
  obtain ⟨s, hs, htook, rfl⟩ := Step.mem_taken_iff.mp ((hran.pinned hclosed hq).asked g hg)
  exact ⟨hran.fit s hs, Step.op_of_took htook⟩

/-- The shard knows the workers and nobody else. -/
theorem Ran.known_iff (hclosed : site.Closed spec) (hran : h.Ran site q)
    (hq : q ∈ site.layout.pieces) (w : ThreadId) :
    (∃ clock, h.tablet.slice.roster.clockOf? w = some clock) ↔ w ∈ site.workers := by
  obtain ⟨hpinned, hclocks⟩ := pinned_of_closed hclosed hq
  let knows : Tablet τ → Prop := fun t =>
    ∀ w, (∃ clock, t.slice.roster.clockOf? w = some clock) ↔ w ∈ site.workers
  suffices hboth : h.tablet.Pinned spec q.range (Step.taken .add h.log) (Step.taken .get h.log) ∧
      knows h.tablet from hboth.2 w
  rw [hran.tablet_eq]
  refine Tablet.run_induction (P := fun steps t =>
    t.Pinned spec q.range (Step.taken .add steps) (Step.taken .get steps) ∧ knows t)
    ⟨hpinned, ?_⟩ ?_ hran.run
  · intro w
    rw [hclocks w]
    by_cases hw : w ∈ site.workers <;> simp [hw]
  · rintro steps t ⟨ht, hknows⟩ m hm s hs
    obtain ⟨old, hold, rfl⟩ := List.mem_map.mp hm
    have hfit := hran.fit old hold
    rw [Step.taken_append, Step.taken_append]
    refine ⟨Tablet.pinned_of_step ht hfit.plain hs, ?_⟩
    obtain ⟨seen, hseen⟩ := (hknows old.message.sender).mpr hfit.listed
    intro w
    rw [Tablet.clockOf?_of_step ht.toServes ht.closed hfit.plain hs hseen w]
    split
    case isTrue hmoved => simp [hmoved.2.2, hfit.listed]
    case isFalse => exact hknows w

/-- The minimum is where the slowest worker is. -/
theorem Ran.le_minClock (hclosed : site.Closed spec) (hran : h.Ran site q)
    (hq : q ∈ site.layout.pieces) (hsome : site.workers ≠ [])
    (hclocks : ∀ w ∈ site.workers, ∀ seen, h.tablet.slice.roster.clockOf? w = some seen →
      clock ≤ seen) :
    clock ≤ h.tablet.slice.minClock := by
  change clock ≤ h.tablet.slice.roster.minClock
  rw [(hran.pinned hclosed hq).tight]
  obtain ⟨w, hw⟩ := List.exists_mem_of_ne_nil _ hsome
  obtain ⟨seen, hseen⟩ := (hran.known_iff hclosed hq w).mpr hw
  refine Roster.le_lowest ⟨w, seen, hseen⟩ ?_
  intro v c hget
  exact hclocks v ((hran.known_iff hclosed hq v).mp ⟨c, hget⟩) c hget

/-- **Everyone has got there.** -/
theorem Ran.minClock_eq (hclosed : site.Closed spec) (hran : h.Ran site q)
    (hq : q ∈ site.layout.pieces) (hsome : site.workers ≠ [])
    (hclocks : ∀ w ∈ site.workers, h.tablet.slice.roster.clockOf? w = some clock) :
    h.tablet.slice.minClock = clock := by
  obtain ⟨w, hw⟩ := List.exists_mem_of_ne_nil _ hsome
  refine UInt64.le_antisymm ((hran.pinned hclosed hq).tight.minClock_le (hclocks w hw)) ?_
  refine hran.le_minClock hclosed hq hsome fun v hv seen hseen => ?_
  rw [hclocks v hv] at hseen
  exact UInt64.le_of_eq (Option.some.inj hseen)

/-! ### The order of messages -/

theorem Stream.minClock_le (hstream : h.Stream w clock) (ht : h.tablet.slice.roster.Tight) :
    h.tablet.slice.minClock ≤ clock ∧
      ∀ m ∈ h.queue, m.sender = w → h.tablet.slice.minClock ≤ m.clock := by
  obtain ⟨seen, hseen, hpairs⟩ := hstream
  have hmin : h.tablet.slice.minClock ≤ seen := ht.minClock_le hseen
  rw [List.cons_append, List.pairwise_cons] at hpairs
  constructor
  · exact UInt64.le_trans hmin (hpairs.1 clock (by simp))
  · intro m hm hsender
    refine UInt64.le_trans hmin (hpairs.1 m.clock (List.mem_append_left _ ?_))
    exact List.mem_map_of_mem (List.mem_filter.mpr ⟨hm, by simpa using hsender⟩)

/-- New messages of a worker that has got to `clock` meanwhile. -/
theorem Stream.push (hstream : h.Stream w clock) {ms : List Message} {later : Clock}
    (hlater : clock ≤ later) (hms : ∀ m ∈ ms, m.clock = later) :
    Stream { h with queue := h.queue ++ ms } w later := by
  obtain ⟨seen, hseen, hpairs⟩ := hstream
  refine ⟨seen, hseen, ?_⟩
  have hnew : ∀ c ∈ (ms.filter fun m => decide (m.sender = w)).map (·.clock) ++ [later],
      c = later := by
    intro c hc
    rcases List.mem_append.mp hc with hc | hc
    · obtain ⟨m, hm, rfl⟩ := List.mem_map.mp hc
      exact hms m (List.mem_filter.mp hm).1
    · exact List.mem_singleton.mp hc
  obtain ⟨hold, -, hle⟩ := List.pairwise_append.mp hpairs
  simp only [List.filter_append, List.map_append]
  rw [← List.cons_append, List.append_assoc, List.pairwise_append]
  refine ⟨hold, ?_, ?_⟩
  · refine List.Pairwise.imp_of_mem ?_ (List.pairwise_of_forall (R := fun _ _ => True) (by simp))
    intro a b ha hb _
    rw [hnew a ha, hnew b hb]
    exact UInt64.le_refl _
  · intro a ha c hc
    rw [hnew c hc]
    exact UInt64.le_trans (hle a ha clock (List.mem_singleton.mpr rfl)) hlater

theorem Steady.push (hsteady : h.Steady w clock) {ms : List Message}
    (hms : ∀ m ∈ ms, m.op = .clock → m.sender ≠ w) :
    Steady { h with queue := h.queue ++ ms } w clock := by
  obtain ⟨seen, n, hseen, hticks, hclock⟩ := hsteady
  refine ⟨seen, n, hseen, ?_, hclock⟩
  have hnone : ms.filter (fun m => decide (m.op = .clock ∧ m.sender = w)) = [] := by
    rw [List.filter_eq_nil_iff]
    intro m hm htick
    exact hms m hm (of_decide_eq_true htick).1 (of_decide_eq_true htick).2
  rw [ticks, List.filter_append, hnone, List.append_nil]
  exact hticks

/-- The worker moves its clock on by one. -/
theorem Steady.tick (hsteady : h.Steady w clock) {ms : List Message} {m : Message}
    (hms : ms.filter (fun m => decide (m.op = .clock ∧ m.sender = w)) = [m])
    (hclock : m.clock.toNat = clock.toNat + 1) :
    Steady { h with queue := h.queue ++ ms } w m.clock := by
  obtain ⟨seen, n, hseen, hticks, hsum⟩ := hsteady
  refine ⟨seen, n + 1, hseen, ?_, by omega⟩
  rw [ticks, List.filter_append, hms, List.map_append]
  change (h.ticks w).map (·.clock.toNat) ++ [m.clock.toNat] = _
  rw [hticks, List.range'_concat, hclock, hsum]
  congr 2
  omega

theorem Steady.clockOf?_of_nil (hsteady : h.Steady w clock) (hqueue : h.queue = []) :
    h.tablet.slice.roster.clockOf? w = some clock := by
  obtain ⟨seen, n, hseen, hticks, hclock⟩ := hsteady
  rw [ticks, hqueue] at hticks
  have hzero : 0 = n := by simpa using congrArg List.length hticks
  rw [hseen, ← UInt64.toNat_inj.mp (show clock.toNat = seen.toNat by omega)]

theorem pending_push (h : Host τ) (ms : List Message) (w : ThreadId) :
    (pending { h with queue := h.queue ++ ms } w).Perm
      (h.pending w ++ (ms.filter fun m => decide (m.op = .get)).filter
        fun m => decide (m.sender = w)) := by
  rw [pending, pending, ← List.filter_append]
  apply List.Perm.filter
  simp only
  rw [List.filter_append, List.append_assoc, List.append_assoc]
  exact List.perm_append_comm.append_left _

section Serve

variable {front back : List Message} {m : Message} {s : Step τ}
  (hclosed : site.Closed spec) (hran : h.Ran site q) (hq : q ∈ site.layout.pieces)
  (hfit : site.Fit q m)
  (hqueue : h.queue = front ++ m :: back) (hstep : h.tablet.step m = .ok s)

include hclosed hran hq hfit hstep

theorem pinned_of_serve :
    s.after.Pinned spec q.range (Step.taken .add (h.log ++ [s]))
      (Step.taken .get (h.log ++ [s])) ∧ h.tablet.slice.minClock ≤ s.after.slice.minClock ∧
      (s.after.slice.roster = h.tablet.slice.roster ∨ ∀ w, s.after.slice.roster.clockOf? w =
        if w = m.sender then some m.clock else h.tablet.slice.roster.clockOf? w) := by
  have hpinned := hran.pinned hclosed hq
  rw [Step.taken_append, Step.taken_append]
  refine ⟨Tablet.pinned_of_step hpinned hfit.plain hstep, ?_⟩
  rcases Tablet.step_cases hpinned.toServes hstep with ⟨why, rfl⟩ | ⟨replies, t', rfl, hmove⟩
  · exact ⟨UInt64.le_refl _, Or.inl rfl⟩
  · exact ⟨(Tablet.minClock_le_of_move hpinned.toServes hpinned.closed hfit.plain hmove).2,
      Tablet.clockOf?_of_move hpinned.closed hfit.plain hmove⟩

include hqueue

theorem stream_of_serve (hfirst : ∀ k ∈ front, k.sender ≠ m.sender) (hstream : h.Stream w clock) :
    Stream ⟨s.after, front ++ back, h.log ++ [s]⟩ w clock := by
  obtain ⟨seen, hseen, hpairs⟩ := hstream
  obtain ⟨-, -, hclocks⟩ := pinned_of_serve hclosed hran hq hfit hstep
  unfold Stream
  by_cases hsender : m.sender = w
  · have hfront : (front.filter fun k => decide (k.sender = w)) = [] :=
      filter_of_forall_ne fun k hk => hsender ▸ hfirst k hk
    rw [hqueue, List.filter_append, hfront, List.filter_cons_of_pos (by simpa using hsender),
      List.nil_append, List.map_cons] at hpairs
    rw [List.filter_append, hfront, List.nil_append]
    rcases hclocks with hroster | hmoved
    · refine ⟨seen, by rw [hroster, hseen], hpairs.sublist ?_⟩
      exact ((List.sublist_cons_self ..).cons_cons seen).append_right [clock]
    · exact ⟨m.clock, (hmoved w).trans (if_pos hsender.symm), (List.pairwise_cons.mp hpairs).2⟩
  · have hqueue' : (h.queue.filter fun k => decide (k.sender = w)) =
        (front ++ back).filter fun k => decide (k.sender = w) := by
      rw [hqueue, List.filter_append, List.filter_cons_of_neg (by simpa using hsender),
        List.filter_append]
    rw [hqueue'] at hpairs
    refine ⟨seen, ?_, hpairs⟩
    rcases hclocks with hroster | hmoved
    · rw [hroster, hseen]
    · rw [hmoved w, if_neg (Ne.symm hsender), hseen]

theorem steady_of_serve (hfirst : ∀ k ∈ front, k.sender ≠ m.sender) (hsteady : h.Steady w clock) :
    Steady ⟨s.after, front ++ back, h.log ++ [s]⟩ w clock := by
  have hpinned := hran.pinned hclosed hq
  obtain ⟨known, hknown⟩ := (hran.known_iff hclosed hq m.sender).mpr hfit.listed
  have hclocks := Tablet.clockOf?_of_step hpinned.toServes hpinned.closed hfit.plain hstep hknown w
  obtain ⟨seen, n, hseen, hticks, hclock⟩ := hsteady
  rw [ticks, hqueue, List.filter_append] at hticks
  by_cases hmine : m.op = .clock ∧ m.sender = w
  · -- It is the first of them.
    have hfront : front.filter (fun k => decide (k.op = .clock ∧ k.sender = w)) = [] := by
      rw [List.filter_eq_nil_iff]
      intro k hk htick
      exact hfirst k hk ((of_decide_eq_true htick).2.trans hmine.2.symm)
    rw [hfront, List.filter_cons_of_pos (by simpa using hmine), List.nil_append,
      List.map_cons] at hticks
    obtain ⟨n, rfl⟩ : ∃ k, n = k + 1 := by
      cases n with
      | zero => cases hticks
      | succ k => exact ⟨k, rfl⟩
    rw [List.range'_succ, List.cons.injEq] at hticks
    obtain ⟨hnext, hrest⟩ := hticks
    obtain rfl : known = seen := by
      rw [hmine.2, hseen] at hknown
      exact (Option.some.inj hknown).symm
    rw [if_pos ⟨hmine.1, UInt64.lt_iff_toNat_lt.mpr (by omega), hmine.2.symm⟩] at hclocks
    refine ⟨m.clock, n, hclocks, ?_, by omega⟩
    rw [ticks, List.filter_append, hfront, List.nil_append, hrest, hnext]
  · rw [List.filter_cons_of_neg (by simpa using hmine), ← List.filter_append] at hticks
    rw [if_neg fun hall => hmine ⟨hall.1, hall.2.2.symm⟩] at hclocks
    exact ⟨seen, n, hclocks.trans hseen, hticks, hclock⟩

/-- Of each worker's reads that the shard has yet to answer, some are answered now. -/
theorem pending_of_serve {seen : Clock}
    (hknown : h.tablet.slice.roster.clockOf? m.sender = some seen) (w : ThreadId) :
    ∃ gs, (∀ g ∈ gs, site.Fit q g ∧ g.op = .get) ∧
      (h.pending w).Perm (gs ++ pending ⟨s.after, front ++ back, h.log ++ [s]⟩ w) ∧
      (s.answers.filter fun a => decide (a.receiver = w)).Perm
        (gs.map (·.answerFrom s.after.slice.store)) := by
  have hserves := (hran.pinned hclosed hq).toServes
  obtain ⟨hanswers, hwaiting⟩ := Tablet.reads_of_step hserves hstep
  rw [Tablet.taken_of_known hserves hknown hfit.adds hfit.reads hstep (Or.inr rfl)]
    at hanswers hwaiting
  let due := h.tablet.slice.waiting.asking .get ++ [m].filter fun m => decide (m.op = .get)
  let kept := (front ++ back).filter fun m => decide (m.op = .get)
  have hdue : ∀ g ∈ due, site.Fit q g ∧ g.op = .get := by
    intro g hg
    rcases List.mem_append.mp hg with hold | hnew
    · exact hran.fit_of_waiting hclosed hq hold
    · obtain ⟨hnew, hget⟩ := List.mem_filter.mp hnew
      obtain rfl := List.mem_singleton.mp hnew
      exact ⟨hfit, by simpa using hget⟩
  refine ⟨(due.filter s.after.passes).filter fun g => decide (g.sender = w), ?_, ?_, ?_⟩
  · exact fun g hg => hdue g (List.mem_filter.mp (List.mem_filter.mp hg).1).1
  · rw [pending, pending, ← List.filter_append]
    apply List.Perm.filter
    have hreads : (h.queue.filter fun m => decide (m.op = .get)).Perm
        (([m].filter fun m => decide (m.op = .get)) ++ kept) := by
      rw [hqueue, ← List.filter_append]
      exact List.perm_middle.filter _
    calc (h.queue.filter fun m => decide (m.op = .get)) ++ h.tablet.slice.waiting.asking .get
        |>.Perm (([m].filter fun m => decide (m.op = .get)) ++ kept ++
            h.tablet.slice.waiting.asking .get) := hreads.append_right _
      _ |>.Perm (h.tablet.slice.waiting.asking .get ++
            (([m].filter fun m => decide (m.op = .get)) ++ kept)) := List.perm_append_comm
      _ = due ++ kept := (List.append_assoc ..).symm
      _ |>.Perm (due.filter s.after.passes ++ (due.filter fun g => !s.after.passes g) ++ kept) :=
        (List.filter_append_perm ..).symm.append_right kept
      _ |>.Perm (due.filter s.after.passes ++ (kept ++ s.after.slice.waiting.asking .get)) := by
        rw [List.append_assoc]
        exact (List.perm_append_comm.trans (hwaiting.symm.append_left kept)).append_left _
  · refine (hanswers.filter _).trans (List.Perm.of_eq ?_)
    rw [List.filter_map]
    rfl

/-- **One message.** A reader waits for its answers, so its own clock keeps the minimum down to that
of the read. -/
theorem ran_of_serve {clocks : ThreadId → Clock} (hfirst : ∀ k ∈ front, k.sender ≠ m.sender)
    (hstreams : ∀ w ∈ site.workers, h.Stream w (clocks w))
    (hclocks : ∀ w ∈ site.workers, ∀ g ∈ h.pending w, g.clock = clocks w) :
    Ran site q ⟨s.after, front ++ back, h.log ++ [s]⟩ := by
  have hmessage := Tablet.message_of_step hstep
  obtain ⟨hafter, hmin, -⟩ := pinned_of_serve hclosed hran hq hfit hstep
  have hmine := hstreams m.sender hfit.listed
  have hbehind : h.tablet.slice.minClock ≤ m.clock :=
    (hmine.minClock_le (hran.pinned hclosed hq).tight).2 m (by rw [hqueue]; simp) rfl
  refine ⟨?_, (Tablet.finish_concat ..).symm, ?_, ?_, ?_, ?_⟩
  · rw [List.map_append, List.map_singleton, hmessage]
    exact Tablet.run_concat_iff.mpr ⟨h.log, s, hran.run, hran.tablet_eq ▸ hstep, rfl⟩
  · intro old hold
    rcases List.mem_append.mp hold with hold | hnew
    · exact hran.fit old hold
    · rw [List.mem_singleton.mp hnew, hmessage]
      exact hfit
  · intro old hold
    rcases List.mem_append.mp hold with hold | hnew
    · exact UInt64.le_trans (hran.low old hold) hmin
    · rw [List.mem_singleton.mp hnew]
      exact UInt64.le_refl _
  · rw [List.pairwise_append]
    refine ⟨hran.rising, List.pairwise_singleton .., ?_⟩
    intro old hold new hnew
    rw [List.mem_singleton.mp hnew, hmessage]
    exact UInt64.le_trans (hran.low old hold) hbehind
  · intro old hold a ha
    rcases List.mem_append.mp hold with hold | hnew
    · exact hran.reached old hold a ha
    · obtain rfl := List.mem_singleton.mp hnew
      obtain ⟨seen, hknown, -⟩ := hmine
      obtain ⟨gs, hgs, hpending, hanswers⟩ :=
        pending_of_serve hclosed hran hq hfit hqueue hstep hknown a.receiver
      obtain ⟨g, hg, rfl⟩ := List.mem_map.mp
        (hanswers.mem_iff.mp (List.mem_filter.mpr ⟨ha, decide_eq_true rfl⟩))
      have hlisted : g.sender ∈ site.workers := (hgs g hg).1.listed
      have hclock : g.clock = clocks g.sender :=
        hclocks g.sender hlisted g (hpending.mem_iff.mpr (List.mem_append_left _ hg))
      have hpins := (stream_of_serve hclosed hran hq hfit hqueue hstep hfirst
        (hstreams g.sender hlisted)).minClock_le hafter.tight
      calc old.after.slice.minClock ≤ clocks g.sender := hpins.1
        _ = g.clock := hclock.symm

end Serve

end Host

end ParamServer
