import ParamServer.Proofs.Tablet.Flow
import ParamServer.Proofs.Tablet.Run

/-!
# The books of a tablet

A tablet owes for the updates it took in. `Books` says where they are: they have landed, and then
the store is their sum, or they wait. Once its roster is closed, the minimum never falls, so what
has landed behind a barrier stays within it (`Balance`), and the minimum alone decides which updates
have landed (`landed_of_barrier`).

The sums are those of the element type, taken in the order in which the updates landed. Integers
do not depend on it.
-/

namespace ParamServer.Tablet

variable {τ : ScalarType} {spec : TableSpec} {range : Interval} {t t' : Tablet τ}
  {landed adds : List Message}

/-- The updates `adds` have `landed`, and the store is their sum, or they wait. -/
structure Books (range : Interval) (t : Tablet τ) (landed adds : List Message) : Prop where
  all : (landed ++ t.slice.waiting.asking .add).Perm adds
  sums : ∀ k ∈ range,
    (deltasAt k (landed.flatMap (·.updates τ))).foldlM τ.add τ.zero = .ok (t.slice.store.value k)

theorem books_of_new {table : TableId} {shard : ThreadId} {fresh : Tablet τ}
    (hnew : Tablet.new τ spec table shard range = .ok fresh) : fresh.Books range [] [] := by
  obtain ⟨store, gate, hstore, -, rfl⟩ := eq_of_new hnew
  refine ⟨List.Perm.refl _, ?_⟩
  intro k _
  exact congrArg Except.ok (Store.value_new hstore k).symm

/-- **One move in the books.** Whoever the workers are, what lands behind a barrier is within it. -/
theorem books_of_move (hs : t.Serves spec range) (h : t.Books range landed adds) {m : Message}
    {replies : List Message} (hmove : t.Move m replies t') :
    ∃ more, (t.gate = .barrier → ∀ e ∈ more, e.clock ≤ t'.slice.minClock) ∧
      t'.Books range (landed ++ more) (adds ++ [m].filter fun m => decide (m.op = .add)) := by
  obtain ⟨more, hfit, hreached, hstore, hall⟩ := updates_of_move hs.toSound hmove
  refine ⟨more, hreached, ?_, ?_⟩
  · calc landed ++ more ++ t'.slice.waiting.asking .add
        = landed ++ (more ++ t'.slice.waiting.asking .add) := List.append_assoc ..
      _ |>.Perm (landed ++ (t.slice.waiting.asking .add ++ _)) := hall.append_left landed
      _ = landed ++ t.slice.waiting.asking .add ++ _ := (List.append_assoc ..).symm
      _ |>.Perm (adds ++ [m].filter fun m => decide (m.op = .add)) := h.all.append_right _
  · intro k hk
    have hinside : ∀ e ∈ more.flatMap (·.updates τ), e.1 ∈ t.slice.range := by
      intro e he
      obtain ⟨m, hm, he⟩ := List.mem_flatMap.mp he
      exact (hfit m hm).inside_updates e he
    have hsum := (Store.addAll_ok hs.store hinside hstore).2 k (hs.range_eq ▸ hk)
    rw [List.flatMap_append, deltasAt_append, List.foldlM_append, h.sums k hk]
    exact hsum

theorem books_of_step (hs : t.Serves spec range) (h : t.Books range landed adds) {m : Message}
    {s : Step τ} (hstep : t.step m = .ok s) :
    ∃ more, (t.gate = .barrier → ∀ e ∈ more, e.clock ≤ s.after.slice.minClock) ∧
      s.after.Books range (landed ++ more) (adds ++ Step.taken .add [s]) := by
  rcases step_cases hs hstep with ⟨why, rfl⟩ | ⟨replies, t', rfl, hmove⟩
  · exact ⟨[], by simp, by simpa using h⟩
  · obtain ⟨more, hreached, hbooks⟩ := books_of_move hs h hmove
    rw [Step.taken_of_accepted]
    exact ⟨more, hreached, hbooks⟩

/-- Books in which nothing has landed from beyond a barrier. -/
structure Balance (range : Interval) (t : Tablet τ) (landed adds : List Message) : Prop
    extends t.Books range landed adds where
  reached : t.gate = .barrier → ∀ m ∈ landed, m.clock ≤ t.slice.minClock

/-- A tablet whose roster is closed, and which has taken in the updates `adds` and no reads but
`gets` since. -/
structure Pinned (spec : TableSpec) (range : Interval) (t : Tablet τ) (adds gets : List Message) :
    Prop extends t.Serves spec range where
  closed : t.slice.roster.closed = true
  balance : ∃ landed, t.Balance range landed adds
  fit : ∀ g ∈ gets, g.ReadsIn range
  asked : ∀ g ∈ t.slice.waiting.asking .get, g ∈ gets

/-- All that a reset changes is the roster. -/
theorem eq_of_reset (hs : t.Sound) {reset : Message} (hop : reset.op = .resetWorkers)
    {keys : List Key} (hkeys : reset.keys = .ok keys) {listed : List ThreadId}
    (hlisted : keys.mapM Slice.workerId = .ok listed) {ack : List Message}
    (hpin : t.handle reset = .ok ack t') :
    t' = ⟨{ t.slice with roster := t.slice.roster.reset listed }, t.gate⟩ := by
  cases move_of_handle hs reset hpin with
  | close _ hkeys' hlisted' =>
    obtain rfl := Except.ok.inj (hkeys.symm.trans hkeys')
    obtain rfl := Except.ok.inj (hlisted.symm.trans hlisted')
    rfl
  | _ => simp_all only [reduceCtorEq]

theorem pinned_of_reset {table : TableId} {shard : ThreadId} {fresh pinned : Tablet τ}
    (hnew : Tablet.new τ spec table shard range = .ok fresh) {reset : Message}
    (hop : reset.op = .resetWorkers) {ack : List Message}
    (hpin : fresh.handle reset = .ok ack pinned) : pinned.Pinned spec range [] [] := by
  have hserves := serves_new hnew
  have hmove := move_of_handle hserves.toSound reset hpin
  have hbooks := books_of_new hnew
  obtain ⟨store, gate, hstore, -, rfl⟩ := eq_of_new hnew
  refine ⟨serves_of_move hserves hmove, ?_, ⟨[], ?_⟩, by simp, ?_⟩
  all_goals
    cases hmove <;> try simp_all only [reduceCtorEq]
  · rfl
  · exact ⟨⟨hbooks.all, hbooks.sums⟩, by simp⟩
  · intro g hg
    cases hg

/-- **One step of a closed tablet.** -/
theorem pinned_of_move {gets : List Message} (h : t.Pinned spec range adds gets) {m : Message}
    (hop : m.op ≠ .resetWorkers) {replies : List Message} (hmove : t.Move m replies t') :
    t'.Pinned spec range (adds ++ [m].filter fun m => decide (m.op = .add))
      (gets ++ [m].filter fun m => decide (m.op = .get)) := by
  obtain ⟨hclosed, hmin⟩ := minClock_le_of_move h.toServes h.closed hop hmove
  refine ⟨serves_of_move h.toServes hmove, hclosed, ?_, ?_, ?_⟩
  · obtain ⟨landed, hbalance⟩ := h.balance
    obtain ⟨more, hreached, hbooks⟩ := books_of_move h.toServes hbalance.toBooks hmove
    refine ⟨landed ++ more, hbooks, ?_⟩
    intro hgate e he
    have hbefore := (barrier_iff_of_move hmove).mp hgate
    rcases List.mem_append.mp he with he | he
    · exact UInt64.le_trans (hbalance.reached hbefore e he) hmin
    · exact hreached hbefore e he
  · intro g hg
    rcases List.mem_append.mp hg with hg | hg
    · exact h.fit g hg
    · obtain ⟨hg, hget⟩ := List.mem_filter.mp hg
      obtain rfl := List.mem_singleton.mp hg
      rw [← h.range_eq]
      exact readsIn_of_move hmove (of_decide_eq_true hget)
  · intro g hg
    have hwaits := (reads_of_move h.toSound h.shut hop hmove).2.mem_iff.mp hg
    exact List.mem_append.mpr
      ((List.mem_append.mp (List.mem_filter.mp hwaits).1).imp_left (h.asked g))

theorem pinned_of_step {gets : List Message} (h : t.Pinned spec range adds gets) {m : Message}
    (hop : m.op ≠ .resetWorkers) {s : Step τ} (hstep : t.step m = .ok s) :
    s.after.Pinned spec range (adds ++ Step.taken .add [s]) (gets ++ Step.taken .get [s]) := by
  rcases step_cases h.toServes hstep with ⟨why, rfl⟩ | ⟨replies, t', rfl, hmove⟩
  · simpa using h
  · rw [Step.taken_of_accepted, Step.taken_of_accepted]
    exact pinned_of_move h hop hmove

/-- **A run of a closed tablet.** -/
theorem pinned_of_run (h : t.Pinned spec range [] []) {ms : List Message}
    (hms : ∀ m ∈ ms, m.op ≠ .resetWorkers) {steps : List (Step τ)} (hrun : t.run ms = .ok steps) :
    (t.finish steps).Pinned spec range (Step.taken .add steps) (Step.taken .get steps) := by
  refine run_induction
    (P := fun steps u => u.Pinned spec range (Step.taken .add steps) (Step.taken .get steps))
    h ?_ hrun
  intro steps u hu m hm s hs
  rw [Step.taken_append, Step.taken_append]
  exact pinned_of_step hu (hms m hm) hs

theorem pinned_of_append (h : t.Pinned spec range [] []) {ms : List Message}
    (hms : ∀ m ∈ ms, m.op ≠ .resetWorkers) {front back : List (Step τ)}
    (hrun : t.run ms = .ok (front ++ back)) :
    (t.finish front).Pinned spec range (Step.taken .add front) (Step.taken .get front) := by
  have hmessages := messages_of_run hrun
  rw [List.map_append] at hmessages
  refine pinned_of_run h ?_ (run_of_append hrun).1
  intro m hm
  exact hms m (hmessages ▸ List.mem_append_left _ hm)

/-! ### Behind a barrier -/

theorem late_of_barrier (hs : t.Serves spec range) (hgate : t.gate = .barrier) :
    ∀ e ∈ t.slice.waiting.entries, e.2.op = .add → e.1 = e.2.clock ∧ t.slice.minClock < e.1 := by
  intro e he hadd
  have hdue := (hs.parked e he).due
  have hshut := hs.shut e he
  rw [hgate] at hdue
  simp only [hgate, Gate.passes, Gate.early, Bool.or_false, decide_eq_false_iff_not,
    UInt64.not_le] at hshut
  exact ⟨hdue, by rw [hdue]; exact hshut⟩

/-- Updates wait nowhere but behind a barrier, so those that do are beyond the minimum. -/
theorem late_of_asking (hs : t.Serves spec range) :
    ∀ m ∈ t.slice.waiting.asking .add, t.slice.minClock < m.clock := by
  intro m hm
  obtain ⟨e, he, rfl⟩ := List.mem_map.mp hm
  obtain ⟨he, hadd⟩ := List.mem_filter.mp he
  have hgate : t.gate = .barrier := by
    rcases (hs.parked e he).fit with hget | hparked
    · simp [hget.1] at hadd
    · exact hparked.2.1
  obtain ⟨hclock, hlate⟩ := late_of_barrier hs hgate e he (of_decide_eq_true hadd)
  rw [← hclock]
  exact hlate

/-- **Behind a barrier**, the updates that the minimum has reached are in the store and the others
are not. -/
theorem reached_of_barrier (hs : t.Serves spec range)
    (hall : (landed ++ t.slice.waiting.asking .add).Perm adds)
    (hreached : ∀ m ∈ landed, m.clock ≤ t.slice.minClock) :
    landed.Perm (adds.filter fun m => decide (m.clock ≤ t.slice.minClock)) ∧
      (t.slice.waiting.asking .add).Perm
        (adds.filter fun m => decide (t.slice.minClock < m.clock)) := by
  have hlate := late_of_asking hs
  constructor
  · have hperm := hall.filter fun m => decide (m.clock ≤ t.slice.minClock)
    rw [List.filter_append, List.filter_eq_self.mpr (by simpa using hreached),
      List.filter_eq_nil_iff.mpr (by simpa using hlate), List.append_nil] at hperm
    exact hperm
  · have hperm := hall.filter fun m => decide (t.slice.minClock < m.clock)
    rw [List.filter_append, List.filter_eq_nil_iff.mpr (by simpa using hreached),
      List.filter_eq_self.mpr (by simpa using hlate), List.nil_append] at hperm
    exact hperm

theorem landed_of_barrier (hs : t.Serves spec range) (hgate : t.gate = .barrier)
    (h : t.Balance range landed adds) :
    landed.Perm (adds.filter fun m => decide (m.clock ≤ t.slice.minClock)) ∧
      (t.slice.waiting.asking .add).Perm
        (adds.filter fun m => decide (t.slice.minClock < m.clock)) :=
  reached_of_barrier hs h.all (h.reached hgate)

end ParamServer.Tablet
