import ParamServer.Proofs.Lists
import ParamServer.Proofs.Slice
import ParamServer.Proofs.Waitlist
import ParamServer.Proofs.WriteLog
import ParamServer.Tablet

/-!
# What a message can do to a tablet

`Tablet.Move` lists the seven things that an accepted message can do, and `move_of_handle` says that
there is no eighth. Later arguments go by cases on a move and never look into `Tablet.handle` again.

A tablet is *sound* when its store and log reach as far as its range and all that waits could be
carried out. That is what makes every refusal a refusal at the door: behind it nothing fails, so a
refused message leaves the tablet as it was (`eq_of_handle_error`).
-/

namespace ParamServer

namespace Gate

/-- A write log must reach as far as the range. -/
def Covers (range : Interval) : Gate → Prop
  | .speculative _ _ log => log.Covers range
  | _ => True

/-- Stamps an update, where there is a log. -/
def note (g : Gate) (m : Message) : Gate :=
  match g with
  | .speculative staleness threshold log =>
    match log.recordAll m.sender m.clock m.keyList with
    | .ok _ log => .speculative staleness threshold log
    | _ => g
  | _ => g

/-- Forgets the writes below `low`, where there is a log. -/
def forget (g : Gate) (low : Clock) : Gate :=
  match g with
  | .speculative staleness threshold log => .speculative staleness threshold (log.forgetBelow low)
  | _ => g

@[simp]
theorem due_note (g : Gate) (m : Message) : (g.note m).due = g.due := by
  cases g with
  | speculative staleness threshold log =>
    rw [note]
    split <;> rfl
  | _ => rfl

@[simp]
theorem due_forget (g : Gate) (low : Clock) : (g.forget low).due = g.due := by
  cases g <;> rfl

/-- What becomes of a log does not depend on the bounds beside it. -/
theorem exists_note_eq (log : WriteLog) (m : Message) :
    ∃ log', ∀ staleness threshold,
      (speculative staleness threshold log).note m = .speculative staleness threshold log' := by
  cases hlog : log.recordAll m.sender m.clock m.keyList with
  | ok _ log' => exact ⟨log', fun _ _ => by simp only [note, hlog]⟩
  | _ => exact ⟨log, fun _ _ => by simp only [note, hlog]⟩

theorem covers_forget {g : Gate} {range : Interval} (hcovers : g.Covers range) (low : Clock) :
    (g.forget low).Covers range := by
  cases g with
  | speculative staleness threshold log => exact WriteLog.covers_forgetBelow hcovers low
  | _ => trivial

theorem note_of_covers {g : Gate} {range : Interval} (hcovers : g.Covers range) {m : Message}
    (hreads : m.ReadsIn range) :
    (g.note m).Covers range ∧ ∀ read, (g.note m).early read = true → g.early read = true := by
  cases g with
  | speculative staleness threshold log =>
    obtain ⟨log', hlog, hcovers', hgrow⟩ :=
      WriteLog.recordAll_of_covers hcovers hreads.inside m.sender m.clock
    have hnote : (speculative staleness threshold log).note m =
        .speculative staleness threshold log' := by
      rw [note, hlog]
    rw [hnote]
    refine ⟨hcovers', ?_⟩
    intro read hearly
    unfold early at hearly ⊢
    cases hkeys : read.keys with
    | error why => simp [hkeys] at hearly
    | ok keys =>
      simp only [hkeys, Bool.and_eq_true, List.all_eq_true, decide_eq_true_eq] at hearly ⊢
      exact ⟨hearly.1, fun key hkey => Nat.lt_of_le_of_lt (hgrow key read.sender)
        (hearly.2 key hkey)⟩
  | _ => exact ⟨trivial, fun _ h => h⟩

end Gate

theorem Store.addAll_append {τ : ScalarType} (s : Store τ) (front back : List (Key × τ.Value)) :
    s.addAll (front ++ back) = (s.addAll front).bind fun _ s => s.addAll back := by
  induction front generalizing s with
  | nil => rfl
  | cons head rest ih =>
    rw [List.cons_append, addAll, addAll]
    cases s.add head.1 head.2 with
    | ok _ s => exact ih s
    | error why s => rfl
    | fault why => rfl

namespace Tablet

variable {τ : ScalarType}

/-- A message that waits as it should: under the minimum it is due at, and fit to be carried out.
Only behind a barrier do updates wait. -/
structure Parked (t : Tablet τ) (e : Clock × Message) : Prop where
  due : e.1 = t.gate.due e.2.clock
  gated : t.gate ≠ .open
  fit : (e.2.op = .get ∧ e.2.ReadsIn t.slice.range) ∨
    (e.2.op = .add ∧ t.gate = .barrier ∧ e.2.AddsIn τ t.slice.range)

structure Sound (t : Tablet τ) : Prop where
  store : t.slice.store.Covers t.slice.range
  gate : t.gate.Covers t.slice.range
  parked : ∀ e ∈ t.slice.waiting.entries, t.Parked e

/-- Who the workers are and where they have got to is no matter. -/
theorem Sound.moved {t : Tablet τ} (hs : t.Sound) (roster : Roster) :
    Sound ⟨{ t.slice with roster }, t.gate⟩ :=
  ⟨hs.store, hs.gate, fun e he =>
    ⟨(hs.parked e he).due, (hs.parked e he).gated, (hs.parked e he).fit⟩⟩

/-- Without a barrier only reads wait. -/
theorem Sound.reads {t : Tablet τ} (hs : t.Sound) (hgate : t.gate ≠ .barrier) :
    ∀ e ∈ t.slice.waiting.entries, e.2.op = .get ∧ e.2.ReadsIn t.slice.range := by
  intro e he
  rcases (hs.parked e he).fit with hget | hadd
  · exact hget
  · exact absurd hadd.2.1 hgate

/-- What waits could not go ahead now. -/
def Shut (t : Tablet τ) : Prop :=
  ∀ e ∈ t.slice.waiting.entries, t.gate.passes t.slice.minClock e.2 = false

/-- What a risen minimum lets go of. -/
def freed (t : Tablet τ) (low : Clock) : List (Clock × Message) :=
  t.slice.waiting.entries.filter fun e => (t.gate.forget low).passes low e.2

/-- What a risen minimum does: all that may go ahead now is gone, its updates are in the store and
its reads are answered from it. -/
structure Release (t : Tablet τ) (low : Clock) (replies : List Message) (t' : Tablet τ) :
    Prop where
  frame : ∃ store waiting, t' = ⟨{ t.slice with store, waiting }, t.gate.forget low⟩
  kept : t'.slice.waiting.entries =
    t.slice.waiting.entries.filter fun e => !(t.gate.forget low).passes low e.2
  added : t.slice.store.addAll
    (((t.freed low).filter fun e => e.2.op = .add).flatMap fun e => e.2.updates τ) =
      .ok () t'.slice.store
  answered : replies.Perm
    (((t.freed low).filter fun e => e.2.op = .get).map fun e => e.2.answerFrom t'.slice.store)

/-- What an accepted message can do. -/
inductive Move (t : Tablet τ) (m : Message) : List Message → Tablet τ → Prop
  | apply {roster : Roster} {store : Store τ} (hop : m.op = .add)
      (hadds : m.AddsIn τ t.slice.range) (henrol : t.slice.roster.enrol m.sender = .ok roster)
      (hgate : t.gate = .barrier → m.clock ≤ roster.minClock)
      (hstore : t.slice.store.addAll (m.updates τ) = .ok () store) :
      Move t m [] ⟨{ t.slice with roster, store }, t.gate.note m⟩
  | park {roster : Roster} (hop : m.op = .add)
      (hadds : m.AddsIn τ t.slice.range) (henrol : t.slice.roster.enrol m.sender = .ok roster)
      (hgate : t.gate = .barrier) (hlate : roster.minClock < m.clock) :
      Move t m []
        ⟨{ t.slice with roster, waiting := t.slice.waiting.park m.clock m }, t.gate⟩
  | answer {roster : Roster} (hop : m.op = .get)
      (hreads : m.ReadsIn t.slice.range) (henrol : t.slice.roster.enrol m.sender = .ok roster)
      (hpasses : t.gate.passes roster.minClock m = true) :
      Move t m [m.answerFrom t.slice.store] ⟨{ t.slice with roster }, t.gate⟩
  | wait {roster : Roster} (hop : m.op = .get)
      (hreads : m.ReadsIn t.slice.range) (henrol : t.slice.roster.enrol m.sender = .ok roster)
      (hpasses : t.gate.passes roster.minClock m = false) :
      Move t m []
        ⟨{ t.slice with roster, waiting := t.slice.waiting.park (t.gate.due m.clock) m }, t.gate⟩
  | tick {roster : Roster} (hop : m.op = .clock)
      (hadvance : t.slice.roster.advance m.sender m.clock = .ok (none, roster)) :
      Move t m [] ⟨{ t.slice with roster }, t.gate⟩
  | release {roster : Roster} {low : Clock} {replies : List Message} {t' : Tablet τ}
      (hop : m.op = .clock)
      (hadvance : t.slice.roster.advance m.sender m.clock = .ok (some low, roster))
      (hrelease : Release ⟨{ t.slice with roster }, t.gate⟩ low replies t') :
      Move t m replies t'
  | close {keys : List Key} {workers : List ThreadId} (hop : m.op = .resetWorkers)
      (hkeys : m.keys = .ok keys) (hworkers : keys.mapM Slice.workerId = .ok workers) :
      Move t m [m.reply] ⟨{ t.slice with roster := t.slice.roster.reset workers }, t.gate⟩

/-! ### Letting go -/

theorem applyAll_of_addsIn {s : Slice τ} (hcovers : s.store.Covers s.range) {ms : List Message}
    (hadds : ∀ m ∈ ms, m.AddsIn τ s.range) :
    (∃ store, s.store.addAll (ms.flatMap (·.updates τ)) = .ok () store ∧
      applyAll s ms = .ok { s with store }) ∨
    ∃ why, s.store.addAll (ms.flatMap (·.updates τ)) = .fault why ∧ applyAll s ms = .error why := by
  induction ms generalizing s with
  | nil => exact Or.inl ⟨s.store, rfl, rfl⟩
  | cons m rest ih =>
    have hm := hadds m (List.mem_cons_self ..)
    have happly := Slice.applyAdd_of_addsIn hm
    rw [List.flatMap_cons, Store.addAll_append, applyAll, happly]
    rcases Store.addAll_of_covers hcovers hm.inside_updates with
      ⟨mid, hmid, hcovers', -⟩ | ⟨why, hwhy, -⟩
    · rw [hmid]
      exact ih (s := { s with store := mid }) hcovers' fun m hm =>
        hadds m (List.mem_cons_of_mem _ hm)
    · rw [hwhy]
      exact Or.inr ⟨why, rfl, rfl⟩

theorem passes_of_parked {t : Tablet τ} {e : Clock × Message} (h : t.Parked e) (low : Clock) :
    (t.gate.forget low).passes low e.2 =
      (decide (e.1 ≤ low) || (t.gate.forget low).early e.2) := by
  rw [Gate.passes, Gate.due_forget, h.due]

theorem freed_of_not_early {t : Tablet τ} (hs : t.Sound) (low : Clock)
    (hearly : ∀ m, (t.gate.forget low).early m = false) :
    t.freed low = t.slice.waiting.entries.filter (fun e => decide (e.1 ≤ low)) ∧
    (t.slice.waiting.takeThrough low).2.entries =
      t.slice.waiting.entries.filter fun e => !(t.gate.forget low).passes low e.2 := by
  rw [Waitlist.takeThrough_snd]
  constructor
  · apply List.filter_congr
    intro e he
    rw [passes_of_parked (hs.parked e he), hearly, Bool.or_false]
  · apply List.filter_congr
    intro e he
    rw [passes_of_parked (hs.parked e he), hearly, Bool.or_false, ← decide_not]
    simp only [UInt64.not_le]

/-- Where only reads wait, letting go of them leaves the store alone. -/
theorem release_of_reads {t : Tablet τ} (hs : t.Sound) {low : Clock} (hgate : t.gate ≠ .barrier)
    (waiting : Waitlist) (freed : List Message)
    (hkept : waiting.entries =
      t.slice.waiting.entries.filter fun e => !(t.gate.forget low).passes low e.2)
    (hfreed : freed.Perm ((t.freed low).map (·.2))) :
    t.Release low (Slice.answerAll { t.slice with waiting } freed)
      ⟨{ t.slice with waiting }, t.gate.forget low⟩ := by
  have hreads : ∀ e ∈ t.freed low, e.2.op = .get ∧ e.2.ReadsIn t.slice.range := fun e he =>
    hs.reads hgate e (List.mem_filter.mp he).1
  have hadds : (t.freed low).filter (fun e => e.2.op = .add) = [] :=
    filter_of_forall_ne fun e he => by simp [(hreads e he).1]
  have hgets : (t.freed low).filter (fun e => e.2.op = .get) = t.freed low :=
    filter_of_forall_eq fun e he => (hreads e he).1
  have hanswers : Slice.answerAll { t.slice with waiting } freed =
      freed.map (·.answerFrom t.slice.store) := by
    refine Slice.answerAll_of_readsIn hs.store ?_
    intro m hm
    obtain ⟨e, he, rfl⟩ := List.mem_map.mp (hfreed.mem_iff.mp hm)
    exact (hreads e he).2
  refine ⟨⟨t.slice.store, waiting, rfl⟩, hkept, by rw [hadds]; rfl, ?_⟩
  rw [hgets, hanswers]
  have hperm := hfreed.map (·.answerFrom t.slice.store)
  rwa [List.map_map] at hperm

/-- What is freed adds to keys of the range only. -/
theorem inside_freed {t : Tablet τ} (hs : t.Sound) (low : Clock) :
    ∀ pair ∈ ((t.freed low).filter fun e => e.2.op = .add).flatMap fun e => e.2.updates τ,
      pair.1 ∈ t.slice.range := by
  intro pair hpair
  obtain ⟨e, he, hpair⟩ := List.mem_flatMap.mp hpair
  obtain ⟨he, hadd⟩ := List.mem_filter.mp he
  rcases (hs.parked e (List.mem_filter.mp he).1).fit with hget | hfit
  · simp [hget.1] at hadd
  · exact hfit.2.2.inside_updates pair hpair

/-- Behind a barrier the freed updates come first, and the freed reads see them. -/
theorem release_barrier_cases {t : Tablet τ} (hs : t.Sound) (hgate : t.gate = .barrier)
    (low : Clock) :
    let updates := ((t.freed low).filter fun e => e.2.op = .add).flatMap fun e => e.2.updates τ
    (∃ store, t.slice.store.addAll updates = .ok () store ∧
      t.release low = .ok
        (((t.freed low).filter fun e => e.2.op = .get).map fun e => e.2.answerFrom store)
        ⟨{ t.slice with store, waiting := (t.slice.waiting.takeThrough low).2 }, .barrier⟩) ∨
    ∃ why, t.slice.store.addAll updates = .fault why ∧ t.release low = .fault why := by
  intro updates
  let waiting := (t.slice.waiting.takeThrough low).2
  let due := (t.freed low).map (·.2)
  have hdue : (t.slice.waiting.takeThrough low).1 = due := by
    rw [Waitlist.takeThrough_fst, ← (freed_of_not_early hs low fun m => by rw [hgate]; rfl).1]
  have hparked : ∀ m ∈ due, (m.op = .get ∧ m.ReadsIn t.slice.range) ∨
      (m.op = .add ∧ t.gate = .barrier ∧ m.AddsIn τ t.slice.range) := by
    intro m hm
    obtain ⟨e, he, rfl⟩ := List.mem_map.mp hm
    exact (hs.parked e (List.mem_filter.mp he).1).fit
  have hadds : ∀ m ∈ due.filter (·.op = .add), m.AddsIn τ t.slice.range := by
    intro m hm
    obtain ⟨hm, hop⟩ := List.mem_filter.mp hm
    rcases hparked m hm with hget | hadd
    · simp [hget.1] at hop
    · exact hadd.2.2
  have hgets : due.filter (fun m => !decide (m.op = .add)) = due.filter (·.op = .get) := by
    apply List.filter_congr
    intro m hm
    rcases hparked m hm with hget | hadd
    · simp [hget.1]
    · simp [hadd.1]
  have hreads : ∀ m ∈ due.filter (·.op = .get), m.ReadsIn t.slice.range := by
    intro m hm
    obtain ⟨hm, hop⟩ := List.mem_filter.mp hm
    rcases hparked m hm with hget | hadd
    · exact hget.2
    · simp [hadd.1] at hop
  have hupdates : (due.filter (·.op = .add)).flatMap (·.updates τ) = updates := by
    rw [List.filter_map, List.flatMap_map]
    rfl
  have hparts : due.partition (·.op = .add) =
      (due.filter (·.op = .add), due.filter (·.op = .get)) := by
    rw [List.partition_eq_filter_filter]
    exact congrArg (Prod.mk _) hgets
  unfold release
  simp only [hgate, hdue, hparts]
  rcases applyAll_of_addsIn (s := { t.slice with waiting }) hs.store hadds with
    ⟨store, hstore, happly⟩ | ⟨why, hfault, happly⟩
  · left
    rw [hupdates] at hstore
    obtain ⟨hcovers, -⟩ := Store.addAll_ok hs.store (inside_freed hs low) hstore
    refine ⟨store, hstore, ?_⟩
    have hanswers : Slice.answerAll { t.slice with waiting, store } (due.filter (·.op = .get)) =
        ((t.freed low).filter fun e => e.2.op = .get).map fun e => e.2.answerFrom store := by
      rw [Slice.answerAll_of_readsIn (s := { t.slice with waiting, store }) hcovers hreads,
        List.filter_map, List.map_map]
      rfl
    simp only [waiting] at happly hanswers
    simp only [happly, hanswers]
  · right
    rw [hupdates] at hfault
    simp only [waiting] at happly
    exact ⟨why, hfault, by simp only [happly]⟩

theorem release_of_addAll_ok {t : Tablet τ} (hs : t.Sound) (hgate : t.gate = .barrier) {low : Clock}
    {store : Store τ}
    (h : t.slice.store.addAll
      (((t.freed low).filter fun e => e.2.op = .add).flatMap fun e => e.2.updates τ) =
        .ok () store) :
    t.release low = .ok
      (((t.freed low).filter fun e => e.2.op = .get).map fun e => e.2.answerFrom store)
      ⟨{ t.slice with store, waiting := (t.slice.waiting.takeThrough low).2 }, .barrier⟩ := by
  rcases release_barrier_cases hs hgate low with ⟨store', hstore, hrelease⟩ | ⟨why, hfault, -⟩
  · rw [h] at hstore
    cases hstore
    exact hrelease
  · rw [h] at hfault
    cases hfault

theorem release_of_addAll_fault {t : Tablet τ} (hs : t.Sound) (hgate : t.gate = .barrier)
    {low : Clock} {why : Fault}
    (h : t.slice.store.addAll
      (((t.freed low).filter fun e => e.2.op = .add).flatMap fun e => e.2.updates τ) =
        .fault why) :
    t.release low = .fault why := by
  rcases release_barrier_cases hs hgate low with ⟨store, hstore, -⟩ | ⟨why', hfault, hrelease⟩
  · rw [h] at hstore
    cases hstore
  · rw [h] at hfault
    cases hfault
    exact hrelease

theorem release_of_barrier {t t' : Tablet τ} (hs : t.Sound) {low : Clock}
    {replies : List Message} (hgate : t.gate = .barrier)
    (h : t.release low = .ok replies t') : t.Release low replies t' := by
  rcases release_barrier_cases hs hgate low with ⟨store, hstore, hrelease⟩ | ⟨why, -, hrelease⟩
  · rw [hrelease] at h
    cases h
    refine ⟨⟨store, _, by rw [hgate]; rfl⟩, ?_, hstore, List.Perm.refl _⟩
    exact (freed_of_not_early hs low fun m => by rw [hgate]; rfl).2
  · rw [hrelease] at h
    cases h

theorem release_of_sound {t t' : Tablet τ} (hs : t.Sound) {low : Clock} {replies : List Message}
    (hopen : t.gate = .open → t.slice.waiting.entries = [])
    (h : t.release low = .ok replies t') : t.Release low replies t' := by
  obtain ⟨slice, gate⟩ := t
  cases gate with
  | «open» =>
    cases h
    have hnil := hopen rfl
    refine release_of_reads hs (by simp) slice.waiting [] ?_ ?_
    · simp only [hnil, List.filter_nil]
    · simp [freed, hnil]
  | barrier => exact release_of_barrier hs rfl h
  | bounded staleness =>
    obtain ⟨hfreed, hkept⟩ := freed_of_not_early hs low fun _ => rfl
    obtain ⟨rfl, rfl⟩ := Outcome.ok.inj h
    refine release_of_reads hs (by simp) _ _ hkept ?_
    rw [hfreed]
    exact List.Perm.of_eq (Waitlist.takeThrough_fst ..)
  | speculative staleness threshold log =>
    obtain ⟨rfl, rfl⟩ := Outcome.ok.inj h
    let gate := (Gate.speculative staleness threshold log).forget low
    let due := slice.waiting.takeThrough low
    let quiet := due.2.takeWhere gate.early
    have hpasses : ∀ e ∈ slice.waiting.entries,
        gate.passes low e.2 = (decide (e.1 ≤ low) || gate.early e.2) := fun e he =>
      passes_of_parked (hs.parked e he) low
    have hlater : due.2.entries = slice.waiting.entries.filter fun e => decide (low < e.1) :=
      Waitlist.takeThrough_snd ..
    have hkept : quiet.2.entries = slice.waiting.entries.filter fun e => !gate.passes low e.2 := by
      rw [Waitlist.takeWhere_snd, hlater, List.filter_filter]
      apply List.filter_congr
      intro e he
      rw [hpasses e he, Bool.not_or, ← decide_not, Bool.and_comm]
      simp only [UInt64.not_le]
    refine release_of_reads hs (by simp) _ _ hkept ?_
    change (due.1 ++ quiet.1).Perm
      ((slice.waiting.entries.filter fun e => gate.passes low e.2).map (·.2))
    rw [Waitlist.takeThrough_fst, Waitlist.takeWhere_fst, ← List.map_append, hlater,
      List.filter_congr hpasses]
    apply List.Perm.map
    have hnot : (fun e : Clock × Message => decide (low < e.1)) = fun e => !decide (e.1 ≤ low) := by
      funext e
      rw [← decide_not]
      simp only [UInt64.not_le]
    rw [hnot]
    exact filter_or_perm _ _ _

theorem release_ne_error (t t' : Tablet τ) (low : Clock) (why : Error) :
    t.release low ≠ .error why t' := by
  obtain ⟨slice, gate⟩ := t
  intro h
  cases gate with
  | barrier =>
    unfold release at h
    simp only at h
    split at h <;> cases h
  | _ => cases h

/-- Where no update waits, letting go changes what waits and what is logged, and nothing else. -/
theorem exists_release_eq {t : Tablet τ} (hgate : t.gate ≠ .barrier) (low : Clock) :
    ∃ replies waiting, t.release low = .ok replies ⟨{ t.slice with waiting }, t.gate.forget low⟩ := by
  obtain ⟨slice, gate⟩ := t
  cases gate with
  | barrier => exact absurd rfl hgate
  | _ => exact ⟨_, _, rfl⟩

/-! ### There is no eighth move -/

section Cases

variable {t : Tablet τ} (hs : t.Sound) (m : Message)

include hs

/-- A sound update that nothing holds back lands, and is stamped. -/
theorem onAdd_eq (hadds : m.AddsIn τ t.slice.range) {roster : Roster}
    (henrol : t.slice.roster.enrol m.sender = .ok roster)
    (hgate : t.gate = .barrier → m.clock ≤ roster.minClock) :
    t.onAdd m = (t.slice.store.addAll (m.updates τ)).mapState fun store =>
      ⟨{ t.slice with roster, store }, t.gate.note m⟩ := by
  have haccept := Slice.acceptAdd_eq_ok_iff.mpr ⟨hadds, roster, henrol, rfl⟩
  have happly := Slice.applyAdd_of_addsIn (s := { t.slice with roster }) hadds
  have hkeys : Slice.keysOf m = .ok m.keyList := by
    rw [Slice.keysOf, hadds.keys_eq]
    rfl
  rcases Store.addAll_of_covers hs.store hadds.inside_updates with
    ⟨store, hstore, -, -⟩ | ⟨why, hfault, -⟩
  · cases hrule : t.gate with
    | barrier =>
      simp only [onAdd, haccept, hrule, Slice.minClock, if_pos (hgate hrule), happly, hstore]
      rfl
    | speculative staleness threshold log =>
      have hcovers : log.Covers t.slice.range := by
        have hcovers := hs.gate
        rwa [hrule] at hcovers
      obtain ⟨log', hlog, -, -⟩ :=
        WriteLog.recordAll_of_covers hcovers hadds.inside m.sender m.clock
      simp only [onAdd, haccept, hrule, happly, hstore, Outcome.mapState, Outcome.bind, hkeys, hlog,
        Gate.note]
    | _ =>
      simp only [onAdd, haccept, hrule, happly, hstore]
      rfl
  · cases hrule : t.gate with
    | barrier =>
      simp only [onAdd, haccept, hrule, Slice.minClock, if_pos (hgate hrule), happly, hfault]
      rfl
    | _ =>
      simp only [onAdd, haccept, hrule, happly, hfault]
      rfl

omit hs in
/-- A sound update from beyond a barrier waits. -/
theorem onAdd_eq_park (hadds : m.AddsIn τ t.slice.range) {roster : Roster}
    (henrol : t.slice.roster.enrol m.sender = .ok roster) (hgate : t.gate = .barrier)
    (hlate : roster.minClock < m.clock) :
    t.onAdd m = .ok ()
      ⟨{ t.slice with roster, waiting := t.slice.waiting.park m.clock m }, t.gate⟩ := by
  have haccept := Slice.acceptAdd_eq_ok_iff.mpr ⟨hadds, roster, henrol, rfl⟩
  simp only [onAdd, haccept, Slice.minClock, hgate]
  exact if_neg (UInt64.not_le.mpr hlate)

theorem onAdd_cases (hop : m.op = .add) :
    (∃ why, t.slice.acceptAdd m = .error why ∧ t.onAdd m = .error why t) ∨
      (∃ why, t.onAdd m = .fault why) ∨ ∃ t', t.onAdd m = .ok () t' ∧ t.Move m [] t' := by
  cases haccept : t.slice.acceptAdd m with
  | error why => exact Or.inl ⟨why, rfl, by rw [onAdd, haccept]⟩
  | ok slice =>
    obtain ⟨hadds, roster, henrol, rfl⟩ := Slice.acceptAdd_eq_ok_iff.mp haccept
    right
    by_cases hgate : t.gate = .barrier → m.clock ≤ roster.minClock
    · rw [onAdd_eq hs m hadds henrol hgate]
      rcases Store.addAll_of_covers hs.store hadds.inside_updates with
        ⟨store, hstore, -, -⟩ | ⟨why, hfault, -⟩
      · exact Or.inr ⟨_, by rw [hstore]; rfl, .apply hop hadds henrol hgate hstore⟩
      · exact Or.inl ⟨why, by rw [hfault]; rfl⟩
    · obtain ⟨hgate, hlate⟩ := Classical.not_imp.mp hgate
      have hlate := UInt64.not_le.mp hlate
      exact Or.inr ⟨_, onAdd_eq_park m hadds henrol hgate hlate,
        .park hop hadds henrol hgate hlate⟩

/-- A sound read is answered if the gate is open to it, and otherwise waits. -/
theorem onGet_eq (hreads : m.ReadsIn t.slice.range) {roster : Roster}
    (henrol : t.slice.roster.enrol m.sender = .ok roster) :
    t.onGet m =
      if t.gate.passes roster.minClock m then
        .ok (some (m.answerFrom t.slice.store)) ⟨{ t.slice with roster }, t.gate⟩
      else
        .ok none ⟨{ t.slice with
          roster, waiting := t.slice.waiting.park (t.gate.due m.clock) m }, t.gate⟩ := by
  have haccept := Slice.acceptGet_eq_ok_iff.mpr ⟨hreads, roster, henrol, rfl⟩
  have hanswer := Slice.answer_of_readsIn (s := { t.slice with roster }) hs.store hreads
  simp only [onGet, haccept, Slice.minClock, hanswer]
  rfl

theorem onGet_cases (hop : m.op = .get) :
    (∃ why, t.slice.acceptGet m = .error why ∧ t.onGet m = .error why t) ∨
      ∃ reply t', t.onGet m = .ok reply t' ∧ t.Move m reply.toList t' := by
  cases haccept : t.slice.acceptGet m with
  | error why => exact Or.inl ⟨why, rfl, by rw [onGet, haccept]⟩
  | ok slice =>
    obtain ⟨hreads, roster, henrol, rfl⟩ := Slice.acceptGet_eq_ok_iff.mp haccept
    right
    rw [onGet_eq hs m hreads henrol]
    by_cases hpasses : t.gate.passes roster.minClock m = true
    · rw [if_pos hpasses]
      exact ⟨_, _, rfl, .answer hop hreads henrol hpasses⟩
    · rw [if_neg hpasses]
      exact ⟨_, _, rfl, .wait hop hreads henrol (Bool.not_eq_true _ ▸ hpasses)⟩

theorem onClock_cases (hop : m.op = .clock) :
    (∃ why, t.onClock m = .error why t) ∨ (∃ why, t.onClock m = .fault why) ∨
      ∃ replies t', t.onClock m = .ok replies t' ∧ t.Move m replies t' := by
  unfold onClock
  cases hadvance : t.slice.roster.advance m.sender m.clock with
  | error why => exact Or.inl ⟨why, rfl⟩
  | ok advanced =>
    obtain ⟨risen, roster⟩ := advanced
    right
    cases risen with
    | none => exact Or.inr ⟨[], _, rfl, .tick hop hadvance⟩
    | some low =>
      let moved : Tablet τ := ⟨{ t.slice with roster }, t.gate⟩
      have hmoved : moved.Sound := hs.moved roster
      have hopen : moved.gate = .open → moved.slice.waiting.entries = [] := by
        intro hgate
        rw [List.eq_nil_iff_forall_not_mem]
        exact fun e he => (hs.parked e he).gated hgate
      cases hrelease : moved.release low with
      | ok replies t' =>
        right
        exact ⟨replies, t', hrelease, .release hop hadvance
          (release_of_sound hmoved hopen hrelease)⟩
      | error why t' => exact (release_ne_error _ _ _ _ hrelease).elim
      | fault why =>
        left
        exact ⟨why, hrelease⟩

/-- **There is no eighth move.** A sound tablet refuses a message and is as before, or faults, or
makes one of the moves. -/
theorem handle_cases :
    (∃ why, t.handle m = .error why t) ∨ (∃ why, t.handle m = .fault why) ∨
      ∃ replies t', t.handle m = .ok replies t' ∧ t.Move m replies t' := by
  unfold handle
  cases hop : m.op with
  | add =>
    rcases onAdd_cases hs m hop with ⟨why, -, h⟩ | ⟨why, h⟩ | ⟨t', h, hmove⟩
    · exact Or.inl ⟨why, by simp only [h]; rfl⟩
    · exact Or.inr (Or.inl ⟨why, by simp only [h]; rfl⟩)
    · exact Or.inr (Or.inr ⟨[], t', by simp only [h]; rfl, hmove⟩)
  | get =>
    rcases onGet_cases hs m hop with ⟨why, -, h⟩ | ⟨reply, t', h, hmove⟩
    · exact Or.inl ⟨why, by simp only [h]; rfl⟩
    · exact Or.inr (Or.inr ⟨reply.toList, t', by simp only [h]; rfl, hmove⟩)
  | clock => exact onClock_cases hs m hop
  | response => exact Or.inl ⟨_, rfl⟩
  | resetWorkers =>
    simp only [onReset, Slice.resetWorkers, Slice.keysOf]
    cases hkeys : m.keys with
    | error why => exact Or.inl ⟨_, rfl⟩
    | ok keys =>
      cases hworkers : keys.mapM Slice.workerId with
      | error why => exact Or.inl ⟨why, by simp [bind, Except.bind, hworkers]; rfl⟩
      | ok workers =>
        refine Or.inr (Or.inr ⟨[m.reply], _, ?_, .close hop hkeys hworkers⟩)
        simp [bind, Except.bind, hworkers, pure, Except.pure]
        rfl

theorem move_of_handle {replies : List Message} {t' : Tablet τ}
    (h : t.handle m = .ok replies t') : t.Move m replies t' := by
  rcases handle_cases hs m with ⟨why, hcase⟩ | ⟨why, hcase⟩ | ⟨_, _, hcase, hmove⟩
  · rw [h] at hcase
    cases hcase
  · rw [h] at hcase
    cases hcase
  · rw [h] at hcase
    cases hcase
    exact hmove

theorem eq_of_handle_error {why : Error} {t' : Tablet τ} (h : t.handle m = .error why t') :
    t' = t := by
  rcases handle_cases hs m with ⟨why, hcase⟩ | ⟨why, hcase⟩ | ⟨_, _, hcase, -⟩
  · rw [h] at hcase
    cases hcase
    rfl
  · rw [h] at hcase
    cases hcase
  · rw [h] at hcase
    cases hcase

/-- A sound update, or a sound read, is not refused to a worker that the roster knows. -/
theorem handle_ne_error {clock : Clock} (hknown : t.slice.roster.clockOf? m.sender = some clock)
    (hfit : (m.op = .add ∧ m.AddsIn τ t.slice.range) ∨ (m.op = .get ∧ m.ReadsIn t.slice.range))
    (why : Error) (t' : Tablet τ) : t.handle m ≠ .error why t' := by
  have henrol := Roster.enrol_of_known hknown
  intro h
  unfold handle at h
  rcases hfit with ⟨hop, hadds⟩ | ⟨hop, hreads⟩
  · have haccept := Slice.acceptAdd_eq_ok_iff.mpr ⟨hadds, _, henrol, rfl⟩
    simp only [hop] at h
    rcases onAdd_cases hs m hop with ⟨why, herror, -⟩ | ⟨why, hcase⟩ | ⟨t', hcase, -⟩
    · rw [haccept] at herror
      cases herror
    · rw [hcase] at h
      cases h
    · rw [hcase] at h
      cases h
  · have haccept := Slice.acceptGet_eq_ok_iff.mpr ⟨hreads, _, henrol, rfl⟩
    simp only [hop] at h
    rcases onGet_cases hs m hop with ⟨why, herror, -⟩ | ⟨reply, t', hcase, -⟩
    · rw [haccept] at herror
      cases herror
    · rw [hcase] at h
      cases h

end Cases

/-- A clock is refused only where the roster refuses it. -/
theorem advance_of_refused {t t' : Tablet τ} {m : Message} (hop : m.op = .clock) {why : Error}
    (h : t.handle m = .error why t') :
    t.slice.roster.advance m.sender m.clock = .error why := by
  simp only [handle, hop, onClock] at h
  cases hadvance : t.slice.roster.advance m.sender m.clock with
  | error other =>
    rw [hadvance] at h
    rw [(Outcome.error.inj h).1]
  | ok advanced =>
    obtain ⟨risen, roster⟩ := advanced
    rw [hadvance] at h
    cases risen with
    | none => cases h
    | some low => exact (release_ne_error _ _ _ _ h).elim

/-! ### Messages that nothing holds up -/

/-- Where there is no gate, a sound update lands at once. -/
theorem handle_eq_apply {t : Tablet τ} {m : Message} (hop : m.op = .add) (hgate : t.gate = .open)
    (hadds : m.AddsIn τ t.slice.range) {roster : Roster}
    (henrol : t.slice.roster.enrol m.sender = .ok roster) {store : Store τ}
    (hstore : t.slice.store.addAll (m.updates τ) = .ok () store) :
    t.handle m = .ok [] ⟨{ t.slice with roster, store }, t.gate⟩ := by
  have haccept := Slice.acceptAdd_eq_ok_iff.mpr ⟨hadds, roster, henrol, rfl⟩
  have happly := Slice.applyAdd_of_addsIn (s := { t.slice with roster }) hadds
  simp only [handle, hop, onAdd, haccept, hgate, happly, hstore]
  rfl

/-- A sound read that passes the gate is answered at once. -/
theorem handle_eq_answer {t : Tablet τ} (hs : t.Sound) {m : Message} (hop : m.op = .get)
    (hreads : m.ReadsIn t.slice.range) {roster : Roster}
    (henrol : t.slice.roster.enrol m.sender = .ok roster)
    (hpasses : t.gate.passes roster.minClock m = true) :
    t.handle m = .ok [m.answerFrom t.slice.store] ⟨{ t.slice with roster }, t.gate⟩ := by
  simp only [handle, hop, onGet_eq hs m hreads henrol, if_pos hpasses]
  rfl

end Tablet

end ParamServer
