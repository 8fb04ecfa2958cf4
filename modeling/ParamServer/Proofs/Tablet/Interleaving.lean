import ParamServer.Proofs.Tablet.Answers
import ParamServer.Proofs.Tablet.Barrier
import ParamServer.Proofs.Tablet.Refusal

/-!
# The order between workers does not matter

Two runs of a closed tablet may take the same messages in different orders, as long as each
worker's own messages keep theirs. Step by step the runs have little in common: a read is answered
at once in one and much later in the other, an update lands or waits. They end alike, because how a
run ends can be told from the streams of the workers. Whether a message is taken in depends on its
sender's messages before it (`Message.sift`), and so does where the sender's clock gets to. The
clocks give the minimum, and the minimum says which of the messages that were taken in are through
and which wait (`Resolved`). What is through has been added up, and integers add up to the same in
any order.
-/

namespace ParamServer

variable {τ : ScalarType} {range : Interval}

/-! ### Adding up in any order -/

theorem Slots.ext_slot {α : Type} {slots slots' : Slots α range}
    (h : ∀ key (hkey : key ∈ range), slots.slot key hkey = slots'.slot key hkey) :
    slots = slots' := by
  apply Vector.ext
  intro i hi
  let key : Key := UInt64.ofNat (range.lo.toNat + i)
  have hwidth : i < range.hi.toNat - range.lo.toNat := hi
  have hkey : key.toNat = range.lo.toNat + i :=
    UInt64.toNat_ofNat_of_lt' (by have := range.hi.toNat_lt_size; omega)
  have hmem : key ∈ range := by
    rw [Interval.mem_iff, UInt64.le_iff_toNat_le, UInt64.lt_iff_toNat_lt]
    omega
  have hoffset : range.offset key = i := by
    rw [Interval.offset, hkey]
    omega
  have hslot := h key hmem
  simp only [Slots.slot, hoffset] at hslot
  exact hslot

namespace Store

/-- What takes up room for a key, if anything does. -/
def held? (s : Store τ) (key : Key) : Option τ.Value :=
  match s with
  | .sparse values => values.get? key
  | .dense range slots => if h : key ∈ range then some (slots.slot key h) else none

/-- The range that a store has slots for, if it has slots. -/
def slotted? : Store τ → Option Interval
  | .sparse _ => none
  | .dense range _ => some range

theorem ext_held? {s s' : Store τ} (hslotted : s.slotted? = s'.slotted?)
    (h : ∀ key, s.held? key = s'.held? key) : s = s' := by
  cases s with
  | sparse values =>
    cases s' with
    | sparse values' => exact congrArg sparse (SortedMap.ext_get? h)
    | dense => cases hslotted
  | dense slotted slots =>
    cases s' with
    | sparse => cases hslotted
    | dense slotted' slots' =>
      obtain rfl := Option.some.inj hslotted
      refine congrArg (dense slotted) (Slots.ext_slot fun key hkey => ?_)
      have hheld := h key
      simp only [held?, dif_pos hkey, Option.some.injEq] at hheld
      exact hheld

theorem held?_add {s s' : Store τ} {key : Key} {delta : τ.Value}
    (h : s.add key delta = .ok () s') :
    s'.slotted? = s.slotted? ∧ ∃ sum, τ.add ((s.held? key).getD τ.zero) delta = .ok sum ∧
      ∀ j, s'.held? j = if j = key then some sum else s.held? j := by
  cases s with
  | sparse values =>
    simp only [add] at h
    cases hsum : τ.add ((values.get? key).getD τ.zero) delta with
    | error why =>
      rw [hsum] at h
      cases h
    | ok sum =>
      rw [hsum] at h
      cases h
      refine ⟨rfl, sum, hsum, ?_⟩
      intro j
      simp only [held?, SortedMap.get?_insert]
      by_cases hj : j = key
      · rw [if_pos hj, if_pos (by rw [hj])]
      · rw [if_neg hj, if_neg fun hrank => hj (rank_inj hrank)]
  | dense slotted slots =>
    by_cases hkey : key ∈ slotted
    · cases hsum : τ.add (slots.slot key hkey) delta with
      | error why =>
        simp only [add, dif_pos hkey, hsum] at h
        cases h
      | ok sum =>
        simp only [add, dif_pos hkey, hsum] at h
        cases h
        refine ⟨rfl, sum, by simpa [held?, hkey] using hsum, ?_⟩
        intro j
        by_cases hj : j = key
        · subst hj
          simp [held?, hkey, Slots.slot_put]
        · by_cases hmem : j ∈ slotted
          · simp [held?, hmem, Slots.slot_put, hj]
          · simp [held?, hmem, hj]
    · simp only [add, dif_neg hkey] at h
      cases h

/-- **A batch, with the room it takes.** -/
theorem held?_addAll {s s' : Store τ} {pairs : List (Key × τ.Value)}
    (h : s.addAll pairs = .ok () s') :
    s'.slotted? = s.slotted? ∧ ∀ key, ∃ sum,
      (deltasAt key pairs).foldlM τ.add ((s.held? key).getD τ.zero) = .ok sum ∧
      s'.held? key = if (deltasAt key pairs).isEmpty then s.held? key else some sum := by
  induction pairs generalizing s with
  | nil =>
    cases h
    exact ⟨rfl, fun key => ⟨_, rfl, rfl⟩⟩
  | cons head rest ih =>
    obtain ⟨k, delta⟩ := head
    rw [addAll] at h
    cases hadd : s.add k delta with
    | error why mid =>
      rw [hadd] at h
      cases h
    | fault why =>
      rw [hadd] at h
      cases h
    | ok _ mid =>
      rw [hadd] at h
      obtain ⟨hslotted, sum, hsum, hheld⟩ := held?_add hadd
      obtain ⟨hslotted', hrest⟩ := ih h
      refine ⟨hslotted'.trans hslotted, ?_⟩
      intro key
      obtain ⟨total, hfold, htotal⟩ := hrest key
      by_cases hkey : k = key
      · subst hkey
        rw [hheld, if_pos rfl] at hfold htotal
        refine ⟨total, ?_, ?_⟩
        · rw [deltasAt_cons_self, List.foldlM_cons, hsum]
          exact hfold
        · rw [htotal, deltasAt_cons_self, List.isEmpty_cons, if_neg Bool.false_ne_true]
          cases hdeltas : deltasAt k rest with
          | nil =>
            rw [hdeltas] at hfold
            rw [← Except.ok.inj hfold]
            rfl
          | cons => rfl
      · have hother : mid.held? key = s.held? key := by
          rw [hheld, if_neg fun hsame => hkey hsame.symm]
        rw [hother] at hfold htotal
        rw [deltasAt_cons_of_ne hkey]
        exact ⟨total, hfold, htotal⟩

/-- **Integers add up to the same in any order**, where no sum on the way leaves the type. -/
theorem eq_of_addAll_perm {s s' s'' : Store .integer} {pairs pairs' : List (Key × Int64)}
    (hperm : pairs.Perm pairs') (h : s.addAll pairs = .ok () s')
    (h' : s.addAll pairs' = .ok () s'') : s' = s'' := by
  obtain ⟨hslotted, hheld⟩ := held?_addAll h
  obtain ⟨hslotted', hheld'⟩ := held?_addAll h'
  refine ext_held? (hslotted.trans hslotted'.symm) ?_
  intro key
  obtain ⟨sum, hsum, hat⟩ := hheld key
  obtain ⟨sum', hsum', hat'⟩ := hheld' key
  have hdeltas : (deltasAt key pairs).Perm (deltasAt key pairs') := (hperm.filter _).map _
  have hsame : sum = sum' := by
    apply Int64.toInt_inj.mp
    rw [ScalarType.toInt_foldlM hsum, ScalarType.toInt_foldlM hsum',
      (hdeltas.map Int64.toInt).sum_eq]
  have hempty : (deltasAt key pairs).isEmpty = (deltasAt key pairs').isEmpty := by
    rw [Bool.eq_iff_iff, List.isEmpty_iff, List.isEmpty_iff]
    exact ⟨fun hnil => (hnil ▸ hdeltas).nil_eq.symm, fun hnil => (hnil ▸ hdeltas).eq_nil⟩
  rw [hat, hat', hsame, hempty]

end Store

/-! ### Streams of workers -/

namespace Message

/-- What one worker sends, in its order. -/
def stream (worker : ThreadId) (ms : List Message) : List Message :=
  ms.filter fun m => decide (m.sender = worker)

instance (m : Message) (range : Interval) : Decidable (m.ReadsIn range) :=
  decidable_of_iff
    (m.keys = .ok m.keyList ∧ ascending m.keyList = true ∧
      (m.keyList.all fun key => decide (key ∈ range)) = true)
    ⟨fun h => ⟨h.1, h.2.1, fun key hkey => of_decide_eq_true (List.all_eq_true.mp h.2.2 key hkey)⟩,
      fun h => ⟨h.keys_eq, h.ascending,
        List.all_eq_true.mpr fun key hkey => decide_eq_true (h.inside key hkey)⟩⟩

theorem addsIn_iff {m : Message} :
    m.AddsIn τ range ↔ m.ReadsIn range ∧ (m.values τ).map List.length = .ok m.keyList.length := by
  constructor
  · intro h
    obtain ⟨values, hvalues, hlength⟩ := h.values_eq
    exact ⟨h.toReadsIn, by rw [hvalues, hlength]; rfl⟩
  · rintro ⟨hreads, hlength⟩
    cases hvalues : m.values τ with
    | error why =>
      rw [hvalues] at hlength
      cases hlength
    | ok values =>
      rw [hvalues] at hlength
      exact ⟨hreads, values, hvalues, (Except.ok.inj hlength).symm⟩

instance (m : Message) (τ : ScalarType) (range : Interval) : Decidable (m.AddsIn τ range) :=
  decidable_of_iff _ addsIn_iff.symm

/-- An answer as far as the read alone decides it. -/
def asked (m : Message) : Message := { m.reply with blocks := [.keys m.keyList] }

def unvalued (m : Message) : Message := { m with blocks := m.blocks.take 1 }

/-- Whether a message of a worker that has got to `clock` is taken in. -/
def fits (τ : ScalarType) (range : Interval) (m : Message) (clock : Clock) : Bool :=
  match m.op with
  | .add => decide (m.AddsIn τ range)
  | .get => decide (m.ReadsIn range)
  | .clock => decide (clock < m.clock)
  | .response | .resetWorkers => false

/-- Where a worker is after a message of its own; a stranger is nowhere. -/
def moves (τ : ScalarType) (range : Interval) (known : Option Clock) (m : Message) : Option Clock :=
  if known.any (m.fits τ range) && decide (m.op = .clock) then some m.clock else known

/-- What becomes of a worker's messages, one after the other. -/
def sift (τ : ScalarType) (range : Interval) : Option Clock → List Message → List (Message × Bool)
  | _, [] => []
  | known, m :: ms => (m, known.any (m.fits τ range)) :: sift τ range (m.moves τ range known) ms

end Message

namespace Step

/-- A message, and whether it was taken in. -/
def mark (s : Step τ) : Message × Bool := (s.message, s.verdict.isOk)

/-- What became of one worker's messages. -/
def marksOf (worker : ThreadId) (steps : List (Step τ)) : List (Message × Bool) :=
  (steps.map mark).filter fun e => decide (e.1.sender = worker)

theorem taken_eq_marks (op : Op) (steps : List (Step τ)) :
    taken op steps = ((steps.map mark).filter fun e => e.2 && decide (e.1.op = op)).map (·.1) := by
  rw [List.filter_map, List.map_map]
  rfl

theorem taken_perm {steps steps' : List (Step τ)}
    (h : ∀ worker, marksOf worker steps = marksOf worker steps') (op : Op) :
    (taken op steps).Perm (taken op steps') := by
  rw [taken_eq_marks, taken_eq_marks]
  exact ((perm_of_forall_filter_eq h).filter _).map _

/-- The reads `gets` were taken in and answered, each once, and no others were. -/
structure Answered (steps : List (Step τ)) (gets : List Message) : Prop where
  taken : ∃ left, (gets ++ left).Perm (taken .get steps)
  answers : ((steps.flatMap answers).map Message.unvalued).Perm (gets.map Message.asked)

end Step

namespace Tablet

variable {spec : TableSpec} {t : Tablet τ} {m : Message} {ms : List Message} {s : Step τ}
  {steps : List (Step τ)}

/-- Once the workers are fixed, they stay so, and the minimum does not fall. -/
theorem closed_of_step (hs : t.Serves spec range) (hclosed : t.slice.roster.closed = true)
    (hop : m.op ≠ .resetWorkers) (hstep : t.step m = .ok s) :
    s.after.slice.roster.closed = true ∧ t.slice.minClock ≤ s.after.slice.minClock := by
  rcases step_cases hs hstep with ⟨why, rfl⟩ | ⟨replies, t', rfl, hmove⟩
  · exact ⟨hclosed, UInt64.le_refl _⟩
  · exact minClock_le_of_move hs hclosed hop hmove

theorem admits_iff_fits (hclosed : t.slice.roster.closed = true) (hop : m.op ≠ .resetWorkers) :
    t.Admits m ↔ (t.slice.roster.clockOf? m.sender).any (m.fits τ t.slice.range) = true := by
  unfold Admits Message.fits
  cases hsays : m.op with
  | resetWorkers => exact absurd hsays hop
  | _ => cases t.slice.roster.clockOf? m.sender <;> simp [hclosed]

/-- **One step of a closed tablet**, seen from the workers: only the sender's clock can change. -/
theorem mark_of_step (hs : t.Serves spec range) (hclosed : t.slice.roster.closed = true)
    (hop : m.op ≠ .resetWorkers) (hstep : t.step m = .ok s) :
    s.mark = (m, (t.slice.roster.clockOf? m.sender).any (m.fits τ range)) ∧
      ∀ worker, s.after.slice.roster.clockOf? worker =
        if m.sender = worker then m.moves τ range (t.slice.roster.clockOf? worker)
        else t.slice.roster.clockOf? worker := by
  have hmark : s.verdict.isOk = (t.slice.roster.clockOf? m.sender).any (m.fits τ range) := by
    rw [Bool.eq_iff_iff, isOk_iff_admits hs.toSound hstep, admits_iff_fits hclosed hop, hs.range_eq]
  refine ⟨Prod.ext (message_of_step hstep) hmark, ?_⟩
  intro worker
  cases hknown : t.slice.roster.clockOf? m.sender with
  | none =>
    rw [hknown] at hmark
    rcases step_cases hs hstep with ⟨why, rfl⟩ | ⟨replies, t', rfl, -⟩
    · split
      case isTrue hsame => rw [← hsame, hknown]; rfl
      case isFalse => rfl
    · cases hmark
  | some seen =>
    rw [clockOf?_of_step hs hclosed hop hstep hknown worker]
    by_cases hsame : m.sender = worker
    · subst hsame
      rw [if_pos rfl, hknown]
      by_cases hclock : m.op = .clock
      · simp [Message.moves, Message.fits, hclock]
      · simp [Message.moves, hclock]
    · rw [if_neg hsame, if_neg fun h => hsame h.2.2.symm]

/-- **A stream is sifted by its own messages alone**, whatever others send in between. -/
theorem marks_of_run (hs : t.Serves spec range) (hclosed : t.slice.roster.closed = true)
    (hms : ∀ m ∈ ms, m.op ≠ .resetWorkers) (hrun : t.run ms = .ok steps) (worker : ThreadId) :
    Step.marksOf worker steps =
        Message.sift τ range (t.slice.roster.clockOf? worker) (Message.stream worker ms) ∧
      (t.finish steps).slice.roster.clockOf? worker =
        (Message.stream worker ms).foldl (Message.moves τ range)
          (t.slice.roster.clockOf? worker) := by
  induction ms generalizing t steps with
  | nil =>
    cases hrun
    exact ⟨rfl, rfl⟩
  | cons m rest ih =>
    obtain ⟨s, later, hstep, hlater, rfl⟩ := run_cons_iff.mp hrun
    have hop := hms m (List.mem_cons_self ..)
    obtain ⟨hmark, hclock⟩ := mark_of_step hs hclosed hop hstep
    obtain ⟨hmarks, hfinish⟩ :=
      ih (serves_of_step hs hstep) (closed_of_step hs hclosed hop hstep).1
        (fun m hm => hms m (List.mem_cons_of_mem _ hm)) hlater
    rw [finish_cons, hfinish]
    unfold Step.marksOf Message.stream at hmarks ⊢
    rw [List.map_cons, hmark]
    by_cases hsender : m.sender = worker
    · rw [hclock, if_pos hsender] at hmarks ⊢
      rw [List.filter_cons_of_pos (by simpa using hsender),
        List.filter_cons_of_pos (by simpa using hsender), hmarks, hsender]
      exact ⟨rfl, rfl⟩
    · rw [hclock, if_neg hsender] at hmarks ⊢
      rw [List.filter_cons_of_neg (by simpa using hsender),
        List.filter_cons_of_neg (by simpa using hsender)]
      exact ⟨hmarks, rfl⟩

/-! ### How a run ends -/

/-- A closed tablet after a run: what the minimum has reached of the messages that were taken in is
through, and the rest waits. -/
structure Resolved (spec : TableSpec) (range : Interval) (start : Store τ) (steps : List (Step τ))
    (t : Tablet τ) : Prop extends t.Serves spec range where
  closed : t.slice.roster.closed = true
  landed : ∃ landed, (landed ++ t.slice.waiting.asking .add).Perm (Step.taken .add steps) ∧
    (t.gate = .barrier → ∀ m ∈ landed, m.clock ≤ t.slice.minClock) ∧
    start.addAll (landed.flatMap (·.updates τ)) = .ok () t.slice.store
  waits : (t.slice.waiting.asking .get).Perm
    ((Step.taken .get steps).filter fun g => !t.passes g)
  answers : ((steps.flatMap Step.answers).map Message.unvalued).Perm
    (((Step.taken .get steps).filter t.passes).map Message.asked)

theorem resolved_nil (h : t.Pinned spec range [] []) :
    t.Resolved spec range t.slice.store [] := by
  obtain ⟨landed, hbalance⟩ := h.balance
  have hadds : t.slice.waiting.asking .add = [] :=
    (List.append_eq_nil_iff.mp hbalance.all.eq_nil).2
  have hgets : t.slice.waiting.asking .get = [] :=
    List.eq_nil_iff_forall_not_mem.mpr fun g hg => List.not_mem_nil (h.asked g hg)
  refine ⟨h.toServes, h.closed, ⟨[], ?_, by simp, rfl⟩, ?_, List.Perm.refl _⟩
  · rw [hadds]
    exact List.Perm.refl _
  · rw [hgets]
    exact List.Perm.refl _

theorem updates_of_step (hs : t.Serves spec range) (hstep : t.step m = .ok s) :
    ∃ more, (t.gate = .barrier → ∀ e ∈ more, e.clock ≤ s.after.slice.minClock) ∧
      t.slice.store.addAll (more.flatMap (·.updates τ)) = .ok () s.after.slice.store ∧
      (more ++ s.after.slice.waiting.asking .add).Perm
        (t.slice.waiting.asking .add ++ Step.taken .add [s]) := by
  rcases step_cases hs hstep with ⟨why, rfl⟩ | ⟨replies, t', rfl, hmove⟩
  · exact ⟨[], by simp, rfl, by simp⟩
  · obtain ⟨more, -, hreached, hstore, hall⟩ := updates_of_move hs.toSound hmove
    rw [Step.taken_of_accepted]
    exact ⟨more, hreached, hstore, hall⟩

theorem gate_eq_of_follows (hmodel : spec.model ≠ .sparseSsp) {t t' : Tablet τ}
    (h : t.gate.Follows spec) (h' : t'.gate.Follows spec) : t.gate = t'.gate := by
  unfold Gate.Follows at h h'
  cases hkind : spec.model <;> simp only [hkind] at h h'
  case sparseSsp => exact absurd hkind hmodel
  all_goals rw [h, h']

/-- Without speculation a gate that is open to a read stays open to it. -/
theorem passes_of_step (hmodel : spec.model ≠ .sparseSsp) (hs : t.Serves spec range)
    (hclosed : t.slice.roster.closed = true) (hop : m.op ≠ .resetWorkers)
    (hstep : t.step m = .ok s) {g : Message} (h : t.passes g = true) : s.after.passes g = true := by
  unfold passes at h ⊢
  rw [← gate_eq_of_follows hmodel hs.follows (serves_of_step hs hstep).follows]
  exact Gate.passes_mono (closed_of_step hs hclosed hop hstep).2 h

theorem resolved_of_step (hmodel : spec.model ≠ .sparseSsp) {start : Store τ}
    (h : t.Resolved spec range start steps) (hop : m.op ≠ .resetWorkers)
    (hstep : t.step m = .ok s) : s.after.Resolved spec range start (steps ++ [s]) := by
  have hs := h.toServes
  have hserves := serves_of_step hs hstep
  have hgate := gate_eq_of_follows hmodel hs.follows hserves.follows
  obtain ⟨hclosed, hmin⟩ := closed_of_step hs h.closed hop hstep
  obtain ⟨hanswers, hwaits⟩ := reads_of_step hs hstep
  have hstay : ∀ g, t.passes g = true → s.after.passes g = true := fun g =>
    passes_of_step hmodel hs h.closed hop hstep
  let olds := Step.taken .get steps
  let news := Step.taken .get [s]
  have hdue : ∀ p : Message → Bool, ((t.slice.waiting.asking .get ++ news).filter p).Perm
      ((olds.filter fun g => !t.passes g).filter p ++ news.filter p) := by
    intro p
    rw [List.filter_append]
    exact (h.waits.filter p).append_right _
  refine ⟨hserves, hclosed, ?_, ?_, ?_⟩
  · obtain ⟨landed, hall, hreached, hstore⟩ := h.landed
    obtain ⟨more, hnow, hmore, hflow⟩ := updates_of_step hs hstep
    refine ⟨landed ++ more, ?_, ?_, ?_⟩
    · rw [Step.taken_append, List.append_assoc]
      calc landed ++ (more ++ s.after.slice.waiting.asking .add)
          |>.Perm (landed ++ (t.slice.waiting.asking .add ++ Step.taken .add [s])) :=
            hflow.append_left landed
        _ = landed ++ t.slice.waiting.asking .add ++ Step.taken .add [s] :=
            (List.append_assoc ..).symm
        _ |>.Perm (Step.taken .add steps ++ Step.taken .add [s]) := hall.append_right _
    · intro hbarrier e he
      rw [← hgate] at hbarrier
      rcases List.mem_append.mp he with he | he
      · exact UInt64.le_trans (hreached hbarrier e he) hmin
      · exact hnow hbarrier e he
    · rw [List.flatMap_append, Store.addAll_append, hstore]
      exact hmore
  · -- What waits on after this step has waited before it.
    have hstill : (olds.filter fun g => !t.passes g).filter (fun g => !s.after.passes g) =
        olds.filter fun g => !s.after.passes g := by
      rw [List.filter_filter]
      apply List.filter_congr
      intro g _
      have hopen := hstay g
      cases ht : t.passes g <;> simp_all
    rw [Step.taken_append, List.filter_append, ← hstill]
    exact hwaits.trans (hdue _)
  · have hnow : (olds.filter t.passes ++
        (olds.filter fun g => !t.passes g).filter s.after.passes).Perm
          (olds.filter s.after.passes) := by
      refine (filter_or_perm t.passes s.after.passes olds).trans (List.Perm.of_eq ?_)
      apply List.filter_congr
      intro g _
      have hopen := hstay g
      cases ht : t.passes g <;> simp_all
    have hunvalued := hanswers.map Message.unvalued
    rw [List.map_map] at hunvalued
    rw [List.flatMap_append, List.flatMap_singleton, List.map_append, Step.taken_append,
      List.filter_append]
    calc (steps.flatMap Step.answers).map Message.unvalued ++ s.answers.map Message.unvalued
        |>.Perm ((olds.filter t.passes).map Message.asked ++
          ((olds.filter fun g => !t.passes g).filter s.after.passes ++
            news.filter s.after.passes).map Message.asked) :=
          h.answers.append (hunvalued.trans ((hdue _).map _))
      _ = ((olds.filter t.passes ++ (olds.filter fun g => !t.passes g).filter s.after.passes) ++
            news.filter s.after.passes).map Message.asked := by
          rw [← List.map_append, List.append_assoc]
      _ |>.Perm ((olds.filter s.after.passes ++ news.filter s.after.passes).map Message.asked) :=
          (hnow.append_right _).map _

theorem resolved_of_run (hmodel : spec.model ≠ .sparseSsp)
    (hs : t.Resolved spec range t.slice.store []) (hms : ∀ m ∈ ms, m.op ≠ .resetWorkers)
    (hrun : t.run ms = .ok steps) : (t.finish steps).Resolved spec range t.slice.store steps :=
  run_induction (P := fun steps u => u.Resolved spec range t.slice.store steps) hs
    (fun _ _ hu m hm _ hstep => resolved_of_step hmodel hu (hms m hm) hstep) hrun

/-! ### Two runs -/

/-- Two runs that end alike: worker by worker the same messages were taken in, the tablets hold the
same values and clocks and know the same minimum, the same reads were answered, and the same
messages wait for the same clocks. -/
structure EndAlike (t t' : Tablet τ) (steps steps' : List (Step τ)) : Prop where
  marks : ∀ worker, Step.marksOf worker steps = Step.marksOf worker steps'
  store : t.slice.store = t'.slice.store
  roster : t.slice.roster = t'.slice.roster
  answered : ∃ gets, Step.Answered steps gets ∧ Step.Answered steps' gets
  waiting : t.slice.waiting.entries.Perm t'.slice.waiting.entries

theorem roster_eq_of_clocks {r r' : Roster} (ht : r.Tight) (ht' : r'.Tight)
    (hclosed : r.closed = r'.closed) (h : ∀ worker, r.clockOf? worker = r'.clockOf? worker) :
    r = r' := by
  obtain ⟨clocks, closed, low⟩ := r
  obtain ⟨clocks', closed', low'⟩ := r'
  obtain rfl : clocks = clocks' := SortedMap.ext_get? h
  obtain rfl : closed = closed' := hclosed
  obtain rfl : low = low' := ht.trans ht'.symm
  rfl

/-- What waits, under the clocks that the gate says. -/
theorem entries_perm_asking (hs : t.Sound) :
    t.slice.waiting.entries.Perm
      ((t.slice.waiting.asking .add ++ t.slice.waiting.asking .get).map
        fun m => (t.gate.due m.clock, m)) := by
  have hgets : (t.slice.waiting.entries.filter fun e => !decide (e.2.op = .add)) =
      t.slice.waiting.entries.filter fun e => decide (e.2.op = .get) := by
    apply List.filter_congr
    intro e he
    rcases (hs.parked e he).fit with hget | hadd
    · simp [hget.1]
    · simp [hadd.1]
  have hparts := List.filter_append_perm (fun e => decide (e.2.op = .add)) t.slice.waiting.entries
  rw [hgets] at hparts
  refine hparts.symm.trans (List.Perm.of_eq ?_)
  rw [Waitlist.asking, Waitlist.asking, ← List.map_append, List.map_map]
  symm
  refine (List.map_congr_left ?_).trans (List.map_id _)
  intro e he
  have hmem := hparts.mem_iff.mp he
  exact Prod.ext (hs.parked e hmem).due.symm rfl

/-- The same updates and the same minimum leave the same to land. -/
theorem landed_perm {t' : Tablet τ} {landed landed' adds adds' : List Message}
    (hs : t.Serves spec range) (hs' : t'.Serves spec range) (hgate : t.gate = t'.gate)
    (hmin : t.slice.minClock = t'.slice.minClock) (hadds : adds.Perm adds')
    (hall : (landed ++ t.slice.waiting.asking .add).Perm adds)
    (hreached : t.gate = .barrier → ∀ m ∈ landed, m.clock ≤ t.slice.minClock)
    (hall' : (landed' ++ t'.slice.waiting.asking .add).Perm adds')
    (hreached' : t'.gate = .barrier → ∀ m ∈ landed', m.clock ≤ t'.slice.minClock) :
    landed.Perm landed' ∧
      (t.slice.waiting.asking .add).Perm (t'.slice.waiting.asking .add) := by
  by_cases hbarrier : t.gate = .barrier
  · have hparts := reached_of_barrier hs hall (hreached hbarrier)
    have hparts' := reached_of_barrier hs' hall' (hreached' (hgate ▸ hbarrier))
    rw [← hmin] at hparts'
    exact ⟨hparts.1.trans ((hadds.filter _).trans hparts'.1.symm),
      hparts.2.trans ((hadds.filter _).trans hparts'.2.symm)⟩
  · have hnone := asking_add_of_not_barrier hs.toSound hbarrier
    have hnone' := asking_add_of_not_barrier hs'.toSound (hgate ▸ hbarrier)
    rw [hnone, List.append_nil] at hall
    rw [hnone', List.append_nil] at hall'
    rw [hnone, hnone']
    exact ⟨hall.trans (hadds.trans hall'.symm), List.Perm.refl _⟩

theorem endAlike_of_resolved (hmodel : spec.model ≠ .sparseSsp) {start : Store .integer}
    {t t' : Tablet .integer} {steps steps' : List (Step .integer)}
    (h : t.Resolved spec range start steps) (h' : t'.Resolved spec range start steps')
    (hmarks : ∀ worker, Step.marksOf worker steps = Step.marksOf worker steps')
    (hclocks : ∀ worker, t.slice.roster.clockOf? worker = t'.slice.roster.clockOf? worker) :
    EndAlike t t' steps steps' := by
  have hroster : t.slice.roster = t'.slice.roster :=
    roster_eq_of_clocks h.tight h'.tight (h.closed.trans h'.closed.symm) hclocks
  have hmin : t.slice.minClock = t'.slice.minClock := congrArg Roster.minClock hroster
  have hgate := gate_eq_of_follows hmodel h.follows h'.follows
  have hpasses : t.passes = t'.passes := by
    funext m
    rw [passes, passes, hgate, hmin]
  have hadds := Step.taken_perm hmarks .add
  have hgets := Step.taken_perm hmarks .get
  obtain ⟨landed, hall, hreached, hstore⟩ := h.landed
  obtain ⟨landed', hall', hreached', hstore'⟩ := h'.landed
  obtain ⟨hland, hlate⟩ :=
    landed_perm h.toServes h'.toServes hgate hmin hadds hall hreached hall' hreached'
  have hwaits : (t.slice.waiting.asking .get).Perm (t'.slice.waiting.asking .get) := by
    refine h.waits.trans (List.Perm.trans ?_ h'.waits.symm)
    rw [hpasses]
    exact hgets.filter _
  refine ⟨hmarks, ?_, hroster, ⟨(Step.taken .get steps).filter t.passes, ?_, ?_⟩, ?_⟩
  · exact Store.eq_of_addAll_perm (hland.flatMap_right _) hstore hstore'
  · exact ⟨⟨_, List.filter_append_perm t.passes _⟩, h.answers⟩
  · refine ⟨⟨_, (List.filter_append_perm t.passes _).trans hgets⟩, ?_⟩
    refine h'.answers.trans ((List.Perm.map _ ?_))
    rw [hpasses]
    exact (hgets.filter _).symm
  · refine (entries_perm_asking h.toSound).trans
      (List.Perm.trans ?_ (entries_perm_asking h'.toSound).symm)
    rw [hgate]
    exact (hlate.append hwaits).map _

/-- **The order between workers does not matter.** A new tablet of integers without speculation is
closed, and is then sent the same streams, interleaved in two ways; whatever the streams are made
of, the two runs end alike if no sum on the way leaves its type. -/
theorem interleaving_irrelevant (hmodel : spec.model ≠ .sparseSsp) {table : TableId}
    {shard : ThreadId} {fresh pinned : Tablet .integer}
    (hnew : Tablet.new .integer spec table shard range = .ok fresh)
    {reset : Message} (hreset : reset.op = .resetWorkers) {ack : List Message}
    (hpin : fresh.handle reset = .ok ack pinned)
    {ms ms' : List Message} (hms : ∀ m ∈ ms, m.op ≠ .resetWorkers)
    (hstreams : ∀ worker, Message.stream worker ms = Message.stream worker ms')
    {steps steps' : List (Step .integer)} (hrun : pinned.run ms = .ok steps)
    (hrun' : pinned.run ms' = .ok steps') :
    EndAlike (pinned.finish steps) (pinned.finish steps') steps steps' := by
  have hpinned := pinned_of_reset hnew hreset hpin
  have hms' : ∀ m ∈ ms', m.op ≠ .resetWorkers := fun m hm =>
    hms m ((perm_of_forall_filter_eq hstreams).mem_iff.mpr hm)
  have hstart := resolved_nil hpinned
  have hmarks := marks_of_run hpinned.toServes hpinned.closed hms hrun
  have hmarks' := marks_of_run hpinned.toServes hpinned.closed hms' hrun'
  refine endAlike_of_resolved hmodel (resolved_of_run hmodel hstart hms hrun)
    (resolved_of_run hmodel hstart hms' hrun') ?_ ?_
  · intro worker
    rw [(hmarks worker).1, (hmarks' worker).1, hstreams]
  · intro worker
    rw [(hmarks worker).2, (hmarks' worker).2, hstreams]

/-- Worker 1 goes ahead of worker 2 and, in the end, beyond the barrier. -/
def fast : List Message := [
  ⟨.add, 1, 7, 0, 0, 0, [.keys [3], .integers [5]]⟩,
  ⟨.clock, 1, 7, 0, 1, 0, []⟩,
  ⟨.add, 1, 7, 0, 1, 0, [.keys [3], .integers [7]]⟩,
  ⟨.get, 1, 7, 0, 1, 1, [.keys [3]]⟩,
  ⟨.clock, 1, 7, 0, 2, 0, []⟩,
  ⟨.add, 1, 7, 0, 2, 0, [.keys [4], .integers [1]]⟩]

/-- Worker 2 repeats its clock, and then writes a key that is not the shard's. -/
def slow : List Message := [
  ⟨.clock, 2, 7, 0, 1, 0, []⟩,
  ⟨.clock, 2, 7, 0, 1, 0, []⟩,
  ⟨.add, 2, 7, 0, 1, 0, [.keys [12], .integers [1]]⟩]

/-- The read is answered by a clock of worker 2 in one order and at once in the other. -/
theorem interleaving_irrelevant_fast_slow :
    ∃ fresh ack steps steps',
      Tablet.new .integer (.bsp .sparse) 0 7 ⟨0, 10⟩ = .ok fresh ∧
      fresh.handle ⟨.resetWorkers, controlThread, 7, 0, 0, 0, [.keys [1, 2]]⟩ = .ok ack ofTwo ∧
      ofTwo.run (fast ++ slow) = .ok steps ∧ ofTwo.run (slow ++ fast) = .ok steps' ∧
      (steps.filter fun s => !s.answers.isEmpty).map (·.message.op) = [.clock] ∧
      (steps'.filter fun s => !s.answers.isEmpty).map (·.message.op) = [.get] ∧
      EndAlike (ofTwo.finish steps) (ofTwo.finish steps') steps steps' := by
  let fresh : Tablet .integer := ⟨.new 0 7 ⟨0, 10⟩ (.sparse .empty), .barrier⟩
  let reset : Message := ⟨.resetWorkers, controlThread, 7, 0, 0, 0, [.keys [1, 2]]⟩
  have hnew : Tablet.new .integer (.bsp .sparse) 0 7 ⟨0, 10⟩ = .ok fresh := rfl
  have hpin : fresh.handle reset = .ok [reset.reply] ofTwo := rfl
  have hstreams : ∀ worker,
      Message.stream worker (fast ++ slow) = Message.stream worker (slow ++ fast) := by
    intro worker
    rw [Message.stream, Message.stream, List.filter_append, List.filter_append]
    by_cases hworker : worker = 1
    · have hnone : ∀ m ∈ slow, m.sender ≠ 1 := by decide
      rw [hworker, filter_of_forall_ne hnone, List.append_nil, List.nil_append]
    · have hsender : ∀ m ∈ fast, m.sender = 1 := by decide
      have hnone : ∀ m ∈ fast, m.sender ≠ worker := fun m hm hsame =>
        hworker (hsame.symm.trans (hsender m hm))
      rw [filter_of_forall_ne hnone, List.append_nil, List.nil_append]
  obtain ⟨steps, hrun, hanswered⟩ : ∃ steps, ofTwo.run (fast ++ slow) = .ok steps ∧
      (steps.filter fun s => !s.answers.isEmpty).map (·.message.op) = [.clock] :=
    ⟨_, rfl, by decide +kernel⟩
  obtain ⟨steps', hrun', hanswered'⟩ : ∃ steps, ofTwo.run (slow ++ fast) = .ok steps ∧
      (steps.filter fun s => !s.answers.isEmpty).map (·.message.op) = [.get] :=
    ⟨_, rfl, by decide +kernel⟩
  exact ⟨fresh, _, steps, steps', hnew, hpin, hrun, hrun', hanswered, hanswered',
    interleaving_irrelevant (by decide) hnew rfl hpin (by decide) hstreams hrun hrun'⟩

end Tablet

end ParamServer
