import ParamServer.Proofs.Tablet.Flow
import ParamServer.Proofs.Tablet.Run

/-!
# Every read is answered once, and no later than it could be

The steps of a run are numbered, and a read is known by the number of the step that took it in. Its
`opening` is the first step, from its own on, after which the rule of the table is content with it.
`answered_at_opening` says that this step answers it and no other does, and that in between it
waits.

The tablet looks at what waits only when the minimum has risen. That this misses nothing is
`Tablet.shut_of_move`; here it only remains to keep count.
-/

namespace ParamServer

variable {τ : ScalarType}

/-- The writes of a key that others than `reader` made of late, where they are logged. -/
def Tablet.foreignWrites (t : Tablet τ) (key : Key) (reader : ThreadId) : Nat :=
  match t.gate with
  | .speculative _ _ log => log.foreignWrites key reader
  | _ => 0

namespace TableSpec

/-- Whether a reader is no further ahead of the slowest worker than it may be. -/
def near (spec : TableSpec) (t : Tablet τ) (g : Message) : Bool :=
  decide (g.clock.toNat - spec.staleness.toNat ≤ t.slice.minClock.toNat)

/-- Whether few others have written the keys of a read of late. -/
def quiet (spec : TableSpec) (t : Tablet τ) (g : Message) : Bool :=
  decide (0 < spec.speculation) &&
    g.keyList.all fun key => decide (t.foreignWrites key g.sender < spec.speculation.toNat)

/-- Whether the rule of a table is content with a read. -/
def ready (spec : TableSpec) (t : Tablet τ) (g : Message) : Bool :=
  match spec.model with
  | .asp => true
  | .bsp => decide (g.clock.toNat ≤ t.slice.minClock.toNat)
  | .ssp => spec.near t g
  | .sparseSsp => spec.near t g || spec.quiet t g

theorem ready_of_le (spec : TableSpec) {t : Tablet τ} {g : Message}
    (h : g.clock.toNat ≤ t.slice.minClock.toNat) : spec.ready t g = true := by
  have hnear : spec.near t g = true := decide_eq_true (Nat.le_trans (Nat.sub_le ..) h)
  unfold ready
  cases spec.model with
  | asp => rfl
  | bsp => exact decide_eq_true h
  | ssp => exact hnear
  | sparseSsp => simp [hnear]

/-- The first step, from step `i` on, after which the rule is content with the read `g`. -/
def opening (spec : TableSpec) (steps : List (Step τ)) (i : Nat) (g : Message) : Option Nat :=
  ((steps.drop i).findIdx? fun s => spec.ready s.after g).map (i + ·)

theorem le_opening {spec : TableSpec} {steps : List (Step τ)} {i j : Nat} {g : Message}
    (h : spec.opening steps i g = some j) : i ≤ j ∧ j < steps.length := by
  obtain ⟨k, hk, rfl⟩ := Option.map_eq_some_iff.mp h
  obtain ⟨hlt, -⟩ := List.findIdx?_eq_some_iff_getElem.mp hk
  rw [List.length_drop] at hlt
  omega

theorem opening_append {spec : TableSpec} {front : List (Step τ)} {i : Nat}
    (hi : i ≤ front.length) (back : List (Step τ)) (g : Message) :
    spec.opening (front ++ back) i g = (spec.opening front i g).or
      ((back.findIdx? fun s => spec.ready s.after g).map (front.length + ·)) := by
  unfold opening
  rw [List.drop_append_of_le_length hi, List.findIdx?_append, Option.map_or, Option.map_map,
    List.length_drop]
  congr 2
  funext k
  simp only [Function.comp_apply]
  omega

theorem opening_concat {spec : TableSpec} {front : List (Step τ)} {i : Nat}
    (hi : i ≤ front.length) (s : Step τ) (g : Message) :
    spec.opening (front ++ [s]) i g =
      (spec.opening front i g).or (if spec.ready s.after g then some front.length else none) := by
  rw [opening_append hi]
  by_cases hready : spec.ready s.after g = true <;> simp [hready]

end TableSpec

namespace Step

/-- The reads that were taken in, each with the number of its step, counted from `n` on. -/
def readsFrom (n : Nat) (steps : List (Step τ)) : List (Nat × Message) :=
  ((steps.zipIdx n).filter fun e => e.1.took .get).map fun e => (e.2, e.1.message)

def reads (steps : List (Step τ)) : List (Nat × Message) := readsFrom 0 steps

theorem reads_append (front back : List (Step τ)) :
    reads (front ++ back) = reads front ++ readsFrom front.length back := by
  simp [reads, readsFrom, List.zipIdx_append]

theorem mem_readsFrom {n : Nat} {steps : List (Step τ)} {e : Nat × Message}
    (h : e ∈ readsFrom n steps) :
    n ≤ e.1 ∧ e.1 < n + steps.length ∧ e.2 ∈ taken .get steps := by
  obtain ⟨⟨s, i⟩, hmem, rfl⟩ := List.mem_map.mp h
  obtain ⟨hmem, htook⟩ := List.mem_filter.mp hmem
  obtain ⟨hle, hlt, -⟩ := List.mem_zipIdx hmem
  exact ⟨hle, hlt, mem_taken_iff.mpr ⟨s, List.fst_mem_of_mem_zipIdx hmem, htook, rfl⟩⟩

theorem readsFrom_singleton (n : Nat) (s : Step τ) :
    readsFrom n [s] = (taken .get [s]).map (n, ·) := by
  by_cases htook : s.took .get = true <;> simp [readsFrom, taken, htook]

end Step

namespace Tablet

variable {spec : TableSpec} {range : Interval} {t : Tablet τ}

theorem passes_eq_ready (hfollows : t.gate.Follows spec) {g : Message}
    (hkeys : g.keys = .ok g.keyList) : t.passes g = spec.ready t g := by
  -- A difference of clocks that would be negative is none.
  have hnear : decide ((if spec.staleness ≤ g.clock then g.clock - spec.staleness else 0) ≤
      t.slice.minClock) = spec.near t g := by
    unfold TableSpec.near
    apply decide_eq_decide.mpr
    rw [UInt64.le_iff_toNat_le]
    split
    case isTrue hle => rw [UInt64.toNat_sub_of_le _ _ hle]
    case isFalse hle =>
      rw [UInt64.le_iff_toNat_le] at hle
      simp only [UInt64.toNat_zero]
      omega
  unfold Gate.Follows at hfollows
  unfold passes Gate.passes TableSpec.ready
  cases hmodel : spec.model <;> simp only [hmodel] at hfollows ⊢
  case asp =>
    rw [hfollows]
    simp [Gate.due]
  case bsp =>
    rw [hfollows]
    simp [Gate.due, Gate.early, UInt64.le_iff_toNat_le]
  case ssp =>
    rw [hfollows]
    simp only [Gate.due, Gate.early, Bool.or_false]
    exact hnear
  case sparseSsp =>
    obtain ⟨log, hlog⟩ := hfollows
    rw [hlog]
    simp only [Gate.due, Gate.early, hkeys, TableSpec.quiet, foreignWrites, hlog]
    rw [← hnear]
    rfl

/-- **One step**, whatever is sent and whatever becomes of it: the reads that have waited and the
one that comes in are answered if their gate is open now, and wait otherwise. -/
theorem reads_of_step (hs : t.Serves spec range) {m : Message} {s : Step τ}
    (hstep : t.step m = .ok s) :
    let due := t.slice.waiting.asking .get ++ Step.taken .get [s]
    s.answers.Perm ((due.filter s.after.passes).map (·.answerFrom s.after.slice.store)) ∧
      (s.after.slice.waiting.asking .get).Perm (due.filter fun g => !s.after.passes g) := by
  have hnone : ∀ {s : Step τ} {old : List Message}, Step.taken .get [s] = [] →
      old = s.after.slice.waiting.asking .get → s.after.Shut → s.answers = [] →
      s.answers.Perm (((old ++ Step.taken .get [s]).filter s.after.passes).map
        (·.answerFrom s.after.slice.store)) ∧
      (s.after.slice.waiting.asking .get).Perm
        ((old ++ Step.taken .get [s]).filter fun g => !s.after.passes g) := by
    intro s old htaken hold hshut hanswers
    obtain ⟨hempty, hall⟩ := filter_of_forall_false (passes_of_shut hshut .get)
    rw [htaken, hanswers, hold, List.append_nil, hempty, hall]
    exact ⟨List.Perm.refl _, List.Perm.refl _⟩
  rcases step_cases hs hstep with ⟨why, rfl⟩ | ⟨replies, t', rfl, hmove⟩
  · exact hnone rfl rfl hs.shut (Step.answers_of_refused ..)
  · by_cases hop : m.op = .resetWorkers
    · have htook : Step.took .resetWorkers ⟨m, .ok replies, t'⟩ = true := decide_eq_true hop
      obtain rfl : replies = [m.reply] := Except.ok.inj (verdict_of_close hs hstep htook)
      refine hnone ?_ ?_ (shut_of_move hs.toSound hs.shut hmove) (Step.answers_of_close hop t')
      · exact Step.taken_of_ne (by simp [hop])
      · cases hmove <;> simp_all
    · have hflow := reads_of_move hs.toSound hs.shut hop hmove
      rw [Step.taken_of_accepted, Step.answers_of_ne hop]
      exact hflow

/-- What is answered is a read that has waited or has just come in, and its gate is open now. -/
theorem read_of_answer (hs : t.Serves spec range) {m : Message} {s : Step τ}
    (hstep : t.step m = .ok s) {a : Message} (ha : a ∈ s.answers) :
    ∃ g ∈ t.slice.waiting.asking .get ++ Step.taken .get [s],
      s.after.passes g = true ∧ a = g.answerFrom s.after.slice.store := by
  obtain ⟨g, hg, rfl⟩ := List.mem_map.mp ((reads_of_step hs hstep).1.mem_iff.mp ha)
  obtain ⟨hg, hpasses⟩ := List.mem_filter.mp hg
  exact ⟨g, hg, hpasses, rfl⟩

/-! ### Counting the reads of a run -/

/-- The reads that no step has opened the gate for yet. -/
def unopened (spec : TableSpec) (steps : List (Step τ)) : List (Nat × Message) :=
  (Step.reads steps).filter fun e => (spec.opening steps e.1 e.2).isNone

theorem unopened_concat (spec : TableSpec) (steps : List (Step τ)) (s : Step τ) :
    let left := unopened spec steps ++ Step.readsFrom steps.length [s]
    ((Step.reads (steps ++ [s])).filter fun e =>
        decide (spec.opening (steps ++ [s]) e.1 e.2 = some steps.length)) =
      (left.filter fun e => spec.ready s.after e.2) ∧
    unopened spec (steps ++ [s]) = left.filter fun e => !spec.ready s.after e.2 := by
  have hold : ∀ e ∈ Step.reads steps, spec.opening (steps ++ [s]) e.1 e.2 =
      (spec.opening steps e.1 e.2).or
        (if spec.ready s.after e.2 then some steps.length else none) := by
    intro e he
    have hlt := (Step.mem_readsFrom he).2.1
    exact TableSpec.opening_concat (by omega) s e.2
  have hnew : ∀ e ∈ Step.readsFrom steps.length [s], spec.opening (steps ++ [s]) e.1 e.2 =
      if spec.ready s.after e.2 then some steps.length else none := by
    intro e he
    obtain ⟨hle, hlt, -⟩ := Step.mem_readsFrom he
    have hi : e.1 = steps.length := by
      simp only [List.length_singleton] at hlt
      omega
    rw [hi, TableSpec.opening_concat (Nat.le_refl _) s e.2]
    simp [TableSpec.opening]
  simp only
  constructor
  · rw [Step.reads_append, List.filter_append, List.filter_append, unopened, List.filter_filter]
    congr 1 <;> apply List.filter_congr <;> intro e he
    · rw [hold e he]
      cases hopening : spec.opening steps e.1 e.2 with
      | none => cases spec.ready s.after e.2 <;> simp
      | some j =>
        have hlt := (TableSpec.le_opening hopening).2
        simp only [Option.some_or, Option.some.injEq, Option.isNone_some, Bool.and_false,
          decide_eq_false_iff_not]
        omega
    · rw [hnew e he]
      cases spec.ready s.after e.2 <;> simp
  · rw [unopened, Step.reads_append, List.filter_append, List.filter_append, unopened,
      List.filter_filter]
    congr 1 <;> apply List.filter_congr <;> intro e he
    · rw [hold e he]
      cases spec.opening steps e.1 e.2 <;> cases spec.ready s.after e.2 <;> simp
    · rw [hnew e he]
      cases spec.ready s.after e.2 <;> simp

/-- After the steps of a run, the reads that wait are the ones whose gate has not been open yet. -/
structure Accounted (spec : TableSpec) (range : Interval) (steps : List (Step τ)) (t : Tablet τ) :
    Prop extends t.Serves spec range where
  fit : ∀ g ∈ Step.taken .get steps, g.ReadsIn range
  waits : (t.slice.waiting.asking .get).Perm ((unopened spec steps).map (·.2))

theorem accounted_new {table : TableId} {shard : ThreadId}
    (hnew : Tablet.new τ spec table shard range = .ok t) : Accounted spec range [] t := by
  refine ⟨serves_new hnew, by simp [Step.taken], ?_⟩
  obtain ⟨store, gate, -, -, rfl⟩ := eq_of_new hnew
  exact List.Perm.refl _

theorem readsIn_of_step (hs : t.Serves spec range) {m : Message} {s : Step τ}
    (hstep : t.step m = .ok s) : ∀ g ∈ Step.taken .get [s], g.ReadsIn range := by
  intro g hg
  obtain ⟨s', hs', htook, rfl⟩ := Step.mem_taken_iff.mp hg
  obtain rfl := List.mem_singleton.mp hs'
  rw [← hs.range_eq]
  rcases step_cases hs hstep with ⟨why, rfl⟩ | ⟨replies, t', rfl, hmove⟩
  · cases htook
  · exact readsIn_of_move hmove (Step.op_of_took htook)

theorem accounted_of_step {steps : List (Step τ)} (h : Accounted spec range steps t)
    {m : Message} {s : Step τ} (hstep : t.step m = .ok s) :
    Accounted spec range (steps ++ [s]) s.after ∧
      s.answers.Perm (((Step.reads (steps ++ [s])).filter fun e =>
        decide (spec.opening (steps ++ [s]) e.1 e.2 = some steps.length)).map
          fun e => e.2.answerFrom s.after.slice.store) := by
  have hserves := serves_of_step h.toServes hstep
  have hfit : ∀ g ∈ Step.taken .get (steps ++ [s]), g.ReadsIn range := by
    intro g hg
    rw [Step.taken_append] at hg
    rcases List.mem_append.mp hg with hold | hnew
    · exact h.fit g hold
    · exact readsIn_of_step h.toServes hstep g hnew
  let left := unopened spec steps ++ Step.readsFrom steps.length [s]
  have hready : ∀ e ∈ left, s.after.passes e.2 = spec.ready s.after e.2 := by
    intro e he
    refine passes_eq_ready hserves.follows (hfit e.2 ?_).keys_eq
    rw [Step.taken_append]
    rcases List.mem_append.mp he with hold | hnew
    · exact List.mem_append_left _ (Step.mem_readsFrom (List.mem_filter.mp hold).1).2.2
    · exact List.mem_append_right _ (Step.mem_readsFrom hnew).2.2
  have hdue : (t.slice.waiting.asking .get ++ Step.taken .get [s]).Perm (left.map (·.2)) := by
    rw [List.map_append, Step.readsFrom_singleton, List.map_map]
    exact h.waits.append (List.Perm.of_eq (List.map_id _).symm)
  obtain ⟨hanswers, hwaits⟩ := reads_of_step h.toServes hstep
  obtain ⟨hopened, hunopened⟩ := unopened_concat spec steps s
  constructor
  · refine ⟨hserves, hfit, hwaits.trans ((hdue.filter _).trans (List.Perm.of_eq ?_))⟩
    rw [hunopened, List.filter_map]
    congr 1
    apply List.filter_congr
    intro e he
    simp only [Function.comp_apply, hready e he]
  · refine hanswers.trans (((hdue.filter _).map _).trans (List.Perm.of_eq ?_))
    rw [hopened, List.filter_map, List.map_map]
    congr 1
    apply List.filter_congr
    intro e he
    simp only [Function.comp_apply, hready e he]

theorem accounted_of_run {table : TableId} {shard : ThreadId}
    (hnew : Tablet.new τ spec table shard range = .ok t) {ms : List Message}
    {steps : List (Step τ)} (hrun : t.run ms = .ok steps) :
    Accounted spec range steps (t.finish steps) :=
  run_induction (P := Accounted spec range) (accounted_new hnew)
    (fun _ _ hu _ _ _ hs => (accounted_of_step hu hs).1) hrun

/-- Later steps change nothing about what a step was the opening of, and nothing about what waited
then. -/
theorem filter_reads_append (spec : TableSpec) (front : List (Step τ)) (s : Step τ)
    (back : List (Step τ)) :
    ((Step.reads (front ++ s :: back)).filter fun e =>
        decide (spec.opening (front ++ s :: back) e.1 e.2 = some front.length)) =
      ((Step.reads (front ++ [s])).filter fun e =>
        decide (spec.opening (front ++ [s]) e.1 e.2 = some front.length)) ∧
    ((Step.reads (front ++ s :: back)).filter fun e => decide (e.1 ≤ front.length) &&
        (spec.opening (front ++ s :: back) e.1 e.2).all fun j => decide (front.length < j)) =
      unopened spec (front ++ [s]) := by
  have hsplit : front ++ s :: back = (front ++ [s]) ++ back := List.append_cons ..
  have hlength : (front ++ [s]).length = front.length + 1 := by simp
  have hnow : ∀ e ∈ Step.reads (front ++ [s]), e.1 ≤ front.length ∧
      spec.opening (front ++ s :: back) e.1 e.2 = (spec.opening (front ++ [s]) e.1 e.2).or
        ((back.findIdx? fun s => spec.ready s.after e.2).map (front.length + 1 + ·)) := by
    intro e he
    have hlt := (Step.mem_readsFrom he).2.1
    rw [hsplit, TableSpec.opening_append (by omega), hlength]
    exact ⟨by omega, rfl⟩
  have hlater : ∀ e ∈ Step.readsFrom (front ++ [s]).length back, ¬e.1 ≤ front.length ∧
      spec.opening (front ++ s :: back) e.1 e.2 ≠ some front.length := by
    intro e he
    have hle := (Step.mem_readsFrom he).1
    refine ⟨by omega, fun hopening => ?_⟩
    have hstart := (TableSpec.le_opening hopening).1
    omega
  have hreads : Step.reads (front ++ s :: back) =
      Step.reads (front ++ [s]) ++ Step.readsFrom (front ++ [s]).length back := by
    rw [hsplit, Step.reads_append]
  rw [hreads, List.filter_append, List.filter_append]
  constructor
  · have hnone : ((Step.readsFrom (front ++ [s]).length back).filter fun e =>
        decide (spec.opening (front ++ s :: back) e.1 e.2 = some front.length)) = [] :=
      List.filter_eq_nil_iff.mpr fun e he => by simpa using (hlater e he).2
    rw [hnone, List.append_nil]
    apply List.filter_congr
    intro e he
    rw [(hnow e he).2]
    cases spec.opening (front ++ [s]) e.1 e.2 with
    | some j => rfl
    | none =>
      cases back.findIdx? fun s => spec.ready s.after e.2 with
      | none => rfl
      | some k => simp; omega
  · have hnone : ((Step.readsFrom (front ++ [s]).length back).filter fun e =>
        decide (e.1 ≤ front.length) &&
          (spec.opening (front ++ s :: back) e.1 e.2).all
            fun j => decide (front.length < j)) = [] :=
      List.filter_eq_nil_iff.mpr fun e he => by simp [(hlater e he).1]
    rw [hnone, List.append_nil]
    apply List.filter_congr
    intro e he
    obtain ⟨hle, hopening⟩ := hnow e he
    rw [hopening, decide_eq_true hle, Bool.true_and]
    cases hfront : spec.opening (front ++ [s]) e.1 e.2 with
    | some j =>
      have hlt := (TableSpec.le_opening hfront).2
      simp only [Option.some_or, Option.all_some, Option.isNone_some, decide_eq_false_iff_not]
      omega
    | none =>
      cases back.findIdx? fun s => spec.ready s.after e.2 with
      | none => rfl
      | some k => simp; omega

/-- **Every read is answered once, at its opening.** In any run of a new tablet, whatever is sent to
it, each step answers the reads that it is the opening of, from the store that it leaves behind. A
reset is acknowledged besides, once. And after each step there wait, each once, those among the
reads so far whose opening is still to come. -/
theorem answered_at_opening {table : TableId} {shard : ThreadId}
    (hnew : Tablet.new τ spec table shard range = .ok t) {ms : List Message}
    {steps : List (Step τ)} (hrun : t.run ms = .ok steps) :
    ∀ front s back, steps = front ++ s :: back →
      s.answers.Perm (((Step.reads steps).filter fun e =>
        decide (spec.opening steps e.1 e.2 = some front.length)).map
          fun e => e.2.answerFrom s.after.slice.store) ∧
      (s.took .resetWorkers = true → s.verdict = .ok [s.message.reply]) ∧
      ((s.after.slice.waiting.entries.map (·.2)).filter fun g => decide (g.op = .get)).Perm
        (((Step.reads steps).filter fun e => decide (e.1 ≤ front.length) &&
          (spec.opening steps e.1 e.2).all fun j => decide (front.length < j)).map (·.2)) ∧
      ∀ e ∈ Step.reads steps, e.2.keys = .ok e.2.keyList ∧
        s.after.slice.store.readAll e.2.keyList =
          .ok (e.2.keyList.map s.after.slice.store.value) := by
  intro front s back hsteps
  subst hsteps
  obtain ⟨hopened, hwaiting⟩ := filter_reads_append spec front s back
  have hbefore := accounted_of_run hnew (run_of_append hrun).1
  obtain ⟨hafter, hanswers⟩ := accounted_of_step hbefore (step_of_run hrun)
  refine ⟨by rw [hopened]; exact hanswers,
    verdict_of_close hbefore.toServes (step_of_run hrun), ?_, ?_⟩
  · rw [hwaiting, List.filter_map]
    exact hafter.waits
  · intro e he
    have hreads := (accounted_of_run hnew hrun).fit e.2 (Step.mem_readsFrom he).2.2
    have hcovers := hafter.store
    rw [hafter.range_eq] at hcovers
    exact ⟨hreads.keys_eq, Store.readAll_of_covers hcovers hreads.inside⟩

/-- A table that lets readers run ahead while no other worker has written their keys of late. -/
def cautious : TableSpec := .sparseSsp .sparse 0 1 .sparse

/-- Worker 2 is ahead of worker 1, which has written key 3 but not key 4. It asks for both, and one
of the reads waits when the roster is closed over the two workers, who begin anew. -/
def ahead : List Message := [
  ⟨.add, 1, 7, 0, 0, 0, [.keys [3], .integers [5]]⟩,
  ⟨.clock, 2, 7, 0, 1, 0, []⟩,
  ⟨.get, 2, 7, 0, 1, 1, [.keys [3]]⟩,
  ⟨.get, 2, 7, 0, 1, 2, [.keys [4]]⟩,
  ⟨.resetWorkers, controlThread, 7, 0, 0, 0, [.keys [1, 2]]⟩,
  ⟨.clock, 2, 7, 0, 1, 0, []⟩,
  ⟨.clock, 1, 7, 0, 1, 0, []⟩]

theorem answered_at_opening_ahead :
    ∃ fresh front s back,
      Tablet.new .integer cautious 0 7 ⟨0, 10⟩ = .ok fresh ∧
      fresh.run ahead = .ok (front ++ s :: back) ∧ s.took .resetWorkers = true ∧
      (fresh.finish front).slice.waiting.asking .get = [⟨.get, 2, 7, 0, 1, 1, [.keys [3]]⟩] ∧
      s.after.slice.waiting.asking .get = [⟨.get, 2, 7, 0, 1, 1, [.keys [3]]⟩] ∧
      (Step.reads (front ++ s :: back)).map
        (fun e => cautious.opening (front ++ s :: back) e.1 e.2) = [some 6, some 3] ∧
      ∀ sofar now later, front ++ s :: back = sofar ++ now :: later →
        now.answers.Perm (((Step.reads (front ++ s :: back)).filter fun e =>
          decide (cautious.opening (front ++ s :: back) e.1 e.2 = some sofar.length)).map
            fun e => e.2.answerFrom now.after.slice.store) ∧
        (now.took .resetWorkers = true → now.verdict = .ok [now.message.reply]) := by
  let fresh : Tablet .integer :=
    ⟨.new 0 7 ⟨0, 10⟩ (.sparse .empty), .speculative 0 1 (.sparse .empty)⟩
  have hnew : Tablet.new .integer cautious 0 7 ⟨0, 10⟩ = .ok fresh := rfl
  obtain ⟨a, b, c, d, s, e, f, hrun, htook, hbefore, hafter, hopenings⟩ : ∃ a b c d s e f,
      fresh.run ahead = .ok ([a, b, c, d] ++ s :: [e, f]) ∧ s.took .resetWorkers = true ∧
      d.after.slice.waiting.asking .get = [⟨.get, 2, 7, 0, 1, 1, [.keys [3]]⟩] ∧
      s.after.slice.waiting.asking .get = [⟨.get, 2, 7, 0, 1, 1, [.keys [3]]⟩] ∧
      (Step.reads ([a, b, c, d] ++ s :: [e, f])).map
        (fun g => cautious.opening ([a, b, c, d] ++ s :: [e, f]) g.1 g.2) = [some 6, some 3] :=
    ⟨_, _, _, _, _, _, _, rfl, by decide +kernel, by decide +kernel, by decide +kernel,
      by decide +kernel⟩
  refine ⟨fresh, [a, b, c, d], s, [e, f], hnew, hrun, htook, hbefore, hafter, hopenings, ?_⟩
  intro sofar now later hsteps
  obtain ⟨hanswers, hreset, -⟩ := answered_at_opening hnew hrun sofar now later hsteps
  exact ⟨hanswers, hreset⟩

end Tablet

end ParamServer
