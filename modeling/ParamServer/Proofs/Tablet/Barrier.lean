import Mathlib.Algebra.BigOperators.Group.List.Basic
import Mathlib.Algebra.Ring.Int.Defs
import ParamServer.Proofs.Tablet.Answers
import ParamServer.Proofs.Tablet.Ledger

/-!
# A barrier is exact

Behind a barrier a store of integers is, key by key, the sum of the updates that the minimum has
reached, and the others wait under their own clocks. An update gets there at once or from the
waitlist, and it does not matter which: integers add up to the same in any order, so the books of
`Balance` fix every number. A read that is answered sees these sums and nothing else.
-/

namespace ParamServer

/-- What updates bring for a key, as a whole number. -/
def Message.sumAt (key : Key) (ms : List Message) : Int :=
  ((deltasAt key (ms.flatMap (·.updates .integer))).map Int64.toInt).sum

theorem Message.sumAt_perm {key : Key} {front back : List Message} (h : front.Perm back) :
    sumAt key front = sumAt key back :=
  ((deltasAt_perm key h).map Int64.toInt).sum_eq

theorem ScalarType.toInt_add {a b c : Int64} (h : integer.add a b = .ok c) :
    c.toInt = a.toInt + b.toInt := by
  simp only [add] at h
  split at h
  case isTrue hfits =>
    have hmin : Int64.minValue.toInt = -2 ^ 63 := rfl
    have hmax : Int64.maxValue.toInt = 2 ^ 63 - 1 := rfl
    rw [← Except.ok.inj h]
    exact Int64.toInt_ofInt_of_le (by omega) (by omega)
  case isFalse => cases h

theorem ScalarType.toInt_foldlM {deltas : List Int64} {a v : Int64}
    (h : deltas.foldlM integer.add a = .ok v) :
    v.toInt = a.toInt + (deltas.map Int64.toInt).sum := by
  induction deltas generalizing a with
  | nil =>
    rw [← Except.ok.inj h]
    simp
  | cons delta rest ih =>
    rw [List.foldlM_cons] at h
    cases hsum : integer.add a delta with
    | error why =>
      rw [hsum] at h
      cases h
    | ok sum =>
      rw [hsum] at h
      rw [ih h, toInt_add hsum, List.map_cons, List.sum_cons]
      omega

namespace Tablet

/-- What the updates that the minimum has reached bring for a key. -/
def reachedSum (key : Key) (adds : List Message) (low : Clock) : Int :=
  Message.sumAt key (adds.filter fun m => decide (m.clock ≤ low))

/-- The updates `adds` are where the minimum says: in the store, each once, or waiting, each once
and under its own clock. -/
structure Exact (range : Interval) (t : Tablet .integer) (adds : List Message) : Prop where
  stored : ∀ key ∈ range, ∃ v : Int64, t.slice.store.read key = .ok v ∧
    v.toInt = reachedSum key adds t.slice.minClock
  waiting : (t.slice.waiting.entries.filter fun e => decide (e.2.op = .add)).Perm
    ((adds.filter fun m => decide (t.slice.minClock < m.clock)).map fun m => (m.clock, m))

/-- The read `g` gets the sums of the updates that the minimum `low` has reached, and that minimum
has reached the read as well. -/
def ExactAnswer (g r : Message) (adds : List Message) (low : Clock) : Prop :=
  g.clock ≤ low ∧ ∃ values : List Int64,
    r = { g.reply with blocks := [.keys g.keyList, .integers values] } ∧
    values.map Int64.toInt = g.keyList.map (reachedSum · adds low)

variable {spec : TableSpec} {range : Interval}

theorem value_of_balance {t : Tablet .integer} {landed adds : List Message}
    (hs : t.Serves spec range) (hgate : t.gate = .barrier) (h : t.Balance range landed adds)
    {key : Key} (hkey : key ∈ range) :
    Int64.toInt (t.slice.store.value key) = reachedSum key adds t.slice.minClock := by
  calc Int64.toInt (t.slice.store.value key)
      = (0 : Int64).toInt + Message.sumAt key landed := ScalarType.toInt_foldlM (h.sums key hkey)
    _ = Message.sumAt key landed := by simp
    _ = reachedSum key adds t.slice.minClock :=
      Message.sumAt_perm (landed_of_barrier hs hgate h).1

theorem exact_of_pinned {t : Tablet .integer} {adds gets : List Message}
    (h : t.Pinned spec range adds gets) (hgate : t.gate = .barrier) : t.Exact range adds := by
  obtain ⟨landed, hbalance⟩ := h.balance
  constructor
  · intro key hkey
    have hcovers := h.store
    rw [h.range_eq] at hcovers
    exact ⟨_, Store.read_of_covers hcovers hkey, value_of_balance h.toServes hgate hbalance hkey⟩
  · have hperm := (landed_of_barrier h.toServes hgate hbalance).2.map fun m => (m.clock, m)
    refine List.Perm.trans (List.Perm.of_eq ?_) hperm
    rw [Waitlist.asking, List.map_map]
    symm
    refine (List.map_congr_left ?_).trans (List.map_id _)
    intro e he
    obtain ⟨he, hadd⟩ := List.mem_filter.mp he
    exact Prod.ext (late_of_barrier h.toServes hgate e he (of_decide_eq_true hadd)).1.symm rfl

/-- **One answer.** Whatever made the tablet answer it, the read was taken in before or just now. -/
theorem exactAnswer_of_step {t : Tablet .integer} {adds gets : List Message}
    (h : t.Pinned spec range adds gets) (hgate : t.gate = .barrier) {m : Message}
    (hop : m.op ≠ .resetWorkers) {s : Step .integer} (hstep : t.step m = .ok s)
    {replies : List Message} (hreplies : s.verdict = .ok replies) {r : Message}
    (hr : r ∈ replies) :
    ∃ g ∈ gets ++ Step.taken .get [s],
      ExactAnswer g r (adds ++ Step.taken .add [s]) s.after.slice.minClock := by
  have hafter := pinned_of_step h hop hstep
  rcases step_cases h.toServes hstep with ⟨why, rfl⟩ | ⟨_, t', rfl, hmove⟩
  · cases hreplies
  cases hreplies
  have hgate' : t'.gate = .barrier := (barrier_iff_of_move hmove).mpr hgate
  obtain ⟨landed, hbalance⟩ := hafter.balance
  rw [← Step.answers_of_ne hop replies t'] at hr
  obtain ⟨g, hg, hpasses, rfl⟩ := read_of_answer h.toServes hstep hr
  have htaken : g ∈ gets ++ Step.taken .get [⟨m, .ok replies, t'⟩] :=
    List.mem_append.mpr ((List.mem_append.mp hg).imp_left (h.asked g))
  refine ⟨g, htaken, ?_, g.keyList.map t'.slice.store.value, rfl, ?_⟩
  · simp only [passes, hgate', Gate.passes, Gate.early, Gate.due, Bool.or_false,
      decide_eq_true_eq] at hpasses
    exact hpasses
  · rw [List.map_map]
    apply List.map_congr_left
    intro key hkey
    exact value_of_balance hafter.toServes hgate' hbalance ((hafter.fit g htaken).inside key hkey)

/-- **A barrier is exact**, in every state of every run and in every answer. The run starts from a
new tablet whose roster was closed, and nobody closes it anew; whatever else is sent, in whatever
order and by whomever, is part of it. -/
theorem barrier_exact (hmodel : spec.model = .bsp) {table : TableId} {shard : ThreadId}
    {fresh pinned : Tablet .integer}
    (hnew : Tablet.new .integer spec table shard range = .ok fresh)
    {reset : Message} (hreset : reset.op = .resetWorkers) {ack : List Message}
    (hpin : fresh.handle reset = .ok ack pinned)
    {ms : List Message} (hms : ∀ m ∈ ms, m.op ≠ .resetWorkers)
    {steps : List (Step .integer)} (hrun : pinned.run ms = .ok steps) :
    (∀ front back, steps = front ++ back →
      (pinned.finish front).Exact range (Step.taken .add front)) ∧
    ∀ front s back, steps = front ++ s :: back →
      ∀ replies, s.verdict = .ok replies → ∀ r ∈ replies, ∃ g ∈ Step.taken .get (front ++ [s]),
        ExactAnswer g r (Step.taken .add (front ++ [s])) s.after.slice.minClock := by
  have hstart := pinned_of_reset hnew hreset hpin
  have hbarrier : ∀ {t : Tablet .integer}, t.Serves spec range → t.gate = .barrier :=
    fun hs => Gate.eq_barrier_of_follows hs.follows hmodel
  constructor
  · intro front back hsteps
    have hpinned := pinned_of_append hstart hms (hsteps ▸ hrun)
    exact exact_of_pinned hpinned (hbarrier hpinned.toServes)
  · intro front s back hsteps replies hreplies r hr
    have hpinned := pinned_of_append hstart hms (hsteps ▸ hrun)
    have hop : s.message.op ≠ .resetWorkers := by
      refine hms s.message ?_
      rw [← messages_of_run hrun, hsteps]
      simp
    have hstep := step_of_run (hsteps ▸ hrun)
    rw [Step.taken_append, Step.taken_append]
    exact exactAnswer_of_step hpinned (hbarrier hpinned.toServes) hop hstep hreplies hr

/-- A tablet of the workers 1 and 2. -/
def ofTwo : Tablet .integer :=
  ⟨{ Slice.new 0 7 ⟨0, 10⟩ (.sparse .empty) with roster := Roster.empty.reset [1, 2] }, .barrier⟩

/-- Worker 1 is an iteration ahead, so its update and its read wait until the other one has caught
up. There is a stranger, too. -/
def catchUp : List Message := [
  ⟨.add, 1, 7, 0, 0, 0, [.keys [3], .integers [5]]⟩,
  ⟨.clock, 1, 7, 0, 1, 0, []⟩,
  ⟨.add, 1, 7, 0, 1, 0, [.keys [3], .integers [7]]⟩,
  ⟨.get, 1, 7, 0, 1, 1, [.keys [3]]⟩,
  ⟨.add, 9, 7, 0, 0, 0, [.keys [3], .integers [1]]⟩,
  ⟨.clock, 2, 7, 0, 1, 0, []⟩]

theorem barrier_exact_catchUp :
    ∃ fresh ack steps,
      Tablet.new .integer (.bsp .sparse) 0 7 ⟨0, 10⟩ = .ok fresh ∧
      fresh.handle ⟨.resetWorkers, controlThread, 7, 0, 0, 0, [.keys [1, 2]]⟩ = .ok ack ofTwo ∧
      ofTwo.run catchUp = .ok steps ∧
      (ofTwo.finish steps).Exact ⟨0, 10⟩ (Step.taken .add steps) ∧
      steps.flatMap Step.answers = [⟨.response, 7, 1, 0, 1, 1, [.keys [3], .integers [12]]⟩] ∧
      ∀ front s back, steps = front ++ s :: back →
        ∀ replies, s.verdict = .ok replies → ∀ r ∈ replies, ∃ g ∈ Step.taken .get (front ++ [s]),
          ExactAnswer g r (Step.taken .add (front ++ [s])) s.after.slice.minClock := by
  let fresh : Tablet .integer := ⟨.new 0 7 ⟨0, 10⟩ (.sparse .empty), .barrier⟩
  let reset : Message := ⟨.resetWorkers, controlThread, 7, 0, 0, 0, [.keys [1, 2]]⟩
  have hnew : Tablet.new .integer (.bsp .sparse) 0 7 ⟨0, 10⟩ = .ok fresh := rfl
  have hpin : fresh.handle reset = .ok [reset.reply] ofTwo := rfl
  obtain ⟨steps, hrun⟩ : ∃ steps, ofTwo.run catchUp = .ok steps := ⟨_, rfl⟩
  have hanswers : (ofTwo.run catchUp).toOption.map (·.flatMap Step.answers) =
      some [⟨.response, 7, 1, 0, 1, 1, [.keys [3], .integers [12]]⟩] := by decide +kernel
  obtain ⟨hexact, hanswer⟩ := barrier_exact rfl hnew rfl hpin (by decide) hrun
  refine ⟨fresh, _, steps, hnew, hpin, hrun, hexact steps [] (List.append_nil _).symm, ?_, hanswer⟩
  rw [hrun] at hanswers
  exact Option.some.inj hanswers

end Tablet

end ParamServer
