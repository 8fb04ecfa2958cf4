import Mathlib.Algebra.BigOperators.Group.Finset.Piecewise
import ParamServer.Proofs.Tablet.Barrier
import ParamServer.Proofs.World.Orderly
import ParamServer.Workload

/-!
# Nothing is lost

Every worker reads a batch, adds one to each key of it, and moves its clock on, round after round.
When all are through and the queues are empty, each key holds the number of times that it was
chosen, whatever the rule of the table is and however workers and shards took turns.

What was sent comes to one for each choice so far (`Counted.sums`), and all of it is in a store or
on its way to one. The clocks of a worker reach every shard one by one (`Counted.steady`), so in the
end the minimum is where the workers are and nothing waits for it any more.
-/

namespace ParamServer

variable {τ : ScalarType}

namespace ScalarType

/-- What the workers add to the keys that they have chosen. -/
def one : (τ : ScalarType) → τ.Value
  | .single => ⟨0x3f800000⟩
  | .double => Workload.one
  | .integer => (1 : Int64)

def ones (τ : ScalarType) (batch : List Key) : List τ.Value := batch.map fun _ => τ.one

example : ones .double = Workload.ones := rfl

/-- What a key comes to by `n` ones. -/
def tally (τ : ScalarType) (n : Nat) : Except Fault τ.Value :=
  (List.replicate n τ.one).foldlM τ.add τ.zero

/-- Sums are exact up to `n` ones: `count` tells how many went into them. -/
structure Counts (τ : ScalarType) (count : τ.Value → Int) (n : Nat) : Prop where
  zero : count τ.zero = 0
  add : ∀ k < n, ∀ a b, τ.tally k = .ok a → τ.add a τ.one = .ok b → count b = count a + 1

theorem tally_succ (n : Nat) : τ.tally (n + 1) = τ.tally n >>= fun a => τ.add a τ.one := by
  rw [tally, List.replicate_succ', List.foldlM_append]
  simp only [List.foldlM_cons, List.foldlM_nil, bind_pure]
  rfl

theorem Counts.count_eq {count : τ.Value → Int} {n : Nat} (h : τ.Counts count n) {v : τ.Value}
    (hv : τ.tally n = .ok v) : count v = n := by
  induction n generalizing v with
  | zero =>
    obtain rfl := Except.ok.inj hv
    exact h.zero
  | succ n ih =>
    have hbefore : τ.Counts count n := ⟨h.zero, fun k hk => h.add k (by omega)⟩
    rw [tally_succ] at hv
    cases hsum : τ.tally n with
    | error why =>
      rw [hsum] at hv
      cases hv
    | ok a =>
      rw [hsum] at hv
      rw [h.add n (by omega) a v hsum hv, ih hbefore hsum]
      rfl

/-- Integers are exact as far as they go. -/
theorem counts_toInt (n : Nat) : integer.Counts Int64.toInt n where
  zero := rfl
  add _ _ _ _ _ hadd := toInt_add hadd

theorem deltasAt_ones (key : Key) (batch : List Key) :
    deltasAt key (batch.zip (τ.ones batch)) = List.replicate (batch.count key) τ.one := by
  induction batch with
  | nil => rfl
  | cons k rest ih =>
    rw [ones, List.map_cons, List.zip_cons_cons, ← ones]
    by_cases hk : k = key
    · subst hk
      rw [deltasAt_cons_self, ih, List.count_cons_self, List.replicate_succ]
    · rw [deltasAt_cons_of_ne hk, ih, List.count_cons_of_ne hk]

end ScalarType

/-- How often the workers have chosen a key, after so many rounds each. -/
def Site.chosen (site : Site τ) (batches : Batches) (rounds : ThreadId → Nat) (key : Key) : Nat :=
  ∑ w ∈ site.workers.toFinset, ((List.range (rounds w)).flatMap (batches w)).count key

theorem Site.chosen_update (site : Site τ) (batches : Batches) {rounds : ThreadId → Nat}
    {w : ThreadId} (hw : w ∈ site.workers) (key : Key) :
    site.chosen batches (Function.update rounds w (rounds w + 1)) key =
      site.chosen batches rounds key + (batches w (rounds w)).count key := by
  have hpoint : ∀ v, ((List.range (Function.update rounds w (rounds w + 1) v)).flatMap
      (batches v)).count key = ((List.range (rounds v)).flatMap (batches v)).count key +
        if v = w then (batches w (rounds w)).count key else 0 := by
    intro v
    by_cases hv : v = w
    · subst hv
      rw [Function.update_self, if_pos rfl, List.range_succ, List.flatMap_append,
        List.count_append, List.flatMap_singleton]
    · rw [Function.update_of_ne hv, if_neg hv, Nat.add_zero]
  rw [chosen, Finset.sum_congr rfl fun v _ => hpoint v, Finset.sum_add_distrib,
    Finset.sum_ite_eq', if_pos (List.mem_toFinset.mpr hw)]
  rfl

/-- What a worker has to do next in its round. -/
inductive Stage where
  | reading
  | writing
  | closing
  deriving DecidableEq

/-- Workers at work: how many rounds each is through, and how far it is in the present one. -/
structure Shift (τ : ScalarType) where
  world : World τ
  round : ThreadId → Nat
  stage : ThreadId → Stage

namespace Shift

open World

def start (site : Site τ) : Shift τ := ⟨site.start, fun _ => 0, fun _ => .reading⟩

/-- The number of batches that a worker has added. -/
def added (M : Shift τ) (w : ThreadId) : Nat :=
  M.round w + if M.stage w = .closing then 1 else 0

theorem added_update (M : Shift τ) (world : World τ) (w : ThreadId) (round : Nat) (stage : Stage) :
    added ⟨world, Function.update M.round w round, Function.update M.stage w stage⟩ =
      Function.update M.added w (round + if stage = .closing then 1 else 0) := by
  funext v
  by_cases hvw : v = w
  · subst hvw
    simp only [added, Function.update_self]
  · simp only [added, Function.update_of_ne hvw]

inductive Next (site : Site τ) (batches : Batches) (iterations : Nat) (M : Shift τ) : Shift τ → Prop
  | ask {w : ThreadId} {pull : Pull τ} {session : Session τ} {out : Outbox}
      (hw : w ∈ site.workers) (hidle : (M.world.workers w).call = none)
      (hstage : M.stage w = .reading) (hround : M.round w < iterations)
      (h : (M.world.workers w).session.startPull line (batches w (M.round w)) =
        .ok pull (session, out)) :
      Next site batches iterations M
        { M with
          world := (M.world.post out.sent).seat w
            { M.world.workers w with
              session
              call := some
                { clock := (M.world.workers w).session.clock
                  keys := batches w (M.round w)
                  pull } } }
  | wait {w : ThreadId} {call : Call τ} {front rest : List Message} {pull : Pull τ}
      {session : Session τ} (hw : w ∈ site.workers) (hcall : (M.world.workers w).call = some call)
      (hinbox : (M.world.workers w).inbox.Perm (front ++ rest))
      (h : (M.world.workers w).session.collect call.pull front = .pending pull session) :
      Next site batches iterations M
        { M with
          world := M.world.seat w
            ⟨session, rest, some { call with pull, answers := call.answers ++ front }⟩ }
  | finish {w : ThreadId} {call : Call τ} {used unread rest : List Message}
      {values : List τ.Value} {session : Session τ} (hw : w ∈ site.workers)
      (hcall : (M.world.workers w).call = some call)
      (hinbox : (M.world.workers w).inbox.Perm (used ++ unread ++ rest))
      (h : (M.world.workers w).session.collect call.pull (used ++ unread) =
        .done values session unread) :
      Next site batches iterations M
        { M with
          world := M.world.seat w ⟨session, unread ++ rest, none⟩
          stage := Function.update M.stage w .writing }
  | push {w : ThreadId} {out : Outbox} (hw : w ∈ site.workers)
      (hidle : (M.world.workers w).call = none) (hstage : M.stage w = .writing)
      (h : (M.world.workers w).session.push line (batches w (M.round w))
        (τ.ones (batches w (M.round w))) = .ok () out) :
      Next site batches iterations M
        { M with
          world := M.world.post out.sent
          stage := Function.update M.stage w .closing }
  | tick {w : ThreadId} {session : Session τ} {out : Outbox} (hw : w ∈ site.workers)
      (hidle : (M.world.workers w).call = none) (hstage : M.stage w = .closing)
      (h : (M.world.workers w).session.tick line = .ok () (session, out)) :
      Next site batches iterations M
        { world := (M.world.post out.sent).seat w { M.world.workers w with session }
          round := Function.update M.round w (M.round w + 1)
          stage := Function.update M.stage w .reading }
  | serve {p : ThreadId} {front back : List Message} {m : Message} {s : Step τ}
      (hqueue : (M.world.shards p).queue = front ++ m :: back)
      (hfirst : ∀ k ∈ front, k.sender ≠ m.sender)
      (h : (M.world.shards p).tablet.step m = .ok s) :
      Next site batches iterations M { M with world := M.world.served p (front ++ back) s }

inductive Reachable (site : Site τ) (batches : Batches) (iterations : Nat) : Shift τ → Prop
  | start : Reachable site batches iterations (start site)
  | next {M M' : Shift τ} (h : Reachable site batches iterations M)
      (hnext : Next site batches iterations M M') : Reachable site batches iterations M'

/-! ### What holds all the time -/

/-- A worker in a round. It has used up one number for each read that it has begun, at most. -/
structure Placed (iterations round : Nat) (stage : Stage) (session : Session τ)
    (call : Option (Call τ)) : Prop where
  clock_eq : session.clock.toNat = round
  requests : session.lastRequest.toNat ≤
    round + if stage = .reading ∧ call = none then 0 else 1
  waits : call ≠ none → stage = .reading
  busy : stage ≠ .reading ∨ call ≠ none → round < iterations

structure Counted (site : Site τ) (batches : Batches) (iterations : Nat) (M : Shift τ) : Prop
    extends Orderly site M.world where
  steady : ∀ q ∈ site.layout.pieces, ∀ w ∈ site.workers,
    (M.world.shards q.shard).Steady w (M.world.workers w).session.clock
  placed : ∀ w ∈ site.workers, Placed iterations (M.round w) (M.stage w)
    (M.world.workers w).session (M.world.workers w).call
  behind : ∀ m ∈ M.world.posted, m.clock ≤ (M.world.workers m.sender).session.clock
  sums : ∀ key, deltasAt key (M.world.posted.flatMap (·.updates τ)) =
    List.replicate (site.chosen batches M.added key) τ.one

variable {site : Site τ} {spec : TableSpec} {batches : Batches} {iterations : Nat}
  {M M' : Shift τ} {w : ThreadId}

theorem Counted.timely (h : Counted site batches iterations M) : Timely site M.world :=
  ⟨h.toOrderly, h.steady⟩

theorem counted_start (hclosed : site.Closed spec) :
    Counted site batches iterations (start site) where
  toOrderly := orderly_start hclosed
  steady := (timely_start hclosed).steady
  placed w _ := ⟨rfl, by simp [start, Site.start], fun _ => rfl, by simp [start, Site.start]⟩
  behind _ hm := by cases hm
  sums key := by simp [start, Site.start, Site.chosen, added, deltasAt]

/-- A worker that takes in answers is where it was, or done with reading. -/
theorem Placed.collect {round : Nat} {stage stage' : Stage} {session session' : Session τ}
    {call call' : Option (Call τ)} (h : Placed iterations round stage session call)
    (hcall : call ≠ none) (hsame : session' = { session with abandoned := session'.abandoned })
    (hwaits : call' ≠ none → stage' = .reading) (hbusy : stage' ≠ .reading ∨ call' ≠ none) :
    Placed iterations round stage' session' call' where
  clock_eq := by
    rw [hsame]
    exact h.clock_eq
  requests := by
    rw [hsame, if_neg fun hidle => hbusy.elim (· hidle.1) (· hidle.2)]
    refine Nat.le_trans h.requests (Nat.add_le_add_left ?_ _)
    split <;> omega
  waits := hwaits
  busy _ := h.busy (Or.inr hcall)

/-- One worker has got on in its round. -/
theorem placed_of_seat (h : Counted site batches iterations M) {W : World τ} {worker : Client τ}
    {round : Nat} {stage : Stage} (hsame : W.workers = M.world.workers)
    (hplaced : Placed iterations round stage worker.session worker.call) :
    ∀ v ∈ site.workers, Placed iterations (Function.update M.round w round v)
      (Function.update M.stage w stage v) ((W.seat w worker).workers v).session
      ((W.seat w worker).workers v).call := by
  refine forall_seat (P := fun v client => Placed iterations (Function.update M.round w round v)
    (Function.update M.stage w stage v) client.session client.call) (fun _ => ?_) fun v hv hvw => ?_
  · rwa [Function.update_self, Function.update_self]
  · rw [Function.update_of_ne hvw, Function.update_of_ne hvw, hsame]
    exact h.placed v hv

/-! ### A worker's turn -/

/-- **A call** of a worker, whatever it is. What remains to be seen is what concerns the worker
itself: that its clock messages go on as they should, and that each choice has been paid for. -/
theorem counted_of_turn (h : Counted site batches iterations M)
    (hidle : (M.world.workers w).call = none) {session : Session τ} {asked : Option (Call τ)}
    {ms : List Message} (hturn : (M.world.workers w).Turn site w session asked ms)
    {round : Nat} {stage : Stage}
    (hplaced : Placed iterations round stage session asked)
    (hsteady : ∀ q ∈ site.layout.pieces, Host.Steady
      { M.world.shards q.shard with
        queue := (M.world.shards q.shard).queue ++
          ms.filter fun m => decide (m.receiver = q.shard) } w session.clock)
    (hsums : ∀ key, deltasAt key
      ((M.world.posted ++ ms.filter fun m => decide (m.op = .add)).flatMap (·.updates τ)) =
        List.replicate (site.chosen batches (Function.update M.added w
          (round + if stage = .closing then 1 else 0)) key) τ.one) :
    Counted site batches iterations
      { world := (M.world.post ms).seat w ⟨session, (M.world.workers w).inbox, asked⟩
        round := Function.update M.round w round
        stage := Function.update M.stage w stage } where
  toOrderly := orderly_of_turn h.toOrderly hidle hturn
  steady := (timely_of_turn h.timely hidle hturn hsteady).steady
  placed := placed_of_seat h (W := M.world.post ms) rfl hplaced
  behind m hm := by
    rcases List.mem_append.mp hm with hold | hnew
    · by_cases hmine : m.sender = w
      · rw [hmine, workers_seat_self]
        exact UInt64.le_trans (hmine ▸ h.behind m hold) hturn.clock_le
      · rw [workers_seat_of_ne _ hmine]
        exact h.behind m hold
    · obtain ⟨hmine, hclock, -⟩ := hturn.sends m (List.mem_filter.mp hnew).1
      rw [hmine, workers_seat_self, hclock]
      exact UInt64.le_refl _
  sums key := by
    rw [added_update]
    exact hsums key

/-- Nothing but updates has to be paid for. -/
theorem sums_of_still (h : Counted site batches iterations M) {ms : List Message}
    (hms : ∀ m ∈ ms, m.op ≠ .add) (key : Key) :
    deltasAt key
      ((M.world.posted ++ ms.filter fun m => decide (m.op = .add)).flatMap (·.updates τ)) =
        List.replicate (site.chosen batches (Function.update M.added w (M.added w)) key) τ.one := by
  rw [filter_of_forall_ne hms, List.append_nil, Function.update_eq_self]
  exact h.sums key

theorem counted_of_ask (h : Counted site batches iterations M) (hw : w ∈ site.workers)
    (hidle : (M.world.workers w).call = none) (hstage : M.stage w = .reading)
    (hround : M.round w < iterations) {keys : List Key} {pull : Pull τ} {session : Session τ}
    {out : Outbox}
    (hask : (M.world.workers w).session.startPull line keys = .ok pull (session, out)) :
    Counted site batches iterations
      { M with
        world := (M.world.post out.sent).seat w
          { M.world.workers w with
            session
            call := some { clock := (M.world.workers w).session.clock, keys, pull } } } := by
  obtain ⟨hturn, hclock, hgets⟩ := turn_of_ask (h.attended w hw) hw hidle hask
  have hstill : ∀ m ∈ out.sent, m.op ≠ .clock ∧ m.op ≠ .add := fun m hm => by simp [hgets m hm]
  have hold := h.placed w hw
  have hplaced : Placed iterations (M.round w) (M.stage w) session
      (some { clock := (M.world.workers w).session.clock, keys, pull }) := by
    refine ⟨hclock ▸ hold.clock_eq, ?_, fun _ => hstage, fun _ => hround⟩
    have hrequests := hold.requests
    rw [if_pos ⟨hstage, hidle⟩] at hrequests
    simp only [reduceCtorEq, and_false, if_false]
    exact Nat.le_trans (Session.lastRequest_of_startPull hask) (Nat.add_le_add_right hrequests 1)
  have hnext := counted_of_turn h hidle hturn hplaced
    (fun q hq => hclock ▸ steady_of_still h.timely hw hq fun m hm => (hstill m hm).1)
    (sums_of_still h fun m hm => (hstill m hm).2)
  rwa [Function.update_eq_self, Function.update_eq_self] at hnext

theorem counted_of_push (h : Counted site batches iterations M) (hw : w ∈ site.workers)
    (hidle : (M.world.workers w).call = none) (hstage : M.stage w = .writing) {out : Outbox}
    (hpush : (M.world.workers w).session.push line (batches w (M.round w))
      (τ.ones (batches w (M.round w))) = .ok () out) :
    Counted site batches iterations
      { M with
        world := M.world.post out.sent
        stage := Function.update M.stage w .closing } := by
  obtain ⟨hturn, hlength, runs, hruns, hsent⟩ := turn_of_push (h.attended w hw) hw hidle hpush
  have hadds : ∀ m ∈ out.sent, m.op = .add := by
    rw [hsent]
    exact Session.adds_of_updates
  have hold := h.placed w hw
  have hplaced : Placed iterations (M.round w) .closing (M.world.workers w).session
      (M.world.workers w).call := by
    refine ⟨hold.clock_eq, ?_, by simp [hidle], fun _ => hold.busy (Or.inl (by simp [hstage]))⟩
    have hrequests := hold.requests
    simp only [hstage, reduceCtorEq, false_and, if_false] at hrequests ⊢
    exact hrequests
  have hnext := counted_of_turn h hidle hturn hplaced
    (fun q hq => steady_of_still h.timely hw hq fun m hm => by simp [hadds m hm]) ?_
  · rw [Function.update_eq_self] at hnext
    rw [← seat_self (M.world.post out.sent) w]
    exact hnext
  · intro key
    have hadded : M.added w = M.round w := by simp [added, hstage]
    rw [filter_of_forall_eq hadds, List.flatMap_append, deltasAt_append, h.sums key, hsent,
      Session.pairs_of_updates (Layout.cut_of_runs hruns).1 hlength, ScalarType.deltasAt_ones,
      List.replicate_append_replicate, if_pos rfl, ← hadded, site.chosen_update batches hw]

theorem counted_of_tick (h : Counted site batches iterations M) (hw : w ∈ site.workers)
    (hidle : (M.world.workers w).call = none) (hstage : M.stage w = .closing)
    {session : Session τ} {out : Outbox}
    (htick : (M.world.workers w).session.tick line = .ok () (session, out)) :
    Counted site batches iterations
      { world := (M.world.post out.sent).seat w { M.world.workers w with session }
        round := Function.update M.round w (M.round w + 1)
        stage := Function.update M.stage w .reading } := by
  obtain ⟨hturn, hroom, rfl, hsent⟩ := turn_of_tick (h.attended w hw) hw hidle htick
  have hold := h.placed w hw
  have hclock : (M.world.workers w).session.moved.clock.toNat = M.round w + 1 := by
    rw [← hold.clock_eq]
    exact Session.toNat_add_one hroom
  have hplaced : Placed iterations (M.round w + 1) .reading
      (M.world.workers w).session.moved (M.world.workers w).call := by
    refine ⟨hclock, ?_, fun _ => rfl, by simp [hidle]⟩
    have hrequests := hold.requests
    simp only [hstage, reduceCtorEq, false_and, if_false] at hrequests
    simpa [hidle, Session.moved] using hrequests
  refine counted_of_turn h hidle hturn hplaced ?_ ?_
  · intro q hq
    rw [hsent]
    exact steady_of_moved h.timely hw hq hroom
  · intro key
    have hadded : M.added w = M.round w + 1 := by simp [added, hstage]
    have hticks : ∀ m ∈ out.sent, m.op ≠ .add := by
      rw [hsent]
      exact fun m hm => by simp [Session.clocks_of_ticks m hm]
    simpa [hadded] using sums_of_still (w := w) h hticks key

/-! ### Whatever happens -/

theorem counted_of_collect (h : Counted site batches iterations M) (hw : w ∈ site.workers)
    {call : Call τ} (hcall : (M.world.workers w).call = some call) {worker : Client τ}
    (hsame : worker.session =
      { (M.world.workers w).session with abandoned := worker.session.abandoned })
    (hattended : worker.Attended site M.world.shards w) {stage : Stage}
    (hstage : stage ≠ .closing) (hwaits : worker.call ≠ none → stage = .reading)
    (hbusy : stage ≠ .reading ∨ worker.call ≠ none) :
    Counted site batches iterations
      { M with
        world := M.world.seat w worker
        stage := Function.update M.stage w stage } := by
  have hold := h.placed w hw
  have hreading : M.stage w = .reading := hold.waits (by simp [hcall])
  have hclock : worker.session.clock = (M.world.workers w).session.clock := by rw [hsame]
  refine ⟨orderly_of_seat h.toOrderly hclock hattended,
    (timely_of_seat h.timely hclock hattended).steady, ?_, ?_, ?_⟩
  · have hplaced := placed_of_seat h (W := M.world) (w := w) rfl
      (hold.collect (by simp [hcall]) hsame hwaits hbusy)
    rwa [Function.update_eq_self] at hplaced
  · intro m hm
    by_cases hmine : m.sender = w
    · rw [hmine, workers_seat_self, hclock]
      exact hmine ▸ h.behind m hm
    · rw [workers_seat_of_ne _ hmine]
      exact h.behind m hm
  · intro key
    have hadded : M.round w + (if stage = .closing then 1 else 0) = M.added w := by
      simp [added, hreading, hstage]
    have hnext := M.added_update (M.world.seat w worker) w (M.round w) stage
    rw [Function.update_eq_self, hadded, Function.update_eq_self] at hnext
    rw [hnext]
    exact h.sums key

theorem counted_of_next (hclosed : site.Closed spec) (h : Counted site batches iterations M)
    (hnext : Next site batches iterations M M') : Counted site batches iterations M' := by
  cases hnext with
  | ask hw hidle hstage hround hask => exact counted_of_ask h hw hidle hstage hround hask
  | push hw hidle hstage hpush => exact counted_of_push h hw hidle hstage hpush
  | tick hw hidle hstage htick => exact counted_of_tick h hw hidle hstage htick
  | @wait w _ _ _ _ _ hw hcall hinbox hcollect =>
    obtain ⟨hsame, hattended⟩ := (h.attended w hw).wait hcall hinbox hcollect
    have hreading : M.stage w = .reading := (h.placed w hw).waits (by simp [hcall])
    have hnext := counted_of_collect h hw hcall hsame hattended (by simp [hreading])
      (fun _ => hreading) (Or.inr (by simp))
    rwa [Function.update_eq_self] at hnext
  | @finish w _ _ _ _ _ _ hw hcall hinbox hcollect =>
    obtain ⟨hsame, hattended, -⟩ := (h.attended w hw).finish hcall hinbox hcollect
    exact counted_of_collect h hw hcall hsame hattended (by simp) (by simp) (Or.inl (by simp))
  | serve hqueue hfirst hstep =>
    have hserved := timely_of_serve hclosed h.timely hqueue hfirst hstep
    exact ⟨hserved.toOrderly, hserved.steady, h.placed, h.behind, h.sums⟩

theorem counted_of_reachable (hclosed : site.Closed spec)
    (h : Reachable site batches iterations M) : Counted site batches iterations M := by
  induction h with
  | start => exact counted_start hclosed
  | next _ hnext ih => exact counted_of_next hclosed ih hnext

/-! ### No call fails -/

/-- There are clocks for all rounds, and shards for all keys. -/
structure Feasible (site : Site τ) (batches : Batches) (iterations : Nat) : Prop where
  limit : iterations < UInt64.size
  ascending : ∀ w ∈ site.workers, ∀ i < iterations, (batches w i).Pairwise (· ≤ ·)
  routes : ∀ w ∈ site.workers, ∀ i < iterations, ∀ key ∈ batches w i, site.layout.Routes key

/-- Whatever the worker has to do next, the call does not fail. -/
structure Unhindered (batches : Batches) (iterations : Nat) (M : Shift τ) (w : ThreadId) :
    Prop where
  collects : ∀ call, (M.world.workers w).call = some call → ∀ front rest why session unread,
    (M.world.workers w).inbox.Perm (front ++ rest) →
      (M.world.workers w).session.collect call.pull front ≠ .failed why session unread
  asks : (M.world.workers w).call = none → M.round w < iterations → M.stage w = .reading →
    ∃ pull next,
      (M.world.workers w).session.startPull line (batches w (M.round w)) = .ok pull next
  pushes : (M.world.workers w).call = none → M.round w < iterations → M.stage w = .writing →
    ∃ out, (M.world.workers w).session.push line (batches w (M.round w))
      (τ.ones (batches w (M.round w))) = .ok () out
  ticks : (M.world.workers w).call = none → M.round w < iterations → M.stage w = .closing →
    ∃ next, (M.world.workers w).session.tick line = .ok () next

theorem unhindered_of_counted (h : Counted site batches iterations M)
    (hfeasible : Feasible site batches iterations) (hw : w ∈ site.workers) :
    M.Unhindered batches iterations w := by
  have hworker := h.attended w hw
  have hplaced := h.placed w hw
  have hlimit := hfeasible.limit
  have hascending := hfeasible.ascending w hw
  have hroutes := hfeasible.routes w hw
  rw [← hworker.layout_eq] at hroutes
  refine ⟨?_, fun hidle hround hstage => ?_, fun _ hround _ => ?_, fun _ hround _ => ?_⟩
  · intro call hcall front rest why session unread hinbox
    exact hworker.collect_ne_failed hcall hinbox
  · have hrequests := hplaced.requests
    rw [if_pos ⟨hstage, hidle⟩] at hrequests
    obtain ⟨pull, session, out, hask, -⟩ :=
      startPull_of_routes (hascending _ hround) (hroutes _ hround) fun _ => by omega
    exact ⟨pull, _, hask⟩
  · have hlength : (batches w (M.round w)).length =
        (τ.ones (batches w (M.round w))).length := (List.length_map _).symm
    obtain ⟨out, hpush, -⟩ := push_of_routes (hascending _ hround) (hroutes _ hround) hlength
    exact ⟨out, hpush⟩
  · have hclock := hplaced.clock_eq
    exact ⟨_, tick_line (by omega)⟩

end Shift

/-! ### When all are through -/

/-- Worker `w` reads `keys` and nothing else goes on: it asks each shard concerned once, which
answers at once, and makes `values` of what is in its inbox then, in whatever order that is. -/
def World.Reads (W : World τ) (w : ThreadId) (keys : List Key) (values : List τ.Value) : Prop :=
  ∃ pull session out,
    (W.workers w).session.startPull line keys = .ok pull (session, out) ∧
    (out.sent.map (·.receiver)).Nodup ∧ ∃ answer : Message → Message,
      (∀ g ∈ out.sent, ∃ after,
        (W.shards g.receiver).tablet.step g = .ok ⟨g, .ok [answer g], after⟩) ∧
      ∀ inbox, inbox.Perm ((W.workers w).inbox ++ out.sent.map answer) →
        ∃ session', session.collect pull inbox = .done values session' []

/-- All updates are in and nothing is left to be done. A worker can read whatever it likes, unless
its rounds have used up all numbers that there are for its reads. -/
structure World.Tallied (site : Site τ) (batches : Batches) (iterations : Nat) (W : World τ) :
    Prop where
  minClock : ∀ q ∈ site.layout.pieces,
    (W.shards q.shard).tablet.slice.minClock.toNat = iterations
  waiting : ∀ q ∈ site.layout.pieces, (W.shards q.shard).tablet.slice.waiting.entries = []
  totals : ∃ total : Key → τ.Value,
    (∀ key, site.layout.Routes key →
      τ.tally (site.chosen batches (fun _ => iterations) key) = .ok (total key) ∧
      ∀ count, τ.Counts count (site.chosen batches (fun _ => iterations) key) →
        count (total key) = site.chosen batches (fun _ => iterations) key) ∧
    ∀ w ∈ site.workers, ∀ keys : List Key, keys.Pairwise (· ≤ ·) →
      (∀ key ∈ keys, site.layout.Routes key) → W.Reads w keys (keys.map total) ∨
        (iterations + 1 = UInt64.size ∧
          (W.workers w).session.startPull line keys = .fault .addOverflow)

namespace Shift

open World

variable {site : Site τ} {spec : TableSpec} {batches : Batches} {iterations : Nat}
  {M : Shift τ} {w : ThreadId}

/-- What has been taken in is what was sent. -/
theorem taken_of_drained (h : Counted site batches iterations M) {p : ThreadId}
    (hqueue : (M.world.shards p).queue = []) :
    (M.world.posted.filter fun m => decide (m.receiver = p)).Perm
      (Step.taken .add (M.world.shards p).log) := by
  simpa [hqueue] using h.books p

section Finished

variable (hclosed : site.Closed spec) (h : Counted site batches iterations M)
  (hfinished : ∀ w ∈ site.workers, M.round w = iterations)

include h hfinished

theorem idle_of_finished (hw : w ∈ site.workers) :
    (M.world.workers w).call = none ∧ M.stage w = .reading := by
  have hplaced := h.placed w hw
  have hdone : ¬M.round w < iterations := by
    rw [hfinished w hw]
    exact Nat.lt_irrefl _
  have hnone := mt hplaced.busy hdone
  rw [not_or, not_not, not_not] at hnone
  exact hnone.symm

theorem chosen_of_finished (key : Key) :
    site.chosen batches M.added key = site.chosen batches (fun _ => iterations) key := by
  refine Finset.sum_congr rfl fun w hw => ?_
  have hw := List.mem_toFinset.mp hw
  have hreading := (idle_of_finished h hfinished hw).2
  have hadded : M.added w = iterations := by simp [added, hreading, hfinished w hw]
  rw [hadded]

include hclosed

section Drained

variable {q : Piece} (hq : q ∈ site.layout.pieces) (hqueue : (M.world.shards q.shard).queue = [])

include hq hqueue

theorem minClock_of_drained (hsome : site.workers ≠ []) :
    (M.world.shards q.shard).tablet.slice.minClock.toNat = iterations := by
  obtain ⟨w, hw⟩ := List.exists_mem_of_ne_nil _ hsome
  have hclock : ∀ v ∈ site.workers,
      (M.world.workers v).session.clock = (M.world.workers w).session.clock := by
    intro v hv
    apply UInt64.toNat_inj.mp
    rw [(h.placed v hv).clock_eq, (h.placed w hw).clock_eq, hfinished v hv, hfinished w hw]
  have hthere : ∀ v ∈ site.workers, (M.world.shards q.shard).tablet.slice.roster.clockOf? v =
      some (M.world.workers w).session.clock := by
    intro v hv
    rw [← hclock v hv]
    exact (h.steady q hq v hv).clockOf?_of_nil hqueue
  rw [(h.ran q hq).minClock_eq hclosed hq hsome hthere, (h.placed w hw).clock_eq, hfinished w hw]

theorem waiting_of_drained (hsome : site.workers ≠ []) :
    (M.world.shards q.shard).tablet.slice.waiting.entries = [] := by
  have hpinned := (h.ran q hq).pinned hclosed hq
  obtain ⟨landed, hbalance⟩ := hpinned.balance
  rw [List.eq_nil_iff_forall_not_mem]
  intro e he
  rcases (hpinned.parked e he).fit with ⟨hget, -⟩ | ⟨hadd, -⟩
  · -- Nobody waits for an answer.
    have hmem : e.2 ∈ (M.world.shards q.shard).tablet.slice.waiting.asking .get :=
      List.mem_map_of_mem (List.mem_filter.mpr ⟨he, decide_eq_true hget⟩)
    have hlisted := ((h.ran q hq).fit_of_waiting hclosed hq hmem).1.listed
    obtain ⟨-, -, hpending⟩ :=
      (h.attended _ hlisted).idle (idle_of_finished h hfinished hlisted).1
    have hpends : e.2 ∈ (M.world.shards q.shard).pending e.2.sender :=
      List.mem_filter.mpr ⟨List.mem_append_right _ hmem, decide_eq_true rfl⟩
    rw [hpending q hq] at hpends
    cases hpends
  · -- No update is from beyond the minimum.
    have hmem : e.2 ∈ (M.world.shards q.shard).tablet.slice.waiting.asking .add :=
      List.mem_map_of_mem (List.mem_filter.mpr ⟨he, decide_eq_true hadd⟩)
    have hlate := Tablet.late_of_asking hpinned.toServes e.2 hmem
    have htaken := hbalance.all.mem_iff.mp (List.mem_append_right _ hmem)
    have hposted := (List.mem_filter.mp
      ((taken_of_drained h hqueue).mem_iff.mpr htaken)).1
    obtain ⟨-, r, -, hfit⟩ := h.posted e.2 hposted
    have hbehind := UInt64.le_iff_toNat_le.mp (h.behind e.2 hposted)
    rw [UInt64.lt_iff_toNat_lt, minClock_of_drained hclosed h hfinished hq hqueue hsome] at hlate
    rw [(h.placed _ hfit.listed).clock_eq, hfinished _ hfit.listed] at hbehind
    omega

/-- **Each choice has landed, once.** -/
theorem tally_of_drained (hsome : site.workers ≠ []) {key : Key} (hkey : key ∈ q.range) :
    τ.tally (site.chosen batches (fun _ => iterations) key) =
      .ok ((M.world.shards q.shard).tablet.slice.store.value key) := by
  obtain ⟨landed, hbalance⟩ := ((h.ran q hq).pinned hclosed hq).balance
  have hall := hbalance.all
  have hnone : (M.world.shards q.shard).tablet.slice.waiting.asking .add = [] := by
    rw [Waitlist.asking, waiting_of_drained hclosed h hfinished hq hqueue hsome]
    rfl
  rw [hnone, List.append_nil] at hall
  have hsent := hall.trans (taken_of_drained h hqueue).symm
  have hdeltas : deltasAt key (landed.flatMap (·.updates τ)) =
      List.replicate (site.chosen batches (fun _ => iterations) key) τ.one := by
    rw [← List.perm_replicate, ← chosen_of_finished h hfinished, ← h.sums key]
    refine (Message.deltasAt_perm key hsent).trans (List.Perm.of_eq ?_)
    apply Message.deltasAt_filter
    intro m hm hkeys
    obtain ⟨hop, r, hr, hfit⟩ := h.posted m hm
    exact decide_eq_true (hfit.receiver_of_mem hr hop hq hkey hkeys)
  rw [ScalarType.tally, ← hdeltas]
  exact hbalance.sums key hkey

end Drained

section Reads

variable (hdrained : ∀ q ∈ site.layout.pieces, (M.world.shards q.shard).queue = [])
  (hsome : site.workers ≠ []) (hw : w ∈ site.workers)

include hdrained hsome hw

/-- A request finds the minimum where the workers are, and is answered at once. -/
theorem answered_of_drained {g : Message} {q : Piece} (hq : q ∈ site.layout.pieces)
    (hfit : site.Fit q g) (hop : g.op = .get)
    (hclock : g.clock = (M.world.workers w).session.clock) :
    ∃ after, (M.world.shards g.receiver).tablet.step g =
      .ok ⟨g, .ok [g.answerFrom (M.world.shards g.receiver).tablet.slice.store], after⟩ := by
  have hpinned := (h.ran q hq).pinned hclosed hq
  have hreads := hfit.reads hop
  obtain ⟨seen, hknown⟩ := ((h.ran q hq).known_iff hclosed hq g.sender).mpr hfit.listed
  have hnear : g.clock.toNat ≤ (M.world.shards q.shard).tablet.slice.minClock.toNat := by
    rw [minClock_of_drained hclosed h hfinished hq (hdrained q hq) hsome, hclock,
      (h.placed w hw).clock_eq, hfinished w hw]
  have hpasses : (M.world.shards q.shard).tablet.passes g = true :=
    (Tablet.passes_eq_ready hpinned.follows hreads.keys_eq).trans (spec.ready_of_le hnear)
  have hanswer := Tablet.handle_eq_answer hpinned.toSound hop (hpinned.range_eq ▸ hreads)
    (Roster.enrol_of_known hknown) hpasses
  rw [hfit.receiver_eq, Tablet.step, hanswer]
  exact ⟨_, rfl⟩

theorem reads_of_drained {total : Key → τ.Value}
    (htotal : ∀ q ∈ site.layout.pieces, ∀ key ∈ q.range,
      (M.world.shards q.shard).tablet.slice.store.value key = total key)
    {keys : List Key} {pull : Pull τ} {session : Session τ} {out : Outbox}
    (hask : (M.world.workers w).session.startPull line keys = .ok pull (session, out))
    (hone : site.layout.OneEach keys out.sent) : M.world.Reads w keys (keys.map total) := by
  have hworker := h.attended w hw
  have hidle := (idle_of_finished h hfinished hw).1
  obtain ⟨hturn, hclock, hgets⟩ := turn_of_ask hworker hw hidle hask
  obtain ⟨-, -, hbacked, hcut⟩ := hturn.asked _ rfl
  let answer : Message → Message := fun g =>
    g.answerFrom (M.world.shards g.receiver).tablet.slice.store
  refine ⟨pull, session, out, hask, hone.distinct, answer, ?_, ?_⟩
  · intro g hg
    obtain ⟨-, hclock', q, hq, hfit⟩ := hturn.sends g hg
    exact answered_of_drained hclosed h hfinished hdrained hsome hw hq hfit (hgets g hg)
      (hclock'.trans hclock)
  · intro inbox hinbox
    rw [(hworker.idle hidle).2.1, List.nil_append] at hinbox
    have hanswer : ∀ g ∈ out.sent, Session.IsAnswer τ g (answer g) := by
      intro g hg
      obtain ⟨-, -, q, hq, hfit⟩ := hturn.sends g hg
      exact Session.isAnswer_answerFrom (hfit.reads (hgets g hg)) _
    have howes : session.Owes (some pull) (out.sent ++ []) [] := by
      have howes := hturn.owes
      rwa [filter_of_forall_eq hgets, ← List.append_nil out.sent] at howes
    have hanswered := Session.owes_of_perm (Session.owes_answers howes hanswer)
      (List.Perm.refl _) hinbox.symm
    have hsettled : ∀ r, session.abandoned.get? r = none := by
      rw [hturn.abandoned_eq]
      exact hworker.settled
    obtain ⟨session', pull', hcollect, hzero, hkept, hbacked'⟩ :=
      Session.collect_of_answered hanswered hsettled hbacked
    have hsourced := Pull.sourced_of_backed (hkept.runs ▸ hcut) hzero hbacked'
    have hvalues : pull'.values = keys.map total := by
      refine hsourced.values_eq ?_
      intro a ha run hrun
      obtain ⟨g, hg, rfl⟩ := List.mem_map.mp (hinbox.mem_iff.mp ha)
      obtain ⟨-, -, q, hq, hfit⟩ := hturn.sends g hg
      obtain rfl : g.keyList = run := Except.ok.inj hrun
      rw [Message.values_eq_ok rfl, hfit.receiver_eq]
      congr 1
      apply List.map_congr_left
      exact fun key hkey => htotal q hq key ((hfit.reads (hgets g hg)).inside key hkey)
    exact ⟨session', by rw [hcollect, hvalues]⟩

end Reads

end Finished

theorem tallied_of_counted (hclosed : site.Closed spec) (hsome : site.workers ≠ [])
    (hcounted : Counted site batches iterations M)
    (hfinished : ∀ w ∈ site.workers, M.round w = iterations)
    (hdrained : ∀ q ∈ site.layout.pieces, (M.world.shards q.shard).queue = []) :
    M.world.Tallied site batches iterations := by
  let tally : Key → Except Fault τ.Value := fun key =>
    τ.tally (site.chosen batches (fun _ => iterations) key)
  let total : Key → τ.Value := fun key => (tally key).toOption.getD τ.zero
  have hthere : ∀ q ∈ site.layout.pieces, ∀ key ∈ q.range,
      tally key = .ok ((M.world.shards q.shard).tablet.slice.store.value key) := by
    intro q hq key hkey
    exact tally_of_drained hclosed hcounted hfinished hq (hdrained q hq) hsome hkey
  have htotal : ∀ q ∈ site.layout.pieces, ∀ key ∈ q.range,
      (M.world.shards q.shard).tablet.slice.store.value key = total key := by
    intro q hq key hkey
    simp only [total, hthere q hq key hkey]
    rfl
  refine ⟨?_, ?_, total, ?_, ?_⟩
  · exact fun q hq => minClock_of_drained hclosed hcounted hfinished hq (hdrained q hq) hsome
  · exact fun q hq => waiting_of_drained hclosed hcounted hfinished hq (hdrained q hq) hsome
  · rintro key ⟨q, hq, hkey⟩
    have htally : tally key = .ok (total key) := by rw [hthere q hq key hkey, htotal q hq key hkey]
    exact ⟨htally, fun count hcount => hcount.count_eq htally⟩
  · intro w hw keys hascending hroutes
    have hplaced := hcounted.placed w hw
    obtain ⟨hidle, hreading⟩ := idle_of_finished hcounted hfinished hw
    rw [← (hcounted.attended w hw).layout_eq] at hroutes
    by_cases hfull : keys ≠ [] ∧ (M.world.workers w).session.lastRequest.toNat + 1 = UInt64.size
    · right
      have hrequests := hplaced.requests
      rw [if_pos ⟨hreading, hidle⟩, hfinished w hw] at hrequests
      have hsize := (M.world.workers w).session.clock.toNat_lt_size
      rw [hplaced.clock_eq, hfinished w hw] at hsize
      exact ⟨by omega, startPull_of_full hascending hroutes hfull.1 hfull.2⟩
    · left
      obtain ⟨pull, session, out, hask, hone⟩ := startPull_of_routes hascending hroutes
        fun hkeys hroom => hfull ⟨hkeys, hroom⟩
      exact reads_of_drained hclosed hcounted hfinished hdrained hsome hw htotal hask
        ((hcounted.attended w hw).layout_eq ▸ hone)

/-- **Nothing is lost**, and nobody is stopped. No call fails before all rounds are done, and when
they are and the queues are empty, each key holds the number of times that it was chosen. -/
theorem tallied_of_reachable (hclosed : site.Closed spec) (hsome : site.workers ≠ [])
    (h : Reachable site batches iterations M) :
    (Feasible site batches iterations →
      ∀ w ∈ site.workers, M.Unhindered batches iterations w) ∧
    ((∀ w ∈ site.workers, M.round w = iterations) →
      (∀ q ∈ site.layout.pieces, (M.world.shards q.shard).queue = []) →
      M.world.Tallied site batches iterations) := by
  have hcounted := counted_of_reachable hclosed h
  exact ⟨fun hfeasible w hw => unhindered_of_counted hcounted hfeasible hw,
    tallied_of_counted hclosed hsome hcounted⟩

/-- Worker 8 chooses one key and worker 9 the same and another. -/
def choices : Batches := fun w _ => if w = 8 then [3] else [3, 7]

/-- Both workers do one round. Worker 9 begins when worker 8 is through with it, though no shard has
got to that yet. On the way, when worker 8 is about to add its batch and worker 9 has not begun,
neither is held up. In the end worker 9 reads 2 at the key that both have chosen. -/
theorem tallied_of_reachable_pair :
    ∃ N M : Shift .integer, Reachable pair choices 1 N ∧ N.stage 8 = .writing ∧
      N.stage 9 = .reading ∧ (∀ w ∈ pair.workers, N.Unhindered choices 1 w) ∧
      Reachable pair choices 1 M ∧ M.world.Tallied pair choices 1 ∧
      pair.chosen choices (fun _ => 1) 3 = 2 ∧
      ∃ value : Int64, value.toInt = 2 ∧ M.world.Reads 9 [3] [value] := by
  let eight := ((start pair).world.workers 8).session
  let nine := ((start pair).world.workers 9).session
  let ask : ThreadId → ThreadId → Key → Message := fun w p key =>
    ⟨.get, w, p, 0, 0, 1, [.keys [key]]⟩
  let answer : ThreadId → ThreadId → Key → Int64 → Message := fun p w key v =>
    ⟨.response, p, w, 0, 0, 1, [.keys [key], .integers [v]]⟩
  let add : ThreadId → ThreadId → Key → Message := fun w p key =>
    ⟨.add, w, p, 0, 0, 0, [.keys [key], .integers [1]]⟩
  let once : ThreadId → ThreadId → Message := fun w p => ⟨.clock, w, p, 0, 1, 0, []⟩
  let first : Call .integer := ⟨0, [3], Session.asking 1 [⟨1, 0, [3]⟩], []⟩
  let second : Call .integer := ⟨0, [3, 7], Session.asking 1 [⟨1, 0, [3]⟩, ⟨2, 1, [7]⟩], []⟩
  have hask8 : eight.startPull line [3] = .ok first.pull (_, _) := rfl
  have hask9 : nine.startPull line [3, 7] = .ok second.pull (_, _) := rfl
  have hread8 : eight.numbered.collect first.pull [answer 1 8 3 0] = .done [(0 : Int64)] _ [] := rfl
  have hread9 : nine.numbered.collect second.pull [answer 1 9 3 1, answer 2 9 7 0] =
    .done [(1 : Int64), (0 : Int64)] _ [] := rfl
  have hpush8 : eight.numbered.push line [3] (ScalarType.ones .integer [3]) = .ok () _ := rfl
  have hpush9 : nine.numbered.push line [3, 7] (ScalarType.ones .integer [3, 7]) = .ok () _ := rfl
  have htick8 : eight.numbered.tick line = .ok () (_, _) := rfl
  have htick9 : nine.numbered.tick line = .ok () (_, _) := rfl
  have h0 : Reachable pair choices 1 (start pair) := .start
  have h1 := h0.next (.ask (w := 8) (by decide) rfl rfl (by decide) hask8)
  have h2 := h1.next (@Next.serve _ _ _ _ _ 1 [] [] (ask 8 1 3) _ rfl (by decide) rfl)
  have h3 := h2.next (@Next.finish _ _ _ _ _ 8 first [answer 1 8 3 0] [] [] _ _ (by decide) rfl
    (List.Perm.of_eq (by decide +kernel)) hread8)
  have h4 := h3.next (.push (w := 8) (by decide) rfl rfl hpush8)
  have h5 := h4.next (.tick (w := 8) (by decide) rfl rfl htick8)
  have h6 := h5.next (.ask (w := 9) (by decide) rfl rfl (by decide) hask9)
  have h7 := h6.next (@Next.serve _ _ _ _ _ 1 [] [once 8 1, ask 9 1 3] (add 8 1 3) _ rfl
    (by decide) rfl)
  have h8 := h7.next (@Next.serve _ _ _ _ _ 1 [] [ask 9 1 3] (once 8 1) _ rfl (by decide) rfl)
  have h9 := h8.next (@Next.serve _ _ _ _ _ 1 [] [] (ask 9 1 3) _ rfl (by decide) rfl)
  have h10 := h9.next (@Next.serve _ _ _ _ _ 2 [once 8 2] [] (ask 9 2 7) _ rfl (by decide) rfl)
  have h11 := h10.next (@Next.finish _ _ _ _ _ 9 second [answer 1 9 3 1, answer 2 9 7 0] [] [] _ _
    (by decide) rfl (List.Perm.of_eq (by decide +kernel)) hread9)
  have h12 := h11.next (.push (w := 9) (by decide) rfl rfl hpush9)
  have h13 := h12.next (.tick (w := 9) (by decide) rfl rfl htick9)
  have h14 := h13.next (@Next.serve _ _ _ _ _ 1 [] [once 9 1] (add 9 1 3) _ rfl (by decide) rfl)
  have h15 := h14.next (@Next.serve _ _ _ _ _ 1 [] [] (once 9 1) _ rfl (by decide) rfl)
  have h16 := h15.next (@Next.serve _ _ _ _ _ 2 [] [add 9 2 7, once 9 2] (once 8 2) _ rfl
    (by decide) rfl)
  have h17 := h16.next (@Next.serve _ _ _ _ _ 2 [] [once 9 2] (add 9 2 7) _ rfl (by decide) rfl)
  have h18 := h17.next (@Next.serve _ _ _ _ _ 2 [] [] (once 9 2) _ rfl (by decide) rfl)
  have hthree : pair.layout.Routes 3 := by decide
  have hseven : pair.layout.Routes 7 := by decide
  have hfeasible : Feasible pair choices 1 :=
    ⟨by decide, Site.forall_workers_duet (by decide) (by decide),
      Site.forall_workers_duet (fun _ _ => List.forall_mem_singleton.mpr hthree)
        (fun _ _ => List.forall_mem_cons.mpr ⟨hthree, List.forall_mem_singleton.mpr hseven⟩)⟩
  have hchosen : pair.chosen choices (fun _ => 1) 3 = 2 := by decide +kernel
  have htallied := (tallied_of_reachable closed_pair (by decide) h18).2
    (Site.forall_workers_duet rfl rfl) (Site.forall_pieces_duet rfl rfl)
  obtain ⟨total, htotal, hreads⟩ := htallied.totals
  have htwo := (htotal 3 hthree).2 Int64.toInt (ScalarType.counts_toInt _)
  rw [hchosen] at htwo
  have hkeys : ∀ key ∈ [(3 : Key)], pair.layout.Routes key := List.forall_mem_singleton.mpr hthree
  have hread := (hreads 9 (by decide) [3] (by decide) hkeys).resolve_right fun hfull =>
    absurd hfull.1 (by decide)
  exact ⟨_, _, h3, rfl, rfl, (tallied_of_reachable closed_pair (by decide) h3).1 hfeasible, h18,
    htallied, hchosen, total 3, htwo, hread⟩

end Shift

end ParamServer
