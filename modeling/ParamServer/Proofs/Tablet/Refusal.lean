import ParamServer.Proofs.Tablet.Flow
import ParamServer.Proofs.Tablet.Run

/-!
# What is refused, and what is carried out

Whether a message is taken in depends on what it says, on the range and on who the workers are. One
that is not admitted is refused over what it says, before anything has been touched. One that is
admitted is carried out in full: behind the door neither the store nor the log refuses anything, now
or when something that has waited is let go of. The one thing that can still happen there is that a
sum leaves its type, and then nothing is answered at all (`handle_of_admits`).
-/

namespace ParamServer

variable {τ : ScalarType} {α β : Type}

/-! ### Refusals are about the message -/

/-- If it fails, then over what a message says. -/
def BlamesMessage (x : Except Error α) : Prop :=
  ∀ why, x = .error why → ∃ cause, why = .malformed cause

theorem blamesMessage_ok (a : α) : BlamesMessage (.ok a) := by
  intro why h
  cases h

theorem blamesMessage_malformed (cause : Malformed) :
    BlamesMessage (.error (.malformed cause) : Except Error α) := by
  intro why h
  exact ⟨cause, (Except.error.inj h).symm⟩

theorem blamesMessage_mapError (x : Except Malformed α) :
    BlamesMessage (x.mapError .malformed) := by
  cases x with
  | ok a => exact blamesMessage_ok a
  | error cause => exact blamesMessage_malformed cause

theorem BlamesMessage.bind {x : Except Error α} {f : α → Except Error β} (hx : BlamesMessage x)
    (hf : ∀ a, BlamesMessage (f a)) : BlamesMessage (x >>= f) := by
  cases x with
  | ok a => exact hf a
  | error why =>
    intro why' h
    obtain rfl := Except.error.inj h
    exact hx why rfl

theorem blamesMessage_mapM {f : α → Except Error β} (hf : ∀ a, BlamesMessage (f a))
    (l : List α) : BlamesMessage (l.mapM f) := by
  induction l with
  | nil => exact blamesMessage_ok []
  | cons a rest ih =>
    rw [List.mapM_cons]
    exact (hf a).bind fun b => ih.bind fun bs => blamesMessage_ok (b :: bs)

namespace Roster

theorem blamesMessage_check (r : Roster) (worker : ThreadId) : BlamesMessage (r.check worker) := by
  unfold check
  split
  · exact blamesMessage_malformed _
  · exact blamesMessage_ok _

theorem blamesMessage_enrol (r : Roster) (worker : ThreadId) : BlamesMessage (r.enrol worker) := by
  unfold enrol
  split
  · exact blamesMessage_ok r
  · exact (r.blamesMessage_check worker).bind fun _ => blamesMessage_ok _

theorem blamesMessage_advance (r : Roster) (worker : ThreadId) (clock : Clock) :
    BlamesMessage (r.advance worker clock) := by
  have hmove : ∀ current, BlamesMessage (do
      if clock ≤ current then throw (.malformed (.clockNotAhead worker current clock))
      let clocks := r.clocks.insert worker clock
      let low := lowest clocks
      return (if low > r.minClock then some low else none,
        ({ r with clocks, minClock := low } : Roster))) := by
    intro current
    dsimp only
    split
    · exact (blamesMessage_malformed _).bind fun _ => blamesMessage_ok _
    · exact blamesMessage_ok _
  unfold advance
  dsimp only
  split
  · exact (blamesMessage_ok _).bind hmove
  · exact (r.blamesMessage_check worker).bind fun _ => (blamesMessage_ok _).bind hmove

end Roster

namespace Slice

variable (s : Slice τ) (m : Message)

theorem blamesMessage_checkKeys : BlamesMessage (s.checkKeys m) := by
  refine (blamesMessage_mapError m.keys).bind fun keys => ?_
  by_cases hsorted : ascending keys = true
  · rw [if_pos hsorted]
    cases keys.find? (· ∉ s.range) with
    | some key => exact blamesMessage_malformed _
    | none => exact blamesMessage_ok _
  · rw [if_neg hsorted]
    exact blamesMessage_malformed _

theorem blamesMessage_deltas : BlamesMessage (deltas τ m) :=
  (blamesMessage_mapError m.keys).bind fun _ =>
    (blamesMessage_mapError (m.values τ)).bind fun _ => blamesMessage_ok _

theorem blamesMessage_acceptAdd : BlamesMessage (s.acceptAdd m) := by
  refine (s.roster.blamesMessage_check m.sender).bind fun _ => ?_
  refine (s.blamesMessage_checkKeys m).bind fun _ => ?_
  refine (blamesMessage_deltas m).bind fun pairs => ?_
  have henrol : BlamesMessage (do return { s with roster := ← s.roster.enrol m.sender }) :=
    (s.roster.blamesMessage_enrol m.sender).bind fun _ => blamesMessage_ok _
  by_cases hlength : pairs.1.length ≠ pairs.2.length
  · simp only [if_pos hlength]
    exact (blamesMessage_malformed _).bind fun _ => henrol
  · simp only [if_neg hlength]
    exact henrol

theorem blamesMessage_acceptGet : BlamesMessage (s.acceptGet m) := by
  refine (s.roster.blamesMessage_check m.sender).bind fun _ => ?_
  refine (s.blamesMessage_checkKeys m).bind fun _ => ?_
  exact (s.roster.blamesMessage_enrol m.sender).bind fun _ => blamesMessage_ok _

theorem blamesMessage_workerId (key : Key) : BlamesMessage (workerId key) := by
  unfold workerId
  split
  · exact blamesMessage_ok _
  · exact blamesMessage_malformed _

theorem mapM_workerId_isOk_iff {keys : List Key} :
    (∃ workers, keys.mapM workerId = .ok workers) ↔ ∀ key ∈ keys, key.toNat < UInt32.size := by
  induction keys with
  | nil => exact iff_of_true ⟨[], rfl⟩ (by simp)
  | cons key rest ih =>
    rw [List.mapM_cons, List.forall_mem_cons, ← ih]
    by_cases hkey : key.toNat < UInt32.size
    · simp only [workerId, if_pos hkey]
      cases rest.mapM workerId with
      | error why => simp [bind, Except.bind]
      | ok workers => simp [bind, Except.bind, pure, Except.pure, hkey]
    · simp only [workerId, if_neg hkey]
      simp [bind, Except.bind, hkey]

theorem blamesMessage_resetWorkers : BlamesMessage (s.resetWorkers m) :=
  (blamesMessage_mapError m.keys).bind fun keys =>
    (blamesMessage_mapM blamesMessage_workerId keys).bind fun _ => blamesMessage_ok _

end Slice

namespace Gate

/-- Where there is a log, each key of an update carries its stamp. -/
def Stamped (g : Gate) (m : Message) : Prop :=
  match g with
  | .speculative _ _ log => ∀ key ∈ m.keyList, ⟨m.sender, m.clock⟩ ∈ log.stamps key
  | _ => True

theorem stamped_note {g : Gate} {range : Interval} (hcovers : g.Covers range) {m : Message}
    (hreads : m.ReadsIn range) : (g.note m).Stamped m := by
  cases g with
  | speculative staleness threshold log =>
    obtain ⟨log', hlog, -, -⟩ :=
      WriteLog.recordAll_of_covers hcovers hreads.inside m.sender m.clock
    simp only [note, hlog]
    intro key hkey
    exact (WriteLog.stamps_recordAll hcovers hreads.inside hlog key _).mpr (Or.inr ⟨hkey, rfl⟩)
  | _ => trivial

end Gate

namespace Tablet

variable {t t' : Tablet τ} {m : Message}

theorem malformed_of_refused (hs : t.Sound) {why : Error} (h : t.handle m = .error why t') :
    t' = t ∧ ∃ cause, why = .malformed cause := by
  refine ⟨eq_of_handle_error hs m h, ?_⟩
  cases hop : m.op with
  | add =>
    simp only [handle, hop] at h
    rcases onAdd_cases hs m hop with ⟨why', haccept, hadd⟩ | ⟨why', hadd⟩ | ⟨u, hadd, -⟩
    all_goals
      rw [hadd] at h
      cases h
    exact t.slice.blamesMessage_acceptAdd m _ haccept
  | get =>
    simp only [handle, hop] at h
    rcases onGet_cases hs m hop with ⟨why', haccept, hget⟩ | ⟨reply, u, hget, -⟩
    all_goals
      rw [hget] at h
      cases h
    exact t.slice.blamesMessage_acceptGet m _ haccept
  | clock =>
    exact t.slice.roster.blamesMessage_advance m.sender m.clock _ (advance_of_refused hop h)
  | resetWorkers =>
    simp only [handle, hop, onReset] at h
    cases hreset : t.slice.resetWorkers m with
    | error why' =>
      rw [hreset] at h
      cases h
      exact t.slice.blamesMessage_resetWorkers m _ hreset
    | ok ack =>
      rw [hreset] at h
      cases h
  | response =>
    simp only [handle, hop] at h
    cases h
    exact ⟨_, rfl⟩

/-! ### Who and what is admitted -/

/-- Whether a message is taken in: its sender is known, or anybody is welcome, and what it says fits
the range, the type and the clocks. -/
def Admits (t : Tablet τ) (m : Message) : Prop :=
  let known := t.slice.roster.closed = true → ∃ clock, t.slice.roster.clockOf? m.sender = some clock
  match m.op with
  | .add => known ∧ m.AddsIn τ t.slice.range
  | .get => known ∧ m.ReadsIn t.slice.range
  | .clock => known ∧ (t.slice.roster.clockOf? m.sender).getD 0 < m.clock
  | .resetWorkers => ∃ workers, m.keys = .ok workers ∧ ∀ w ∈ workers, w.toNat < UInt32.size
  | .response => False

/-- The updates that a message makes land: itself, or those that a risen minimum lets go of. -/
def landing (t : Tablet τ) (m : Message) : List Message :=
  match m.op with
  | .add =>
    match t.slice.roster.enrol m.sender with
    | .ok roster => if t.gate.model = .bsp ∧ roster.minClock < m.clock then [] else [m]
    | .error _ => []
  | .clock =>
    match t.slice.roster.advance m.sender m.clock with
    | .ok (some low, _) => (t.slice.waiting.asking .add).filter fun m => decide (m.clock ≤ low)
    | _ => []
  | _ => []

/-- Whether what a message makes land takes the value of some key out of its type. -/
def Overflows (t : Tablet τ) (m : Message) : Prop :=
  t.slice.store.Overflows t.slice.range ((t.landing m).flatMap (·.updates τ))

theorem not_overflows_of_landing_nil (h : t.landing m = []) : ¬t.Overflows m := by
  rintro ⟨key, -, why, hwhy⟩
  rw [h] at hwhy
  cases hwhy

theorem asking_add_of_not_barrier (hs : t.Sound) (hgate : t.gate ≠ .barrier) :
    t.slice.waiting.asking .add = [] := by
  rw [Waitlist.asking, filter_of_forall_ne fun e he => by simp [(hs.reads hgate e he).1]]
  rfl

/-- A message is answered, or a sum leaves its type and nothing is. -/
def Settled (t : Tablet τ) (m : Message) : Prop :=
  (¬t.Overflows m ∧ ∃ replies t', t.handle m = .ok replies t') ∨
    (t.Overflows m ∧ t.handle m = .fault .addOverflow)

theorem settled_add (hs : t.Sound) (hop : m.op = .add) (hadds : m.AddsIn τ t.slice.range)
    {roster : Roster} (henrol : t.slice.roster.enrol m.sender = .ok roster) : t.Settled m := by
  by_cases hgate : t.gate = .barrier → m.clock ≤ roster.minClock
  · have hlanding : t.landing m = [m] := by
      simp only [landing, hop, henrol]
      refine if_neg fun hlate => ?_
      exact UInt64.not_le.mpr hlate.2 (hgate (Gate.eq_barrier_iff.mpr hlate.1))
    have hoverflows :
        t.Overflows m ↔ t.slice.store.Overflows t.slice.range (m.updates τ) := by
      rw [Overflows, hlanding, List.flatMap_singleton]
    rw [Settled, hoverflows]
    simp only [handle, hop, onAdd_eq hs m hadds henrol hgate]
    rcases Store.addAll_cases hs.store hadds.inside_updates with ⟨hfit, s, h⟩ | ⟨hlarge, h⟩
    · exact Or.inl ⟨hfit, _, _, by rw [h]; rfl⟩
    · exact Or.inr ⟨hlarge, by rw [h]; rfl⟩
  · obtain ⟨hgate, hlate⟩ := Classical.not_imp.mp hgate
    have hlate := UInt64.not_le.mp hlate
    have hlanding : t.landing m = [] := by
      simp only [landing, hop, henrol]
      exact if_pos ⟨Gate.eq_barrier_iff.mp hgate, hlate⟩
    refine Or.inl ⟨not_overflows_of_landing_nil hlanding, ?_⟩
    simp only [handle, hop, onAdd_eq_park m hadds henrol hgate hlate]
    exact ⟨_, _, rfl⟩

theorem settled_clock (hs : t.Sound) (hop : m.op = .clock) {risen : Option Clock} {roster : Roster}
    (hadvance : t.slice.roster.advance m.sender m.clock = .ok (risen, roster)) : t.Settled m := by
  cases risen with
  | none =>
    refine Or.inl ⟨not_overflows_of_landing_nil ?_, ?_⟩
    · simp only [landing, hop, hadvance]
    · simp only [handle, hop, onClock, hadvance]
      exact ⟨_, _, rfl⟩
  | some low =>
    let moved : Tablet τ := ⟨{ t.slice with roster }, t.gate⟩
    have hlanding : t.landing m =
        (t.slice.waiting.asking .add).filter fun m => decide (m.clock ≤ low) := by
      simp only [landing, hop, hadvance]
    have hhandle : t.handle m = moved.release low := by
      simp only [handle, hop, onClock, hadvance]
      rfl
    -- Only behind a barrier do updates wait, and only there can letting go of them fail.
    by_cases hgate : t.gate = .barrier
    · have hupdates : ((moved.freed low).filter fun e => e.2.op = .add).flatMap
          (fun e => e.2.updates τ) = (t.landing m).flatMap (·.updates τ) := by
        have hpasses : (moved.gate.forget low).passes low = fun m => decide (m.clock ≤ low) := by
          funext m
          simp [moved, hgate, Gate.forget, Gate.passes, Gate.due, Gate.early]
        have hfreed := moved.asking_freed low .add
        rw [hpasses] at hfreed
        rw [hlanding, ← hfreed, List.flatMap_map]
      have hmoved := hs.moved roster
      rw [Settled, hhandle, Overflows, ← hupdates]
      rcases Store.addAll_cases hmoved.store (inside_freed hmoved low) with
        ⟨hfit, s, h⟩ | ⟨hlarge, h⟩
      · exact Or.inl ⟨hfit, _, _, release_of_addAll_ok hmoved hgate h⟩
      · exact Or.inr ⟨hlarge, release_of_addAll_fault hmoved hgate h⟩
    · obtain ⟨replies, waiting, hrelease⟩ := exists_release_eq (t := moved) hgate low
      refine Or.inl ⟨not_overflows_of_landing_nil ?_, _, _, hhandle.trans hrelease⟩
      rw [hlanding, asking_add_of_not_barrier hs hgate]
      rfl

/-- **What is admitted is carried out**, unless a sum leaves its type. -/
theorem handle_of_admits (hs : t.Sound) (h : t.Admits m) : t.Settled m := by
  have henrolled : (t.slice.roster.closed = true →
      ∃ clock, t.slice.roster.clockOf? m.sender = some clock) →
      ∃ roster, t.slice.roster.enrol m.sender = .ok roster := fun hknown =>
    Roster.enrol_of_check (Roster.check_eq_ok_iff.mpr hknown)
  unfold Admits at h
  cases hop : m.op <;> simp only [hop] at h
  case add =>
    obtain ⟨roster, henrol⟩ := henrolled h.1
    exact settled_add hs hop h.2 henrol
  case get =>
    obtain ⟨roster, henrol⟩ := henrolled h.1
    refine Or.inl ⟨not_overflows_of_landing_nil ?_, ?_⟩
    · simp only [landing, hop]
    · simp only [handle, hop, onGet_eq hs m h.2 henrol]
      split
      · exact ⟨_, _, rfl⟩
      · exact ⟨_, _, rfl⟩
  case clock =>
    exact settled_clock hs hop
      (Roster.advance_eq_ok_iff.mpr ⟨Roster.check_eq_ok_iff.mpr h.1, h.2, rfl, rfl⟩)
  case resetWorkers =>
    obtain ⟨workers, hkeys, hsmall⟩ := h
    refine Or.inl ⟨not_overflows_of_landing_nil ?_, ?_⟩
    · simp only [landing, hop]
    · obtain ⟨ids, hids⟩ := Slice.mapM_workerId_isOk_iff.mpr hsmall
      have hreset : t.slice.resetWorkers m =
          .ok (m.reply, { t.slice with roster := t.slice.roster.reset ids }) := by
        simp only [Slice.resetWorkers, Slice.keysOf, hkeys, mapError_ok, hids, bind, Except.bind]
        rfl
      simp only [handle, hop, onReset, hreset]
      exact ⟨_, _, rfl⟩

theorem admits_of_move {replies : List Message} (h : t.Move m replies t') : t.Admits m := by
  have hknown := known_of_move h
  have hahead : ∀ {risen : Option Clock} {roster : Roster}, m.op = .clock →
      t.slice.roster.advance m.sender m.clock = .ok (risen, roster) → t.Admits m := by
    intro risen roster hop hadvance
    rw [Roster.advance_eq_ok_iff] at hadvance
    simp only [Admits, hop]
    exact ⟨hknown (by simp [hop]), hadvance.2.1⟩
  cases h with
  | apply hop hadds =>
    simp only [Admits, hop]
    exact ⟨hknown (by simp [hop]), hadds⟩
  | park hop hadds =>
    simp only [Admits, hop]
    exact ⟨hknown (by simp [hop]), hadds⟩
  | answer hop hreads =>
    simp only [Admits, hop]
    exact ⟨hknown (by simp [hop]), hreads⟩
  | wait hop hreads =>
    simp only [Admits, hop]
    exact ⟨hknown (by simp [hop]), hreads⟩
  | tick hop hadvance => exact hahead hop hadvance
  | release hop hadvance => exact hahead hop hadvance
  | close hop hkeys hworkers =>
    simp only [Admits, hop]
    exact ⟨_, hkeys, Slice.mapM_workerId_isOk_iff.mp ⟨_, hworkers⟩⟩

theorem admits_of_fault (hs : t.Sound) {why : Fault} (h : t.handle m = .fault why) :
    t.Admits m := by
  cases hop : m.op with
  | add =>
    simp only [handle, hop] at h
    cases haccept : t.slice.acceptAdd m with
    | error cause =>
      simp only [onAdd, haccept] at h
      cases h
    | ok slice =>
      rw [Slice.acceptAdd_eq_ok_iff] at haccept
      obtain ⟨hadds, roster, henrol, -⟩ := haccept
      simp only [Admits, hop]
      exact ⟨Roster.check_eq_ok_iff.mp (Roster.check_of_enrol henrol), hadds⟩
  | get =>
    simp only [handle, hop] at h
    rcases onGet_cases hs m hop with ⟨cause, -, hget⟩ | ⟨reply, u, hget, -⟩
    all_goals
      rw [hget] at h
      cases h
  | clock =>
    simp only [handle, hop, onClock] at h
    cases hadvance : t.slice.roster.advance m.sender m.clock with
    | error cause =>
      rw [hadvance] at h
      cases h
    | ok advanced =>
      rw [Roster.advance_eq_ok_iff] at hadvance
      simp only [Admits, hop]
      exact ⟨Roster.check_eq_ok_iff.mp hadvance.1, hadvance.2.1⟩
  | resetWorkers =>
    simp only [handle, hop, onReset] at h
    cases hreset : t.slice.resetWorkers m with
    | error cause =>
      rw [hreset] at h
      cases h
    | ok ack =>
      rw [hreset] at h
      cases h
  | response =>
    simp only [handle, hop] at h
    cases h

/-- **What is not admitted is refused**, and nothing has been touched. -/
theorem handle_of_not_admits (hs : t.Sound) (h : ¬t.Admits m) :
    ∃ cause, t.handle m = .error (.malformed cause) t := by
  rcases handle_cases hs m with ⟨why, hcase⟩ | ⟨why, hcase⟩ | ⟨replies, t', -, hmove⟩
  · obtain ⟨-, cause, rfl⟩ := malformed_of_refused hs hcase
    exact ⟨cause, hcase⟩
  · exact absurd (admits_of_fault hs hcase) h
  · exact absurd (admits_of_move hmove) h

/-- In a step, too, what is taken in is what is admitted. -/
theorem isOk_iff_admits (hs : t.Sound) {s : Step τ} (hstep : t.step m = .ok s) :
    s.verdict.isOk = true ↔ t.Admits m := by
  unfold step at hstep
  constructor
  · intro hok
    split at hstep
    case h_1 replies t' hhandle => exact admits_of_move (move_of_handle hs m hhandle)
    case h_2 =>
      obtain rfl := Except.ok.inj hstep
      cases hok
    case h_3 => cases hstep
  · intro hadmits
    rcases handle_of_admits hs hadmits with ⟨-, replies, t', hhandle⟩ | ⟨-, hhandle⟩
    · rw [hhandle] at hstep
      obtain rfl := Except.ok.inj hstep
      rfl
    · rw [hhandle] at hstep
      cases hstep

theorem stamped_of_move (hs : t.Sound) (hop : m.op = .add) {replies : List Message}
    (h : t.Move m replies t') : t'.gate.Stamped m := by
  cases h with
  | apply _ hadds => exact Gate.stamped_note hs.gate hadds.toReadsIn
  | park _ _ _ hgate =>
    simp only [hgate]
    trivial
  | _ => simp_all only [reduceCtorEq]

/-- **What is refused leaves no trace, and what is admitted is carried out.** In every state that
messages can bring a new tablet into, a message is refused exactly if it is not admitted, over what
it says, and the tablet is as before in every respect. One that is admitted makes one of the seven
moves: it lands with all its keys, and is stamped under each where there is a log, or it waits; what
has waited lands with all its keys or is answered, and none of it is dropped. Only where a sum
leaves its type is there no answer, and no tablet either. -/
theorem refused_without_trace {spec : TableSpec} {table : TableId} {shard : ThreadId}
    {range : Interval} {fresh : Tablet τ}
    (hnew : Tablet.new τ spec table shard range = .ok fresh) {ms : List Message}
    {steps : List (Step τ)} (hrun : fresh.run ms = .ok steps) (m : Message) :
    let t := fresh.finish steps
    (∀ why t', t.handle m = .error why t' →
      t' = t ∧ ¬t.Admits m ∧ ∃ cause, why = .malformed cause) ∧
    (¬t.Admits m → ∃ cause, t.handle m = .error (.malformed cause) t) ∧
    (t.Admits m → ¬t.Overflows m → ∃ replies t', t.handle m = .ok replies t' ∧
      t.Move m replies t' ∧ (m.op = .add → t'.gate.Stamped m)) ∧
    (t.Admits m → t.Overflows m → t.handle m = .fault .addOverflow) := by
  intro t
  have hs : t.Sound := (serves_of_run (serves_new hnew) hrun).toSound
  refine ⟨?_, handle_of_not_admits hs, ?_, ?_⟩
  · intro why t' hrefused
    obtain ⟨hsame, hcause⟩ := malformed_of_refused hs hrefused
    refine ⟨hsame, fun hadmits => ?_, hcause⟩
    rcases handle_of_admits hs hadmits with ⟨-, _, _, h⟩ | ⟨-, h⟩
    all_goals
      rw [hrefused] at h
      cases h
  · intro hadmits hfit
    rcases handle_of_admits hs hadmits with ⟨-, replies, t', h⟩ | ⟨hlarge, -⟩
    · have hmove := move_of_handle hs m h
      exact ⟨replies, t', h, hmove, fun hop => stamped_of_move hs hop hmove⟩
    · exact absurd hlarge hfit
  · intro hadmits hlarge
    rcases handle_of_admits hs hadmits with ⟨hfit, -⟩ | ⟨-, h⟩
    · exact absurd hlarge hfit
    · exact h

/-- Worker 1 writes and moves on, and worker 2 asks for a key that the shard does not have. -/
def astray : List Message := [
  ⟨.add, 1, 7, 0, 0, 0, [.keys [3, 4], .integers [5, 6]]⟩,
  ⟨.clock, 1, 7, 0, 1, 0, []⟩]

theorem refused_without_trace_astray :
    ∃ fresh steps t,
      Tablet.new .integer (.sparseSsp .dense 0 1 .dense) 0 7 ⟨0, 10⟩ = .ok fresh ∧
      fresh.run astray = .ok steps ∧
      (fresh.finish steps).handle ⟨.get, 2, 7, 0, 0, 1, [.keys [4, 12]]⟩ =
        .error (.malformed (.outsideShard 12 7 ⟨0, 10⟩)) t ∧
      t = fresh.finish steps ∧
      ¬(fresh.finish steps).Admits ⟨.get, 2, 7, 0, 0, 1, [.keys [4, 12]]⟩ := by
  let fresh : Tablet .integer := ⟨.new 0 7 ⟨0, 10⟩ (.dense ⟨0, 10⟩ (Vector.replicate 10 0)),
    .speculative 0 1 (.dense ⟨0, 10⟩ (Vector.replicate 10 []))⟩
  have hnew : Tablet.new .integer (.sparseSsp .dense 0 1 .dense) 0 7 ⟨0, 10⟩ = .ok fresh := rfl
  have hrun : fresh.run astray = .ok _ := rfl
  refine ⟨fresh, _, _, hnew, hrun, rfl, ?_⟩
  obtain ⟨hrefused, -⟩ :=
    refused_without_trace hnew hrun ⟨.get, 2, 7, 0, 0, 1, [.keys [4, 12]]⟩
  obtain ⟨hsame, hnot, -⟩ := hrefused _ _ rfl
  exact ⟨hsame, hnot⟩

/-- An update that is admitted, as every key is the shard's and the sender is welcome, but finds the
key at the largest number there is. -/
theorem admitted_but_lost :
    ∃ fresh full,
      Tablet.new .integer (.bsp .sparse) 0 7 ⟨0, 10⟩ = .ok fresh ∧
      fresh.handle ⟨.add, 1, 7, 0, 0, 0, [.keys [3], .integers [Int64.maxValue]]⟩ = .ok [] full ∧
      full.Admits ⟨.add, 1, 7, 0, 0, 0, [.keys [3], .integers [1]]⟩ ∧
      ∀ replies t', full.handle ⟨.add, 1, 7, 0, 0, 0, [.keys [3], .integers [1]]⟩ ≠
        .ok replies t' := by
  have hinside : ∀ key ∈ [(3 : Key)], key ∈ (⟨0, 10⟩ : Interval) :=
    List.forall_mem_singleton.mpr (by decide)
  refine ⟨_, _, rfl, rfl, ?_, ?_⟩
  · exact ⟨fun _ => ⟨0, rfl⟩, ⟨rfl, rfl, hinside⟩, [1], rfl, rfl⟩
  · intro replies t' h
    cases h

end Tablet

end ParamServer
