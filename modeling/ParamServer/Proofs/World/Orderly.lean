import ParamServer.Proofs.World.Worker

/-!
# What holds all the time

`Orderly` is the state of affairs that nothing which can happen next disturbs: each shard has run as
it should, the messages of each worker reach it in the order of the worker's clock, each worker is
owed what it waits for and nothing else, and no update is lost or doubled on its way. It is `Timely`
as well: the clock messages under way to a shard make up, one by one, for what the shard has not
seen of a worker's clock.
-/

namespace ParamServer.World

variable {τ : ScalarType}

/-- Whatever is on its way is fit to arrive, and every worker is owed what it waits for. -/
structure Manned (site : Site τ) (W : World τ) : Prop where
  fit : ∀ p, ∀ m ∈ (W.shards p).queue, ∃ q ∈ site.layout.pieces, q.shard = p ∧ site.Fit q m
  attended : ∀ w ∈ site.workers, (W.workers w).Attended site W.shards w

structure Orderly (site : Site τ) (W : World τ) : Prop extends Manned site W where
  ran : ∀ q ∈ site.layout.pieces, (W.shards q.shard).Ran site q
  stream : ∀ q ∈ site.layout.pieces, ∀ w ∈ site.workers,
    (W.shards q.shard).Stream w (W.workers w).session.clock
  books : ∀ p, (W.posted.filter fun m => decide (m.receiver = p)).Perm
    (Step.taken .add (W.shards p).log ++ (W.shards p).queue.filter fun m => decide (m.op = .add))
  posted : ∀ m ∈ W.posted, m.op = .add ∧ ∃ q ∈ site.layout.pieces, site.Fit q m
  gets : ∀ got ∈ W.gets, Sourced site.layout got.answers got.request got.keys got.values ∧
    ∀ a ∈ got.answers, a.clock = got.clock ∧ site.Said W.shards a

structure Timely (site : Site τ) (W : World τ) : Prop extends Orderly site W where
  steady : ∀ q ∈ site.layout.pieces, ∀ w ∈ site.workers,
    (W.shards q.shard).Steady w (W.workers w).session.clock

variable {site : Site τ} {spec : TableSpec} {W W' : World τ} {w : ThreadId}

theorem manned_start (site : Site τ)
    (hquiet : ∀ q ∈ site.layout.pieces, (site.tablet q.shard).slice.waiting.asking .get = []) :
    Manned site site.start where
  fit _ _ hm := by cases hm
  attended w hw := by
    have howes : (site.start.workers w).session.Owes (none : Option (Pull τ)) [] [] :=
      ⟨by simp [Site.start], by simp [Site.start, Session.due], by simp, by simp, by simp⟩
    refine ⟨rfl, rfl, fun _ => rfl, ⟨[], howes, by simp, ?_⟩, ?_, ?_⟩
    · intro q hq
      simp [Host.pending, Site.start, hquiet q hq]
    · intro a ha
      cases ha
    · intro call hcall
      cases hcall

theorem orderly_start (hclosed : site.Closed spec) : Orderly site site.start where
  toManned := manned_start site fun q hq => List.eq_nil_iff_forall_not_mem.mpr fun g hg =>
    absurd ((Host.pinned_of_closed hclosed hq).1.asked g hg) (by simp)
  ran q hq := by
    refine ⟨rfl, rfl, ?_, ?_, List.Pairwise.nil, ?_⟩
    all_goals
      intro s hs
      cases hs
  stream q hq w hw := by
    refine ⟨0, ((Host.pinned_of_closed hclosed hq).2 w).trans (if_pos hw), ?_⟩
    change [(0 : Clock), 0].Pairwise (· ≤ ·)
    simp
  books p := by simp [Site.start, Step.taken]
  posted _ hm := by cases hm
  gets _ hgot := by cases hgot

theorem timely_start (hclosed : site.Closed spec) : Timely site site.start where
  toOrderly := orderly_start hclosed
  steady _ hq w hw :=
    ⟨0, 0, ((Host.pinned_of_closed hclosed hq).2 w).trans (if_pos hw), rfl, rfl⟩

/-! ### A worker's turn -/

theorem seat_self (W : World τ) (w : ThreadId) : W.seat w (W.workers w) = W := by
  rw [seat, Function.update_eq_self]

theorem post_nil (W : World τ) : W.post [] = W := by
  simp [post]

theorem workers_seat_of_ne (W : World τ) {v w : ThreadId} (h : v ≠ w) (worker : Client τ) :
    (W.seat w worker).workers v = W.workers v :=
  Function.update_of_ne h ..

@[simp]
theorem workers_seat_self (W : World τ) (w : ThreadId) (worker : Client τ) :
    (W.seat w worker).workers w = worker :=
  Function.update_self ..

/-- What the new client has, and the others had before, they all have. -/
theorem forall_seat {workers : List ThreadId} {P : ThreadId → Client τ → Prop} {worker : Client τ}
    (hhere : w ∈ workers → P w worker) (hthere : ∀ v ∈ workers, v ≠ w → P v (W.workers v)) :
    ∀ v ∈ workers, P v ((W.seat w worker).workers v) := by
  intro v hv
  by_cases hvw : v = w
  · subst hvw
    rw [workers_seat_self]
    exact hhere hv
  · rw [workers_seat_of_ne W hvw]
    exact hthere v hv hvw

theorem manned_of_seat (h : Manned site W) {worker : Client τ}
    (hworker : worker.Attended site W.shards w) : Manned site (W.seat w worker) where
  fit := h.fit
  attended := forall_seat (P := fun v client => client.Attended site W.shards v) (fun _ => hworker)
    fun v hv _ => h.attended v hv

theorem orderly_of_seat (h : Orderly site W) {worker : Client τ}
    (hclock : worker.session.clock = (W.workers w).session.clock)
    (hworker : worker.Attended site W.shards w) : Orderly site (W.seat w worker) where
  toManned := manned_of_seat h.toManned hworker
  ran := h.ran
  stream q hq := forall_seat
    (P := fun v client => (W.shards q.shard).Stream v client.session.clock)
    (fun hw => hclock ▸ h.stream q hq w hw) fun v hv _ => h.stream q hq v hv
  books := h.books
  posted := h.posted
  gets := h.gets

theorem timely_of_seat (h : Timely site W) {worker : Client τ}
    (hclock : worker.session.clock = (W.workers w).session.clock)
    (hworker : worker.Attended site W.shards w) : Timely site (W.seat w worker) where
  toOrderly := orderly_of_seat h.toOrderly hclock hworker
  steady q hq := forall_seat
    (P := fun v client => (W.shards q.shard).Steady v client.session.clock)
    (fun hw => hclock ▸ h.steady q hq w hw) fun v hv _ => h.steady q hq v hv

theorem orderly_of_gots (h : Orderly site W) {gots : List (Got τ)}
    (hgots : ∀ got ∈ gots, Sourced site.layout got.answers got.request got.keys got.values ∧
      ∀ a ∈ got.answers, a.clock = got.clock ∧ site.Said W.shards a) :
    Orderly site { W with gets := W.gets ++ gots } where
  toManned := ⟨h.fit, h.attended⟩
  ran := h.ran
  stream := h.stream
  books := h.books
  posted := h.posted
  gets got hgot := (List.mem_append.mp hgot).elim (h.gets got) (hgots got)

/-- **A call.** Its messages go behind all that the worker has sent before. -/
theorem manned_of_turn (h : Manned site W) (hidle : (W.workers w).call = none)
    {session : Session τ} {asked : Option (Call τ)} {ms : List Message}
    (hturn : (W.workers w).Turn site w session asked ms) :
    Manned site ((W.post ms).seat w ⟨session, (W.workers w).inbox, asked⟩) where
  fit p m hm := by
    rcases List.mem_append.mp hm with hold | hnew
    · exact h.fit p m hold
    · obtain ⟨hm, hreceiver⟩ := List.mem_filter.mp hnew
      obtain ⟨-, -, q, hq, hfit⟩ := hturn.sends m hm
      exact ⟨q, hq, hfit.receiver_eq.symm.trans (of_decide_eq_true hreceiver), hfit⟩
  attended v hv := by
    by_cases hvw : v = w
    · subst hvw
      rw [workers_seat_self]
      exact (h.attended v hv).call hidle hturn
    · rw [workers_seat_of_ne _ hvw]
      refine (h.attended v hv).mono ?_ fun p s hs => hs
      intro q hq
      refine (Host.pending_push ..).trans (List.Perm.of_eq ?_)
      rw [filter_of_forall_ne, List.append_nil]
      intro m hm
      rw [(hturn.sends m (List.mem_filter.mp (List.mem_filter.mp hm).1).1).1]
      exact Ne.symm hvw

theorem orderly_of_turn (h : Orderly site W) (hidle : (W.workers w).call = none)
    {session : Session τ} {asked : Option (Call τ)} {ms : List Message}
    (hturn : (W.workers w).Turn site w session asked ms) :
    Orderly site ((W.post ms).seat w ⟨session, (W.workers w).inbox, asked⟩) where
  toManned := manned_of_turn h.toManned hidle hturn
  ran q hq := by
    have hran := h.ran q hq
    exact ⟨hran.run, hran.tablet_eq, hran.fit, hran.low, hran.rising, hran.reached⟩
  stream q hq v hv := by
    by_cases hvw : v = w
    · subst hvw
      rw [workers_seat_self]
      exact (h.stream q hq v hv).push hturn.clock_le
        fun m hm => (hturn.sends m (List.mem_filter.mp hm).1).2.1
    · rw [workers_seat_of_ne _ hvw]
      obtain ⟨seen, hseen, hpairs⟩ := h.stream q hq v hv
      refine ⟨seen, hseen, ?_⟩
      have hnone : ((ms.filter fun m => decide (m.receiver = q.shard)).filter
          fun m => decide (m.sender = v)) = [] := by
        apply filter_of_forall_ne
        intro m hm
        rw [(hturn.sends m (List.mem_filter.mp hm).1).1]
        exact Ne.symm hvw
      simp only [post, seat, List.filter_append, hnone, List.append_nil]
      exact hpairs
  books p := by
    simp only [post, seat, List.filter_append]
    rw [← List.append_assoc]
    refine (h.books p).append (List.Perm.of_eq ?_)
    exact List.filter_comm ..
  posted m hm := by
    rcases List.mem_append.mp hm with hold | hnew
    · exact h.posted m hold
    · obtain ⟨hm, hop⟩ := List.mem_filter.mp hnew
      exact ⟨of_decide_eq_true hop, (hturn.sends m hm).2.2⟩
  gets := h.gets

/-- A call leaves the clock messages of the other workers as they are. -/
theorem timely_of_turn (h : Timely site W) (hidle : (W.workers w).call = none)
    {session : Session τ} {asked : Option (Call τ)} {ms : List Message}
    (hturn : (W.workers w).Turn site w session asked ms)
    (hsteady : ∀ q ∈ site.layout.pieces, Host.Steady
      { W.shards q.shard with
        queue := (W.shards q.shard).queue ++ ms.filter fun m => decide (m.receiver = q.shard) }
      w session.clock) :
    Timely site ((W.post ms).seat w ⟨session, (W.workers w).inbox, asked⟩) where
  toOrderly := orderly_of_turn h.toOrderly hidle hturn
  steady q hq := by
    refine forall_seat (P := fun v client => Host.Steady
      { W.shards q.shard with
        queue := (W.shards q.shard).queue ++ ms.filter fun m => decide (m.receiver = q.shard) }
      v client.session.clock) (fun _ => hsteady q hq) fun v hv hvw => (h.steady q hq v hv).push ?_
    intro m hm _
    rw [(hturn.sends m (List.mem_filter.mp hm).1).1]
    exact Ne.symm hvw

section Steady

variable (h : Timely site W) (hw : w ∈ site.workers) {q : Piece} (hq : q ∈ site.layout.pieces)

include h hw hq

theorem steady_of_still {ms : List Message} (hms : ∀ m ∈ ms, m.op ≠ .clock) :
    Host.Steady
      { W.shards q.shard with
        queue := (W.shards q.shard).queue ++ ms.filter fun m => decide (m.receiver = q.shard) }
      w (W.workers w).session.clock :=
  (h.steady q hq w hw).push fun m hm hclock => absurd hclock (hms m (List.mem_filter.mp hm).1)

theorem steady_of_moved (hroom : (W.workers w).session.clock.toNat + 1 ≠ UInt64.size) :
    Host.Steady
      { W.shards q.shard with
        queue := (W.shards q.shard).queue ++
          (W.workers w).session.moved.ticks.filter fun m => decide (m.receiver = q.shard) }
      w (W.workers w).session.moved.clock := by
  have hattended := h.attended w hw
  have hhere : q ∈ (W.workers w).session.moved.layout.pieces := hattended.layout_eq ▸ hq
  refine (h.steady q hq w hw).tick
    (m := (W.workers w).session.moved.message .clock q.shard []) ?_ (Session.toNat_add_one hroom)
  rw [Session.filter_ticks hhere]
  simp [Session.message, Session.moved, hattended.worker_eq]

end Steady

/-! ### A shard's turn -/

@[simp]
theorem shards_served_self (W : World τ) (p : ThreadId) (rest : List Message) (s : Step τ) :
    (W.served p rest s).shards p = ⟨s.after, rest, (W.shards p).log ++ [s]⟩ :=
  Function.update_self ..

theorem shards_served_of_ne (W : World τ) {p r : ThreadId} (h : r ≠ p) (rest : List Message)
    (s : Step τ) : (W.served p rest s).shards r = W.shards r :=
  Function.update_of_ne h ..

/-- What the shard that has had its turn has, and the others had before, they all have. -/
theorem forall_served {q : Piece} (hq : q ∈ site.layout.pieces) {P : Piece → Host τ → Prop}
    {rest : List Message} {s : Step τ}
    (hhere : P q ⟨s.after, rest, (W.shards q.shard).log ++ [s]⟩)
    (hthere : ∀ r ∈ site.layout.pieces, P r (W.shards r.shard)) :
    ∀ r ∈ site.layout.pieces, P r ((W.served q.shard rest s).shards r.shard) := by
  intro r hr
  by_cases hshard : r.shard = q.shard
  · obtain rfl := Layout.eq_of_shard_eq hr hq hshard
    rw [shards_served_self]
    exact hhere
  · rw [shards_served_of_ne W hshard]
    exact hthere r hr

theorem manned_of_serve (h : Manned site W) {q : Piece} (hq : q ∈ site.layout.pieces)
    {front back : List Message} {m : Message} {s : Step τ}
    (hqueue : (W.shards q.shard).queue = front ++ m :: back)
    (hanswers : ∀ w ∈ site.workers, ∃ gs, (∀ g ∈ gs, site.Fit q g ∧ g.op = .get) ∧
      ((W.shards q.shard).pending w).Perm
        (gs ++ Host.pending ⟨s.after, front ++ back, (W.shards q.shard).log ++ [s]⟩ w) ∧
      (s.answers.filter fun a => decide (a.receiver = w)).Perm
        (gs.map (·.answerFrom s.after.slice.store))) :
    Manned site (W.served q.shard (front ++ back) s) where
  fit p k hk := by
    by_cases hp : p = q.shard
    · subst hp
      rw [shards_served_self] at hk
      refine h.fit q.shard k ?_
      rw [hqueue]
      exact List.mem_append.mpr ((List.mem_append.mp hk).imp_right (List.mem_cons_of_mem m))
    · rw [shards_served_of_ne W hp] at hk
      exact h.fit p k hk
  attended w hw := by
    obtain ⟨gs, hgs, hpending, hgiven⟩ := hanswers w hw
    exact (h.attended w hw).serve hq rfl hgs hpending hgiven fun a ha => (List.mem_filter.mp ha).1

/-- **One message handled.** -/
theorem orderly_of_serve (hclosed : site.Closed spec) (h : Orderly site W) {p : ThreadId}
    {front back : List Message} {m : Message} {s : Step τ}
    (hqueue : (W.shards p).queue = front ++ m :: back)
    (hfirst : ∀ k ∈ front, k.sender ≠ m.sender) (hstep : (W.shards p).tablet.step m = .ok s) :
    Orderly site (W.served p (front ++ back) s) := by
  obtain ⟨q, hq, rfl, hfit⟩ := h.fit p m (by rw [hqueue]; simp)
  have hran := h.ran q hq
  have hstreams := h.stream q hq
  obtain ⟨seen, hknown, -⟩ := hstreams m.sender hfit.listed
  have hmanned := manned_of_serve h.toManned hq hqueue fun w _ =>
    Host.pending_of_serve hclosed hran hq hfit hqueue hstep hknown w
  refine ⟨hmanned, ?_, ?_, ?_, h.posted, ?_⟩
  · refine forall_served hq (P := fun r host => host.Ran site r) ?_ h.ran
    refine Host.ran_of_serve hclosed hran hq hfit hqueue hstep hfirst hstreams ?_
    exact fun w hw g hg => (h.attended w hw).clock_of_pending hq hg
  · refine forall_served hq (P := fun _ host => ∀ w ∈ site.workers,
      host.Stream w (W.workers w).session.clock) (fun w hw => ?_) h.stream
    exact Host.stream_of_serve hclosed hran hq hfit hqueue hstep hfirst (hstreams w hw)
  · intro p
    by_cases hp : p = q.shard
    · subst hp
      have htaken : Step.taken .add [s] = [m].filter fun m => decide (m.op = .add) :=
        Tablet.taken_of_known (hran.pinned hclosed hq).toServes hknown hfit.adds hfit.reads hstep
          (Or.inl rfl)
      rw [shards_served_self, Step.taken_append, htaken]
      refine (h.books q.shard).trans ?_
      rw [List.append_assoc, ← List.filter_append, hqueue]
      exact (List.perm_middle.filter _).append_left _
    · rw [shards_served_of_ne W hp]
      exact h.books p
  · intro got hgot
    obtain ⟨hsourced, hsaid⟩ := h.gets got hgot
    refine ⟨hsourced, fun a ha => ⟨(hsaid a ha).1, ?_⟩⟩
    exact (hsaid a ha).2.mono (mem_log_update W.shards rfl)

theorem timely_of_serve (hclosed : site.Closed spec) (h : Timely site W) {p : ThreadId}
    {front back : List Message} {m : Message} {s : Step τ}
    (hqueue : (W.shards p).queue = front ++ m :: back)
    (hfirst : ∀ k ∈ front, k.sender ≠ m.sender) (hstep : (W.shards p).tablet.step m = .ok s) :
    Timely site (W.served p (front ++ back) s) where
  toOrderly := orderly_of_serve hclosed h.toOrderly hqueue hfirst hstep
  steady := by
    obtain ⟨q, hq, rfl, hfit⟩ := h.fit p m (by rw [hqueue]; simp)
    refine forall_served hq (P := fun _ host => ∀ w ∈ site.workers,
      host.Steady w (W.workers w).session.clock) (fun w hw => ?_) h.steady
    exact Host.steady_of_serve hclosed (h.ran q hq) hq hfit hqueue hstep hfirst
      (h.steady q hq w hw)

/-! ### Whatever happens -/

theorem acted_nil (W : World τ) (w : ThreadId) (worker : Client τ) (ms : List Message) :
    W.acted w worker ms [] = (W.post ms).seat w worker := by
  simp only [acted, List.append_nil]
  rfl

theorem acted_quiet (W : World τ) (w : ThreadId) (worker : Client τ) (gots : List (Got τ)) :
    W.acted w worker [] gots = { W.seat w worker with gets := W.gets ++ gots } := by
  rw [acted, post_nil]

/-- **Nothing that happens upsets the world.** -/
theorem timely_of_moves (hclosed : site.Closed spec) (h : Timely site W)
    (hmove : Moves site W W') : Timely site W' := by
  cases hmove with
  | act hw hact =>
    rcases acts_cases (h.attended _ hw) hw hact with
      ⟨hidle, rfl, session, asked, rfl, hturn, hticks⟩ | ⟨rfl, hclock, hattended, hgots⟩
    · rw [acted_nil]
      refine timely_of_turn h hidle hturn fun q hq => ?_
      rcases hticks with ⟨hclock, hstill⟩ | ⟨hroom, rfl, rfl⟩
      · rw [hclock]
        exact steady_of_still h hw hq hstill
      · exact steady_of_moved h hw hq hroom
    · rw [acted_quiet]
      have hseated := timely_of_seat h hclock hattended
      exact ⟨orderly_of_gots hseated.toOrderly hgots, hseated.steady⟩
  | serve hqueue hfirst hstep => exact timely_of_serve hclosed h hqueue hfirst hstep

theorem timely_of_reaches (hclosed : site.Closed spec) (h : Reaches site W) : Timely site W := by
  induction h with
  | start => exact timely_start hclosed
  | next _ hmove ih => exact timely_of_moves hclosed ih hmove

end ParamServer.World
