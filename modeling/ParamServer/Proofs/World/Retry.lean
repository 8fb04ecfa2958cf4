import ParamServer.Proofs.World.OwnWrites

/-!
# A clock that is told again

A worker tells its shards of its next clock one after the other, and a link may fail it on the way.
It stays where it is then and tells them all again, so that some of them hear of the same clock more
than once. What a shard has been told never falls and never leaves a number out (`Climbs`), and of
two that are the same it takes in the first.
-/

namespace ParamServer

variable {τ : ScalarType}

/-- From `low` up to `high`, by one at a time or not at all. -/
def Climbs (low : Nat) : List Nat → Nat → Prop
  | [], high => high = low
  | n :: rest, high => (n = low ∨ n = low + 1) ∧ Climbs n rest high

theorem Climbs.concat {low high n : Nat} {rest : List Nat} (h : Climbs low rest high)
    (hn : n = high ∨ n = high + 1) : Climbs low (rest ++ [n]) n := by
  induction rest generalizing low with
  | nil =>
    obtain rfl := h
    exact ⟨hn, rfl⟩
  | cons k rest ih => exact ⟨h.1, ih h.2⟩

/-! ### One shard and the worker's clock -/

namespace Tablet

variable {t t' : Tablet τ} {m : Message} {s : Step τ} {w : ThreadId}

theorem reached_of_move {replies : List Message} (hop : m.op ≠ .resetWorkers)
    (h : t.Move m replies t') (w : ThreadId) :
    t'.slice.roster.reached w =
      if m.op = .clock ∧ w = m.sender then m.clock else t.slice.roster.reached w := by
  rcases roster_of_move hop h with ⟨hclock, henrol⟩ | ⟨hclock, risen, hadvance⟩
  · rw [if_neg fun hboth => hclock hboth.1, Roster.reached_enrol henrol]
  · simp only [Roster.reached_advance hadvance, hclock, true_and]

theorem isOk_iff_ahead (hs : t.Sound) (hwelcome : t.slice.roster.check m.sender = .ok ())
    (hclock : m.op = .clock) (h : t.step m = .ok s) :
    s.verdict.isOk = true ↔ t.slice.roster.reached m.sender < m.clock := by
  rw [isOk_iff_admits hs h]
  simp only [Admits, hclock]
  exact and_iff_right (Roster.check_eq_ok_iff.mp hwelcome)

/-- **A clock is taken in if it is ahead**, and nothing else moves the worker's. -/
theorem reached_of_step {spec : TableSpec} {range : Interval} (hs : t.Serves spec range)
    (hwelcome : t.slice.roster.check w = .ok ()) (hop : m.op ≠ .resetWorkers)
    (h : t.step m = .ok s) :
    (m.op = .clock ∧ m.sender = w ∧ t.slice.roster.reached w < m.clock ∧
      s.after.slice.roster.reached w = m.clock ∧ Step.taken .clock [s] = [m]) ∨
    ((m.op = .clock → m.sender = w → ¬t.slice.roster.reached w < m.clock) ∧
      s.after.slice.roster.reached w = t.slice.roster.reached w ∧
      ∀ k ∈ Step.taken .clock [s], k.sender ≠ w) := by
  have hmessage := message_of_step h
  by_cases htold : m.op = .clock ∧ m.sender = w
  · obtain ⟨hclock, rfl⟩ := htold
    have hahead := isOk_iff_ahead hs.toSound hwelcome hclock h
    rcases step_cases hs h with ⟨why, rfl⟩ | ⟨replies, t', rfl, hmove⟩
    · have hlate : ¬t.slice.roster.reached m.sender < m.clock := fun hlt => by
        cases hahead.mpr hlt
      exact Or.inr ⟨fun _ _ => hlate, rfl, by rintro k ⟨⟩⟩
    · refine Or.inl ⟨hclock, rfl, hahead.mp rfl, ?_, ?_⟩
      · rw [reached_of_move hop hmove, if_pos ⟨hclock, rfl⟩]
      · rw [Step.taken_of_accepted]
        simp [hclock]
  · refine Or.inr ⟨fun hclock hsender => absurd ⟨hclock, hsender⟩ htold, ?_, ?_⟩
    · rcases step_cases hs h with ⟨why, rfl⟩ | ⟨replies, t', rfl, hmove⟩
      · rfl
      · rw [reached_of_move hop hmove, if_neg fun hboth => htold ⟨hboth.1, hboth.2.symm⟩]
    · intro k hk hsender
      obtain ⟨s', hs', htook, rfl⟩ := Step.mem_taken_iff.mp hk
      obtain rfl := List.mem_singleton.mp hs'
      exact htold ⟨hmessage ▸ Step.op_of_took htook, hmessage ▸ hsender⟩

end Tablet

namespace Host

/-- The clocks of the worker's that the shard has taken in. -/
def heard (host : Host τ) (w : ThreadId) : List Nat :=
  ((Step.taken .clock host.log).filter fun m => decide (m.sender = w)).map (·.clock.toNat)

/-- The clocks that the worker has told the shard and the shard has not come to. -/
def unheard (host : Host τ) (w : ThreadId) : List Nat :=
  (host.queue.filter fun m => decide (m.op = .clock ∧ m.sender = w)).map (·.clock.toNat)

/-- The shard has taken in the worker's clocks without gap or repeat, and what it has still to come
to leads up to `latest`. -/
structure Hears (q : Piece) (w : ThreadId) (latest : Nat) (host : Host τ) : Prop where
  serves : ∃ spec, host.tablet.Serves spec q.range
  welcome : host.tablet.slice.roster.check w = .ok ()
  plain : ∀ m ∈ host.queue, m.op ≠ .resetWorkers
  heard_eq : host.heard w = List.range' 1 (host.tablet.slice.roster.reached w).toNat
  climbs : Climbs (host.tablet.slice.roster.reached w).toNat (host.unheard w) latest

variable {q : Piece} {w : ThreadId} {latest : Nat} {host : Host τ}

theorem unheard_push (host : Host τ) (ms : List Message) (w : ThreadId) :
    unheard { host with queue := host.queue ++ ms } w =
      host.unheard w ++ unheard { host with queue := ms } w := by
  simp only [unheard, List.filter_append, List.map_append]

theorem Hears.mono (h : host.Hears q w latest) {ms : List Message}
    (hquiet : ∀ m ∈ ms, m.op ≠ .resetWorkers ∧ (m.op = .clock → m.sender ≠ w)) :
    Hears q w latest { host with queue := host.queue ++ ms } where
  serves := h.serves
  welcome := h.welcome
  plain m hm := (List.mem_append.mp hm).elim (h.plain m) fun hnew => (hquiet m hnew).1
  heard_eq := h.heard_eq
  climbs := by
    have hnil : (ms.filter fun m => decide (m.op = .clock ∧ m.sender = w)) = [] := by
      rw [List.filter_eq_nil_iff]
      intro m hm htold
      obtain ⟨hclock, hsender⟩ := of_decide_eq_true htold
      exact (hquiet m hm).2 hclock hsender
    rw [unheard_push, unheard, unheard, hnil, List.map_nil, List.append_nil]
    exact h.climbs

theorem Hears.tell (h : host.Hears q w latest) {m : Message} (hop : m.op = .clock)
    (hsender : m.sender = w) (hclock : m.clock.toNat = latest ∨ m.clock.toNat = latest + 1) :
    Hears q w m.clock.toNat { host with queue := host.queue ++ [m] } where
  serves := h.serves
  welcome := h.welcome
  plain k hk := by
    rcases List.mem_append.mp hk with hk | hk
    · exact h.plain k hk
    · rw [List.mem_singleton.mp hk, hop]
      exact fun hreset => by cases hreset
  heard_eq := h.heard_eq
  climbs := by
    have hnew : unheard { host with queue := [m] } w = [m.clock.toNat] := by
      simp [unheard, hop, hsender]
    rw [unheard_push, hnew]
    exact h.climbs.concat hclock

theorem heard_serve (host : Host τ) (rest : List Message) (s : Step τ) (w : ThreadId) :
    heard ⟨s.after, rest, host.log ++ [s]⟩ w = host.heard w ++
      ((Step.taken .clock [s]).filter fun m => decide (m.sender = w)).map (·.clock.toNat) := by
  simp only [heard, Step.taken_append, List.filter_append, List.map_append]

theorem unheard_serve {m : Message} {rest : List Message} (hqueue : host.queue = m :: rest)
    (s : Step τ) (w : ThreadId) :
    host.unheard w =
      if m.op = .clock ∧ m.sender = w then
        m.clock.toNat :: unheard ⟨s.after, rest, host.log ++ [s]⟩ w
      else unheard ⟨s.after, rest, host.log ++ [s]⟩ w := by
  simp only [unheard, hqueue, List.filter_cons, decide_eq_true_eq]
  split <;> rfl

/-- **One message handled.** A clock that has been taken in before is refused. -/
theorem Hears.serve (h : host.Hears q w latest) {m : Message} {rest : List Message} {s : Step τ}
    (hqueue : host.queue = m :: rest) (hstep : host.tablet.step m = .ok s) :
    Hears q w latest ⟨s.after, rest, host.log ++ [s]⟩ := by
  obtain ⟨spec, hserves⟩ := h.serves
  have hop : m.op ≠ .resetWorkers := h.plain m (hqueue ▸ List.mem_cons_self)
  have hwelcome := Tablet.check_of_step hserves hop hstep h.welcome
  suffices hnumbers : heard ⟨s.after, rest, host.log ++ [s]⟩ w =
      List.range' 1 (s.after.slice.roster.reached w).toNat ∧
        Climbs (s.after.slice.roster.reached w).toNat
          (unheard ⟨s.after, rest, host.log ++ [s]⟩ w) latest from
    ⟨⟨spec, Tablet.serves_of_step hserves hstep⟩, hwelcome,
      fun k hk => h.plain k (hqueue ▸ List.mem_cons_of_mem m hk), hnumbers.1, hnumbers.2⟩
  have hclimbs := h.climbs
  rw [unheard_serve hqueue s] at hclimbs
  rw [heard_serve, h.heard_eq]
  rcases Tablet.reached_of_step hserves h.welcome hop hstep with
    ⟨hclock, hsender, hahead, hreached, htaken⟩ | ⟨hlate, hreached, htaken⟩
  · rw [if_pos ⟨hclock, hsender⟩] at hclimbs
    have hnext : m.clock.toNat = (host.tablet.slice.roster.reached w).toNat + 1 :=
      hclimbs.1.resolve_left fun hsame => UInt64.ne_of_lt hahead (UInt64.toNat_inj.mp hsame).symm
    rw [hreached, htaken, filter_of_forall_eq (by simpa using hsender), List.map_singleton]
    refine ⟨?_, hclimbs.2⟩
    rw [hnext, List.range'_1_concat, Nat.add_comm]
  · rw [hreached, filter_of_forall_ne htaken]
    refine ⟨List.append_nil _, ?_⟩
    by_cases htold : m.op = .clock ∧ m.sender = w
    · -- What is not ahead and does not fall is the number that the shard has got to.
      rw [if_pos htold] at hclimbs
      have hsame : m.clock.toNat = (host.tablet.slice.roster.reached w).toNat :=
        hclimbs.1.resolve_right fun hnext =>
          hlate htold.1 htold.2 (UInt64.lt_iff_toNat_lt.mpr (by omega))
      exact hsame ▸ hclimbs.2
    · rwa [if_neg htold] at hclimbs

theorem Hears.latest_of_drained (h : host.Hears q w latest)
    (hdrained : ∀ m ∈ host.queue, m.sender ≠ w) :
    latest = (host.tablet.slice.roster.reached w).toNat := by
  have hnil : host.unheard w = [] := by
    rw [unheard, List.map_eq_nil_iff, List.filter_eq_nil_iff]
    exact fun m hm htold => hdrained m hm (of_decide_eq_true htold).2
  have hclimbs := h.climbs
  rwa [hnil] at hclimbs

end Host

/-- The shards do not turn the worker away and have heard of no clock of it, whatever else has
happened at them. -/
def Site.Awaits (site : Site τ) (w : ThreadId) : Prop :=
  ∀ q ∈ site.layout.pieces, ∃ spec fresh ms steps,
    Tablet.new τ spec site.table q.shard q.range = .ok fresh ∧ fresh.run ms = .ok steps ∧
    site.tablet q.shard = fresh.finish steps ∧
    (site.tablet q.shard).slice.roster.check w = .ok () ∧
    (site.tablet q.shard).slice.roster.reached w = 0

theorem Site.awaits_of_welcoming {site : Site τ} {w : ThreadId} (h : site.Welcoming)
    (hw : w ∈ site.workers) : site.Awaits w := by
  intro q hq
  obtain ⟨spec, fresh, -, hnew, hstart⟩ := h q hq
  have hserves := Tablet.serves_new hnew
  rcases hstart with hfresh | ⟨reset, keys, listed, ack, hop, hkeys, hlisted, hall, hpin⟩
  · refine ⟨spec, fresh, [], [], hnew, rfl, hfresh, ?_⟩
    obtain ⟨store, gate, -, -, rfl⟩ := Tablet.eq_of_new hnew
    rw [hfresh]
    exact ⟨Roster.check_empty w, rfl⟩
  · have hstep : fresh.step reset = .ok ⟨reset, .ok ack, site.tablet q.shard⟩ := by
      simp only [Tablet.step, hpin]
    have hrun : fresh.run [reset] = .ok [⟨reset, .ok ack, site.tablet q.shard⟩] :=
      Tablet.run_cons_iff.mpr ⟨_, [], hstep, rfl, rfl⟩
    refine ⟨spec, fresh, [reset], _, hnew, hrun, rfl, ?_⟩
    rw [Tablet.eq_of_reset hserves.toSound hop hkeys hlisted hpin]
    exact ⟨Roster.check_reset .empty (hall w hw), Roster.reached_reset .empty listed w⟩

theorem Host.hears_of_awaits {site : Site τ} {w : ThreadId} (h : site.Awaits w) {q : Piece}
    (hq : q ∈ site.layout.pieces) : Host.Hears q w 0 ⟨site.tablet q.shard, [], []⟩ := by
  obtain ⟨spec, fresh, ms, steps, hnew, hrun, hfinish, hwelcome, hreached⟩ := h q hq
  have hserves := Tablet.serves_of_run (Tablet.serves_new hnew) hrun
  rw [← hfinish] at hserves
  refine ⟨⟨spec, hserves⟩, hwelcome, by rintro m ⟨⟩, ?_, ?_⟩
  · rw [hreached]
    rfl
  · rw [hreached]
    rfl

/-! ### What the worker sends on the way -/

namespace Session

variable {σ : Type} [Courier σ] {inner : σ} {s s' : Session τ} {keys : List Key}
  {out : Recorded σ}

theorem op_of_push {values : List τ.Value}
    (h : (s.push (⟨inner, []⟩ : Recorded σ) keys values).Leaves out) :
    ∀ m ∈ out.taken, m.op = .add := by
  rcases h with ⟨_, h⟩ | ⟨why, h⟩
  · obtain ⟨-, runs, -, -, rfl⟩ := push_eq_ok h
    exact fun m hm => adds_of_updates m (Recorded.mem_of_taken hm)
  · rcases push_eq_error h with ⟨rfl, -⟩ | ⟨runs, -, -, -, rfl⟩
    · rintro m ⟨⟩
    · exact fun m hm => adds_of_updates m (Recorded.mem_of_taken hm)

/-- A read asks, and the clock stays where it is. -/
theorem startPull_leaves (h : (s.startPull (⟨inner, []⟩ : Recorded σ) keys).Leaves (s', out)) :
    s'.worker = s.worker ∧ s'.layout = s.layout ∧ s'.clock = s.clock ∧
      ∀ m ∈ out.taken, m.op = .get := by
  rcases h with ⟨_, h⟩ | ⟨why, h⟩
  · rcases startPull_eq_ok h with ⟨-, -, rfl, rfl⟩ | ⟨runs, -, -, -, -, rfl, rfl⟩
    · exact ⟨rfl, rfl, rfl, by rintro m ⟨⟩⟩
    · exact ⟨rfl, rfl, rfl, fun m hm => op_of_requests m (Recorded.mem_of_taken hm)⟩
  · rcases startPull_eq_error h with ⟨rfl, rfl, -⟩ | ⟨runs, -, -, -, rfl, rfl⟩
    · exact ⟨rfl, rfl, rfl, by rintro m ⟨⟩⟩
    · rw [abandon_eq]
      exact ⟨rfl, rfl, rfl, fun m hm => op_of_requests m (Recorded.mem_of_taken hm)⟩

theorem told_of_tick (h : s.tick (⟨inner, []⟩ : Recorded σ) = .ok () (s', out)) {q : Piece}
    (hq : q ∈ s.layout.pieces) :
    (out.taken.filter fun m => decide (m.receiver = q.shard)) =
      [s.moved.message .clock q.shard []] := by
  obtain ⟨-, -, hnone, rfl⟩ := tick_eq_ok h
  rw [Recorded.taken_sendAll, Courier.sent_eq hnone, List.take_length]
  exact filter_ticks (s := s.moved) hq

/-- The worker may have told a shard before it failed. -/
theorem told_of_tick_fails {why : Error}
    (h : s.tick (⟨inner, []⟩ : Recorded σ) = .error why (s', out)) {q : Piece}
    (hq : q ∈ s.layout.pieces) :
    (out.taken.filter fun m => decide (m.receiver = q.shard)) = [] ∨
      (out.taken.filter fun m => decide (m.receiver = q.shard)) =
        [s.moved.message .clock q.shard []] := by
  obtain ⟨-, -, rfl⟩ := tick_eq_error h
  rw [← List.sublist_singleton, ← filter_ticks (s := s.moved) hq, Recorded.taken_sendAll]
  exact (List.take_sublist ..).filter _

end Session

/-! ### Runs in which links fail -/

namespace World

/-- What can happen where links fail. Each call of the worker's has a courier of its own, which may
refuse any message. The label is what a call for the clock has come to. The others do what they do
in `Mingles`, and a read may find anything in the inbox. -/
inductive Falters (σ : Type) [Courier σ] (site : Site τ) (w : ThreadId) (W : World τ) :
    Option (Except Error Unit) → World τ → Prop
  | push {inner : σ} {keys : List Key} {values : List τ.Value} {out : Recorded σ}
      (h : ((W.workers w).session.push (⟨inner, []⟩ : Recorded σ) keys values).Leaves out) :
      Falters σ site w W none (W.post out.taken)
  | tick {inner : σ} {session : Session τ} {out : Recorded σ}
      (h : (W.workers w).session.tick (⟨inner, []⟩ : Recorded σ) = .ok () (session, out)) :
      Falters σ site w W (some (.ok ()))
        ((W.post out.taken).seat w { W.workers w with session })
  | tickFails {inner : σ} {why : Error} {session : Session τ} {out : Recorded σ}
      (h : (W.workers w).session.tick (⟨inner, []⟩ : Recorded σ) = .error why (session, out)) :
      Falters σ site w W (some (.error why))
        ((W.post out.taken).seat w { W.workers w with session })
  | ask {inner : σ} {keys : List Key} {session : Session τ} {out : Recorded σ}
      (h : ((W.workers w).session.startPull (⟨inner, []⟩ : Recorded σ) keys).Leaves
        (session, out)) :
      Falters σ site w W none ((W.post out.taken).seat w { W.workers w with session })
  | read {pull : Pull τ} {inbox unread : List Message} {silence : Silence} {session : Session τ}
      (h : (Session.giveUp silence ((W.workers w).session.collect pull inbox)).Leaves
        (session, unread)) :
      Falters σ site w W none (W.seat w { W.workers w with session, inbox := unread })
  | slip {q : Piece} {m : Message} (hq : q ∈ site.layout.pieces) (hsender : m.sender ≠ w)
      (hop : m.op ≠ .resetWorkers) : Falters σ site w W none (W.slip q.shard m)
  | serve {q : Piece} {m : Message} {rest : List Message} {s : Step τ}
      (hq : q ∈ site.layout.pieces) (hqueue : (W.shards q.shard).queue = m :: rest)
      (h : (W.shards q.shard).tablet.step m = .ok s) :
      Falters σ site w W none (W.served q.shard rest s)

/-- A run, and what its calls for the clock have come to, in order. -/
inductive Faltered (σ : Type) [Courier σ] (site : Site τ) (w : ThreadId) :
    List (Except Error Unit) → World τ → Prop
  | start : Faltered σ site w [] site.start
  | next {results : List (Except Error Unit)} {result : Option (Except Error Unit)} {W W' : World τ}
      (h : Faltered σ site w results W) (hnext : Falters σ site w W result W') :
      Faltered σ site w (results ++ result.toList) W'

end World

/-! ### The worker and its shards -/

/-- The worker's clock is the number of its calls that came off. A shard may have been told of the
next one as well, but not if the latest call came off. -/
structure Session.Leads (site : Site τ) (w : ThreadId) (shards : ThreadId → Host τ)
    (results : List (Except Error Unit)) (s : Session τ) : Prop where
  worker_eq : s.worker = w
  layout_eq : s.layout = site.layout
  clock_eq : s.clock.toNat = results.countP Except.isOk
  hears : ∀ q ∈ site.layout.pieces, ∃ latest, (shards q.shard).Hears q w latest ∧
    (latest = s.clock.toNat ∨ latest = s.clock.toNat + 1 ∧ results.getLast? ≠ some (.ok ()))

namespace Session.Leads

variable {site : Site τ} {w : ThreadId} {shards shards' : ThreadId → Host τ}
  {results : List (Except Error Unit)} {s s' : Session τ}

theorem mono (h : s.Leads site w shards results) (hworker : s'.worker = s.worker)
    (hlayout : s'.layout = s.layout) (hclock : s'.clock = s.clock)
    (hshards : ∀ q ∈ site.layout.pieces, ∀ latest, (shards q.shard).Hears q w latest →
      (shards' q.shard).Hears q w latest) : s'.Leads site w shards' results where
  worker_eq := hworker.trans h.worker_eq
  layout_eq := hlayout.trans h.layout_eq
  clock_eq := hclock ▸ h.clock_eq
  hears q hq := by
    obtain ⟨latest, hhears, hlatest⟩ := h.hears q hq
    exact ⟨latest, hshards q hq latest hhears, hclock ▸ hlatest⟩

/-- A shard that has been told of the next clock, for the first time or again. -/
theorem told (h : s.Leads site w shards results) (hnext : s.moved.clock.toNat = s.clock.toNat + 1)
    {q : Piece} (hq : q ∈ site.layout.pieces) :
    Host.Hears q w (s.clock.toNat + 1)
      { shards q.shard with
        queue := (shards q.shard).queue ++ [s.moved.message .clock q.shard []] } := by
  obtain ⟨latest, hhears, hlatest⟩ := h.hears q hq
  rw [← hnext]
  refine hhears.tell (m := s.moved.message .clock q.shard []) rfl h.worker_eq ?_
  change s.moved.clock.toNat = latest ∨ s.moved.clock.toNat = latest + 1
  rcases hlatest with rfl | ⟨rfl, -⟩
  · exact Or.inr hnext
  · exact Or.inl hnext

variable {σ : Type} [Courier σ] {inner : σ} {out : Recorded σ}

theorem tick (h : s.Leads site w shards results)
    (htick : s.tick (⟨inner, []⟩ : Recorded σ) = .ok () (s', out)) :
    s'.Leads site w
      (fun p => { shards p with
        queue := (shards p).queue ++ out.taken.filter fun m => decide (m.receiver = p) })
      (results ++ [.ok ()]) := by
  have hnext := toNat_moved (Or.inl ⟨_, htick⟩)
  obtain ⟨-, rfl, -, -⟩ := tick_eq_ok htick
  refine ⟨h.worker_eq, h.layout_eq, ?_, fun q hq => ⟨s.clock.toNat + 1, ?_, Or.inl hnext.symm⟩⟩
  · rw [hnext, h.clock_eq, List.countP_append]
    rfl
  · simp only [told_of_tick htick (h.layout_eq ▸ hq)]
    exact h.told hnext hq

theorem tickFails (h : s.Leads site w shards results) {why : Error}
    (htick : s.tick (⟨inner, []⟩ : Recorded σ) = .error why (s', out)) :
    s'.Leads site w
      (fun p => { shards p with
        queue := (shards p).queue ++ out.taken.filter fun m => decide (m.receiver = p) })
      (results ++ [.error why]) := by
  have hnext := toNat_moved (Or.inr ⟨_, htick⟩)
  obtain ⟨rfl, -, -⟩ := tick_eq_error htick
  have hlast : (results ++ [Except.error why]).getLast? ≠ some (.ok ()) := by simp
  refine ⟨h.worker_eq, h.layout_eq, ?_, fun q hq => ?_⟩
  · rw [h.clock_eq, List.countP_append]
    rfl
  · rcases told_of_tick_fails htick (h.layout_eq ▸ hq) with hnone | hsaid
    · obtain ⟨latest, hhears, hlatest⟩ := h.hears q hq
      simp only [hnone, List.append_nil]
      exact ⟨latest, hhears, hlatest.imp_right fun hahead => ⟨hahead.1, hlast⟩⟩
    · simp only [hsaid]
      exact ⟨s'.clock.toNat + 1, h.told hnext hq, Or.inr ⟨rfl, hlast⟩⟩

end Session.Leads

namespace World

variable {site : Site τ} {w : ThreadId} {W W' : World τ} {σ : Type} [Courier σ]
  {results : List (Except Error Unit)} {result : Option (Except Error Unit)}

theorem leads_start (h : site.Awaits w) :
    (site.start.workers w).session.Leads site w site.start.shards [] where
  worker_eq := rfl
  layout_eq := rfl
  clock_eq := rfl
  hears _ hq := ⟨0, Host.hears_of_awaits h hq, Or.inl rfl⟩

/-- What is said in a call for something else leaves the shards where they were. -/
theorem hears_of_post {q : Piece} {latest : Nat} (h : (W.shards q.shard).Hears q w latest)
    {op : Op} (hop : op = .add ∨ op = .get) {ms : List Message} (hms : ∀ m ∈ ms, m.op = op) :
    ((W.post ms).shards q.shard).Hears q w latest := by
  refine h.mono fun m hm => ?_
  rw [hms m (List.mem_filter.mp hm).1]
  rcases hop with rfl | rfl <;> simp

theorem hears_of_slip {q r : Piece} {latest : Nat} (h : (W.shards r.shard).Hears r w latest)
    {m : Message} (hsender : m.sender ≠ w) (hop : m.op ≠ .resetWorkers) :
    ((W.slip q.shard m).shards r.shard).Hears r w latest := by
  obtain ⟨ms, hms, hhost⟩ := shards_slip W q.shard r.shard m
  rw [hhost]
  exact h.mono fun k hk => hms k hk ▸ ⟨hop, fun _ => hsender⟩

theorem leads_of_falters (h : (W.workers w).session.Leads site w W.shards results)
    (hnext : Falters σ site w W result W') :
    (W'.workers w).session.Leads site w W'.shards (results ++ result.toList) := by
  cases hnext with
  | push hpush =>
    rw [Option.toList_none, List.append_nil]
    exact h.mono rfl rfl rfl fun q _ latest hhears =>
      hears_of_post hhears (Or.inl rfl) (Session.op_of_push hpush)
  | tick htick =>
    rw [workers_seat_self]
    exact h.tick htick
  | tickFails htick =>
    rw [workers_seat_self]
    exact h.tickFails htick
  | ask hask =>
    rw [Option.toList_none, List.append_nil, workers_seat_self]
    obtain ⟨hworker, hlayout, hclock, hop⟩ := Session.startPull_leaves hask
    exact h.mono hworker hlayout hclock fun q _ latest hhears =>
      hears_of_post hhears (Or.inr rfl) hop
  | read hread =>
    rw [Option.toList_none, List.append_nil, workers_seat_self, Session.giveUp_leaves hread]
    exact h.mono rfl rfl rfl fun q _ latest hhears => hhears
  | slip hq hsender hop =>
    rw [Option.toList_none, List.append_nil]
    exact h.mono rfl rfl rfl fun r _ latest hhears => hears_of_slip hhears hsender hop
  | serve hq hqueue hstep =>
    rw [Option.toList_none, List.append_nil]
    exact h.mono rfl rfl rfl (forall_served hq
      (P := fun r host => ∀ latest, (W.shards r.shard).Hears r w latest → host.Hears r w latest)
      (fun latest hhears => hhears.serve hqueue hstep) fun r _ latest hhears => hhears)

theorem leads_of_faltered (hawaits : site.Awaits w) (h : Faltered σ site w results W) :
    (W.workers w).session.Leads site w W.shards results := by
  induction h with
  | start => exact leads_start hawaits
  | next _ hnext ih => exact leads_of_falters ih hnext

/-- **A call that has failed is made again.** A worker's clock is the number of its calls that came
off, and until the numbers run out a call comes off or fails. Each shard takes in the worker's
clocks one after the other, none left out and none twice. When it has come to all of them it is
where the worker is or one ahead, and if the latest call came off it is where the worker is. -/
theorem retried_safely (hawaits : site.Awaits w) (h : Faltered σ site w results W) :
    (W.workers w).session.clock.toNat = results.countP Except.isOk ∧
      (∀ q ∈ site.layout.pieces,
        (W.shards q.shard).heard w = List.range' 1 ((W.shards q.shard).heard w).length ∧
        ((∀ m ∈ (W.shards q.shard).queue, m.sender ≠ w) →
          (((W.shards q.shard).tablet.slice.roster.reached w).toNat =
              (W.workers w).session.clock.toNat ∨
            ((W.shards q.shard).tablet.slice.roster.reached w).toNat =
              (W.workers w).session.clock.toNat + 1) ∧
          (results.getLast? = some (.ok ()) →
            (W.shards q.shard).tablet.slice.roster.clockOf? w =
              some (W.workers w).session.clock))) ∧
      (results.length + 1 < UInt64.size →
        ∀ inner : σ, ∃ left,
          ((W.workers w).session.tick (⟨inner, []⟩ : Recorded σ)).Leaves left) := by
  have hleads := leads_of_faltered hawaits h
  refine ⟨hleads.clock_eq, fun q hq => ?_, fun hfew inner => Session.exists_tick_leaves ?_ _⟩
  · obtain ⟨latest, hhears, hlatest⟩ := hleads.hears q hq
    refine ⟨?_, fun hdrained => ?_⟩
    · rw [hhears.heard_eq, List.length_range']
    · have hreached := hhears.latest_of_drained hdrained
      rw [hreached] at hlatest
      refine ⟨hlatest.imp_right And.left, fun hlast => ?_⟩
      have hsame := UInt64.toNat_inj.mp (hlatest.resolve_right fun hahead => hahead.2 hlast)
      have hpos : 0 < results.countP Except.isOk :=
        List.countP_pos_iff.mpr ⟨_, List.mem_of_getLast? hlast, rfl⟩
      rw [← hsame]
      refine Roster.clockOf?_of_reached ?_
      rwa [hsame, UInt64.lt_iff_toNat_lt, hleads.clock_eq]
  · have hcount : results.countP Except.isOk ≤ results.length := List.countP_le_length
    rw [hleads.clock_eq]
    omega

/-- Worker 8 has told shard 1 of its clock when it finds the link to shard 2 down. Then the one to
shard 1 is down, and then both are up. Shard 1 hears of the clock twice and takes it in once. -/
theorem retried_safely_twice :
    ∃ W : World .integer,
      Faltered Outbox solo 8 [.error (.transport (.unreachable 2)),
        .error (.transport (.unreachable 1)), .ok ()] W ∧
      (W.shards 1).log.length = 2 ∧ (W.shards 2).log.length = 1 ∧
      (W.workers 8).session.clock.toNat = 1 ∧
      ∀ q ∈ solo.layout.pieces, (W.shards q.shard).queue = [] ∧
        (W.shards q.shard).heard 8 = List.range' 1 ((W.shards q.shard).heard 8).length ∧
        (W.shards q.shard).tablet.slice.roster.clockOf? 8 = some (W.workers 8).session.clock := by
  let session := (solo.start.workers 8).session
  let one (p : ThreadId) : Message := ⟨.clock, 8, p, 0, 1, 0, []⟩
  have hlater : session.tick (⟨⟨[], [2], []⟩, []⟩ : Recorded Outbox) =
    .error (.transport (.unreachable 2)) (session, ⟨_, [one 1]⟩) := rfl
  have hagain : session.tick (⟨⟨[], [1], []⟩, []⟩ : Recorded Outbox) =
    .error (.transport (.unreachable 1)) (session, ⟨_, []⟩) := rfl
  have hall : session.tick (⟨line, []⟩ : Recorded Outbox) =
    .ok () (session.moved, ⟨_, [one 1, one 2]⟩) := rfl
  let first : Piece := ⟨⟨0, 5⟩, 1⟩
  let second : Piece := ⟨⟨5, 10⟩, 2⟩
  have hfirst : first ∈ solo.layout.pieces := by decide
  have hsecond : second ∈ solo.layout.pieces := by decide
  have h0 : Faltered Outbox solo 8 [] solo.start := .start
  have h1 := h0.next (.tickFails hlater)
  have h2 := h1.next (.tickFails hagain)
  have h3 := h2.next (.tick hall)
  have h4 := h3.next (@Falters.serve _ _ _ _ _ _ first (one 1) [one 1] _ hfirst rfl rfl)
  have h5 := h4.next (@Falters.serve _ _ _ _ _ _ first (one 1) [] _ hfirst rfl rfl)
  have h6 := h5.next (@Falters.serve _ _ _ _ _ _ second (one 2) [] _ hsecond rfl rfl)
  have hawaits := Site.awaits_of_welcoming solo_welcoming (w := 8) (by decide)
  obtain ⟨hclock, hshards, -⟩ := retried_safely hawaits h6
  refine ⟨_, h6, rfl, rfl, hclock, fun q hq => ?_⟩
  obtain ⟨hheard, hthere⟩ := hshards q hq
  have hpieces := hq
  simp only [solo, List.mem_cons, List.not_mem_nil, or_false] at hpieces
  rcases hpieces with rfl | rfl
  · exact ⟨rfl, hheard, (hthere (by rintro m ⟨⟩)).2 rfl⟩
  · exact ⟨rfl, hheard, (hthere (by rintro m ⟨⟩)).2 rfl⟩

end World

end ParamServer
