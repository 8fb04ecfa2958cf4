import ParamServer.Proofs.Courier
import ParamServer.Proofs.Session.Calls

/-!
# A session among honest shards

A worker calls what it likes, a read may be broken off whenever nothing is there to be read, the
network may refuse any message, and the shards answer when they please, in any order, or never.
`Desk.Step` is any one of these things happening. As long as a shard answers what it was asked, once
at most, the session finds fault with no answer, returns to each position of a batch what the owner
of the key said there, and counts to the last one the answers that it has stopped waiting for.
-/

namespace ParamServer

/-- What a call reports to the worker. -/
inductive Desk.Report (τ : ScalarType) where
  | quiet
  | failed (why : Error)
  | got (request : RequestId) (keys : List Key) (values : List τ.Value)

/-- A session, the network it sends to, and all that is on its way. -/
structure Desk (τ : ScalarType) (σ : Type) where
  session : Session τ
  network : Recorded σ
  /-- Reads that the network took and no shard has answered. -/
  out : List Message := []
  inbox : List Message := []
  /-- Answers that the session has taken from the inbox. -/
  read : List Message := []
  /-- The read under way and its batch. -/
  pull : Option (List Key × Pull τ) := none
  /-- Reads that ended in an error. -/
  failed : List RequestId := []

namespace Desk

variable {τ : ScalarType} {σ : Type} [Courier σ]

/-- What the network took in a call that left it as `network`. -/
def fresh (d : Desk τ σ) (network : Recorded σ) : List Message :=
  network.taken.drop d.network.taken.length

inductive Step (d : Desk τ σ) : Report τ → Desk τ σ → Prop
  | weather (inner : σ) : Step d .quiet { d with network := { d.network with inner } }
  | push {keys : List Key} {values : List τ.Value} {network : Recorded σ} (hidle : d.pull = none)
      (h : d.session.push d.network keys values = .ok () network) :
      Step d .quiet { d with network }
  | pushFails {keys : List Key} {values : List τ.Value} {why : Error} {network : Recorded σ}
      (hidle : d.pull = none) (h : d.session.push d.network keys values = .error why network) :
      Step d (.failed why) { d with network }
  | tick {session : Session τ} {network : Recorded σ} (hidle : d.pull = none)
      (h : d.session.tick d.network = .ok () (session, network)) :
      Step d .quiet { d with session, network }
  | tickFails {why : Error} {session : Session τ} {network : Recorded σ} (hidle : d.pull = none)
      (h : d.session.tick d.network = .error why (session, network)) :
      Step d (.failed why) { d with session, network }
  | ask {keys : List Key} {p : Pull τ} {session : Session τ} {network : Recorded σ}
      (hidle : d.pull = none)
      (h : d.session.startPull d.network keys = .ok p (session, network)) :
      Step d .quiet
        { d with session, network, out := d.out ++ d.fresh network, pull := some (keys, p) }
  | askFails {keys : List Key} {why : Error} {session : Session τ} {network : Recorded σ}
      (hidle : d.pull = none)
      (h : d.session.startPull d.network keys = .error why (session, network)) :
      Step d (.failed why)
        { d with
          session, network
          out := d.out ++ d.fresh network
          failed :=
            if session.lastRequest = d.session.lastRequest then d.failed
            else session.lastRequest :: d.failed }
  | answer {g a : Message} {rest : List Message} (hout : d.out.Perm (g :: rest))
      (ha : Session.IsAnswer τ g a) :
      Step d .quiet { d with out := rest, inbox := d.inbox ++ [a] }
  /-- The session reads all of `front` and is not done yet. -/
  | wait {keys : List Key} {p p' : Pull τ} {session : Session τ} {front rest : List Message}
      (hpull : d.pull = some (keys, p)) (hinbox : d.inbox = front ++ rest)
      (h : d.session.collect p front = .pending p' session) :
      Step d .quiet
        { d with session, inbox := rest, read := d.read ++ front, pull := some (keys, p') }
  | finish {keys : List Key} {p : Pull τ} {session : Session τ} {values : List τ.Value}
      {silence : Silence} {used unread rest : List Message} (hpull : d.pull = some (keys, p))
      (hinbox : d.inbox = used ++ unread ++ rest)
      (h : Session.giveUp silence (d.session.collect p (used ++ unread)) =
        .ok values (session, unread)) :
      Step d (.got p.request keys values)
        { d with session, inbox := unread ++ rest, read := d.read ++ used, pull := none }
  | finishFails {keys : List Key} {p : Pull τ} {session : Session τ} {why : Error}
      {silence : Silence} {used unread rest : List Message} (hpull : d.pull = some (keys, p))
      (hinbox : d.inbox = used ++ unread ++ rest)
      (h : Session.giveUp silence (d.session.collect p (used ++ unread)) =
        .error why (session, unread)) :
      Step d (.failed why)
        { d with
          session
          inbox := unread ++ rest
          read := d.read ++ used
          pull := none
          failed := p.request :: d.failed }

/-- What can come of a session that nobody has used yet. -/
inductive Reachable (worker : ThreadId) (table : TableId) (layout : Layout) : Desk τ σ → Prop
  | start (inner : σ) :
      Reachable worker table layout
        { session := { worker, table, layout }, network := { inner } }
  | step {d d' : Desk τ σ} {report : Report τ} (h : Reachable worker table layout d)
      (hstep : d.Step report d') : Reachable worker table layout d'

/-- How many reads with this number were sent. -/
def sent (d : Desk τ σ) (r : RequestId) : Nat :=
  (d.network.taken.filter fun m => decide (m.op = .get)).countP fun g => decide (g.request = r)

/-- How many answers with this number the session has taken from its inbox. -/
def consumed (d : Desk τ σ) (r : RequestId) : Nat :=
  d.read.countP fun a => decide (a.request = r)

end Desk

/-- What the session knows: its debts, how they add up, and whose they are. -/
structure Desk.Fine {τ : ScalarType} {σ : Type} (layout : Layout) (d : Desk τ σ) : Prop where
  layout_eq : d.session.layout = layout
  owes : d.session.Owes (d.pull.map (·.2)) d.out d.inbox
  tally : ∀ r, d.out.countP (fun g => decide (g.request = r)) +
    d.inbox.countP (fun a => decide (a.request = r)) + d.consumed r = d.sent r
  known : ∀ r n, d.session.abandoned.get? r = some n → r ∈ d.failed
  pulled : ∀ keys p, d.pull = some (keys, p) →
    p.Backed d.read ∧ layout.Cut 0 keys (p.parts.map (·.run))

namespace Desk

section Read

variable {τ : ScalarType} {σ : Type} {layout : Layout} {d : Desk τ σ}

theorem fine_of_answer (h : Fine layout d) {g a : Message} {rest : List Message}
    (hout : d.out.Perm (g :: rest)) (ha : Session.IsAnswer τ g a) :
    Fine layout { d with out := rest, inbox := d.inbox ++ [a] } where
  layout_eq := h.layout_eq
  owes := Session.owes_answer (Session.owes_of_perm h.owes hout (List.Perm.refl _)) ha
  tally r := by
    have htally := h.tally r
    rw [hout.countP_eq, List.countP_cons] at htally
    change rest.countP (fun g => decide (g.request = r)) +
      (d.inbox ++ [a]).countP (fun a => decide (a.request = r)) + d.consumed r = d.sent r
    rw [List.countP_append, List.countP_singleton, ha.request_eq]
    omega
  known := h.known
  pulled := h.pulled

theorem tally_of_read (h : Fine layout d) {used rest : List Message}
    (hinbox : d.inbox = used ++ rest) (r : RequestId) :
    d.out.countP (fun g => decide (g.request = r)) +
      rest.countP (fun a => decide (a.request = r)) +
      (d.read ++ used).countP (fun a => decide (a.request = r)) = d.sent r := by
  have htally := h.tally r
  rw [hinbox, List.countP_append, consumed] at htally
  rw [List.countP_append]
  omega

theorem known_of_kept (h : Fine layout d) {session : Session τ} {p p' : Pull τ}
    (hkept : Session.Kept d.session session p p') :
    ∀ r n, session.abandoned.get? r = some n → r ∈ d.failed := by
  intro r n hget
  cases hold : d.session.abandoned.get? r with
  | none =>
    rw [hkept.shrunk r hold] at hget
    cases hget
  | some k => exact h.known r k hold

theorem fine_of_wait (h : Fine layout d) {keys : List Key} {p p' : Pull τ} {session : Session τ}
    {front rest : List Message} (hpull : d.pull = some (keys, p))
    (hinbox : d.inbox = front ++ rest)
    (hcollect : d.session.collect p front = .pending p' session) :
    Fine layout
      { d with session, inbox := rest, read := d.read ++ front, pull := some (keys, p') } := by
  have howes := h.owes
  rw [hpull, hinbox] at howes
  obtain ⟨hbacked, hcut⟩ := h.pulled keys p hpull
  rcases Session.collect_of_owes howes hbacked with
    ⟨_, _, _, _, -, hdone, -⟩ | ⟨s', q, hpending, -, howes', hkept, hbacked'⟩
  · rw [hdone] at hcollect
    cases hcollect
  · rw [hpending] at hcollect
    obtain ⟨rfl, rfl⟩ := Reading.pending.inj hcollect
    refine ⟨?_, howes', tally_of_read h hinbox, ?_, ?_⟩
    · rw [hkept.session]
      exact h.layout_eq
    · exact known_of_kept h hkept
    · intro keys' q' hq
      obtain ⟨rfl, rfl⟩ := Prod.mk.inj (Option.some.inj hq)
      exact ⟨hbacked', by rw [hkept.runs]; exact hcut⟩

/-- A read that ends well is complete, and everything in it was said in an answer. -/
theorem finish_cases (h : Fine layout d) {keys : List Key} {p : Pull τ} {session : Session τ}
    {values : List τ.Value} {silence : Silence} {used unread rest : List Message}
    (hpull : d.pull = some (keys, p)) (hinbox : d.inbox = used ++ unread ++ rest)
    (hcollect : Session.giveUp silence (d.session.collect p (used ++ unread)) =
      .ok values (session, unread)) :
    ∃ p', values = p'.values ∧ p'.missing = 0 ∧ p'.Backed (d.read ++ used) ∧
      session.Owes none d.out (unread ++ rest) ∧ Session.Kept d.session session p p' := by
  have howes := h.owes
  rw [hpull, hinbox] at howes
  rcases Session.collect_of_owes howes (h.pulled keys p hpull).1 with
    ⟨s', p', used', unread', hsplit, hdone, hzero, howes', hkept, hbacked⟩ |
    ⟨_, _, hpending, -⟩
  · rw [hdone] at hcollect
    obtain ⟨rfl, hstate⟩ := Outcome.ok.inj hcollect
    obtain ⟨rfl, rfl⟩ := Prod.mk.inj hstate
    obtain rfl := List.append_cancel_right hsplit
    exact ⟨p', rfl, hzero, hbacked, Session.owes_of_done howes' hzero, hkept⟩
  · rw [hpending] at hcollect
    cases hcollect

theorem fine_of_finish (h : Fine layout d) {keys : List Key} {p : Pull τ} {session : Session τ}
    {values : List τ.Value} {silence : Silence} {used unread rest : List Message}
    (hpull : d.pull = some (keys, p)) (hinbox : d.inbox = used ++ unread ++ rest)
    (hcollect : Session.giveUp silence (d.session.collect p (used ++ unread)) =
      .ok values (session, unread)) :
    Fine layout
      { d with session, inbox := unread ++ rest, read := d.read ++ used, pull := none } := by
  obtain ⟨p', -, -, -, howes, hkept⟩ := finish_cases h hpull hinbox hcollect
  refine ⟨?_, howes, ?_, ?_, by simp⟩
  · rw [hkept.session]
    exact h.layout_eq
  · exact tally_of_read h (by rw [hinbox, List.append_assoc])
  · exact known_of_kept h hkept

theorem fine_of_finishFails (h : Fine layout d) {keys : List Key} {p : Pull τ}
    {session : Session τ} {why : Error} {silence : Silence} {used unread rest : List Message}
    (hpull : d.pull = some (keys, p)) (hinbox : d.inbox = used ++ unread ++ rest)
    (hcollect : Session.giveUp silence (d.session.collect p (used ++ unread)) =
      .error why (session, unread)) :
    why = silence.error session.worker p.request ∧
    Fine layout
      { d with
        session
        inbox := unread ++ rest
        read := d.read ++ used
        pull := none
        failed := p.request :: d.failed } := by
  have howes := h.owes
  rw [hpull, hinbox] at howes
  rcases Session.collect_of_owes howes (h.pulled keys p hpull).1 with
    ⟨_, _, _, _, -, hdone, -⟩ | ⟨s', p', hpending, -, howes', hkept, -⟩
  · rw [hdone] at hcollect
    cases hcollect
  · rw [hpending] at hcollect
    obtain ⟨rfl, hstate⟩ := Outcome.error.inj hcollect
    obtain ⟨rfl, rfl⟩ := Prod.mk.inj hstate
    refine ⟨?_, ?_, Session.owes_abandon howes', ?_, ?_, by simp⟩
    · rw [Session.abandon_eq, hkept.request]
    · rw [Session.abandon_eq, hkept.session]
      exact h.layout_eq
    · exact tally_of_read h (by rw [hinbox, List.append_assoc])
    · intro r n hget
      rcases Session.get?_abandon hget with rfl | hget
      · rw [hkept.request]
        exact List.mem_cons_self ..
      · exact List.mem_cons_of_mem _ (known_of_kept h hkept r n hget)

/-- Between calls, what is kept for a read is what is still to come for it. -/
theorem abandoned_of_fine (h : Fine layout d) (hidle : d.pull = none) (r : RequestId) :
    d.consumed r ≤ d.sent r ∧ d.session.abandoned.get? r =
      if r ∈ d.failed ∧ d.sent r ≠ d.consumed r then some (d.sent r - d.consumed r) else none := by
  have hcounts := h.owes.counts r
  have htally := h.tally r
  rw [hidle] at hcounts
  change _ + 0 = _ at hcounts
  refine ⟨by omega, ?_⟩
  cases hget : d.session.abandoned.get? r with
  | none =>
    rw [hget, Option.getD_none] at hcounts
    rw [if_neg fun hboth => hboth.2 (by omega)]
  | some n =>
    have hpositive : n ≠ 0 := fun hzero => h.owes.positive r (by rw [hget, hzero])
    rw [hget, Option.getD_some] at hcounts
    rw [if_pos ⟨h.known r n hget, by omega⟩]
    congr 1
    omega

theorem sourced_of_finish (h : Fine layout d) {keys : List Key} {p : Pull τ} {session : Session τ}
    {values : List τ.Value} {silence : Silence} {used unread rest : List Message}
    (hpull : d.pull = some (keys, p)) (hinbox : d.inbox = used ++ unread ++ rest)
    (hcollect : Session.giveUp silence (d.session.collect p (used ++ unread)) =
      .ok values (session, unread)) :
    Sourced layout (d.read ++ used) p.request keys values := by
  obtain ⟨p', rfl, hzero, hbacked, -, hkept⟩ := finish_cases h hpull hinbox hcollect
  have hcut := (h.pulled keys p hpull).2
  rw [← hkept.runs] at hcut
  rw [← hkept.request]
  exact Pull.sourced_of_backed hcut hzero hbacked

end Read

variable {τ : ScalarType} {σ : Type} [Courier σ] {layout : Layout} {d d' : Desk τ σ}

theorem fine_of_quiet (h : Fine layout d) {ms : List Message} (hms : ∀ m ∈ ms, m.op ≠ .get)
    {session : Session τ} (hlayout : session.layout = d.session.layout)
    (habandoned : session.abandoned = d.session.abandoned)
    (hlast : session.lastRequest = d.session.lastRequest) :
    Fine layout { d with session, network := (Courier.sendAll d.network ms).courier } where
  layout_eq := hlayout.trans h.layout_eq
  owes := Session.owes_congr h.owes habandoned hlast
  tally r := by
    have hnone : ((ms.take (Courier.sendAll d.network ms).sent).filter
        fun m => decide (m.op = .get)) = [] :=
      filter_of_forall_ne fun m hm => hms m (List.mem_of_mem_take hm)
    simp only [sent, (Recorded.sendAll_recorded d.network ms).1, List.filter_append, hnone,
      List.append_nil]
    exact h.tally r
  known := by
    rw [habandoned]
    exact h.known
  pulled := h.pulled

theorem owes_of_startPull (h : Fine layout d) (hidle : d.pull = none)
    (hroom : d.session.lastRequest.toNat + 1 ≠ UInt64.size) {keys : List Key} {runs : List Run}
    (hruns : d.session.layout.runs keys = .ok runs) :
    let asked := runs.take (Courier.sendAll d.network (d.session.numbered.requests runs)).sent
    let network := (Courier.sendAll d.network (d.session.numbered.requests runs)).courier
    d.session.numbered.Owes
        (some (Session.asking d.session.numbered.lastRequest asked))
        (d.out ++ d.fresh network) d.inbox ∧
      ∀ r, (d.out ++ d.fresh network).countP (fun g => decide (g.request = r)) +
        d.inbox.countP (fun a => decide (a.request = r)) + d.consumed r =
          (network.taken.filter fun m => decide (m.op = .get)).countP
            fun g => decide (g.request = r) := by
  intro asked network
  obtain ⟨htaken, -, -⟩ :=
    Recorded.sendAll_recorded d.network (d.session.numbered.requests runs)
  have hall : network.taken = d.network.taken ++ d.fresh network := by
    rw [fresh, htaken, List.drop_left]
  have hnew : d.fresh network = d.session.numbered.requests asked := by
    rw [fresh, htaken, List.drop_left, Session.requests, ← List.map_take]
    rfl
  have hget : (d.fresh network).filter (fun m => decide (m.op = .get)) = d.fresh network := by
    rw [hnew]
    exact filter_of_forall_eq Session.op_of_requests
  have hdistinct : (asked.map (·.shard)).Nodup :=
    (Layout.cut_of_runs hruns).1.distinct.sublist ((List.take_sublist ..).map _)
  constructor
  · have howes := h.owes
    rw [hidle] at howes
    rw [hnew]
    exact Session.owes_ask howes hroom hdistinct
  · intro r
    have htally := h.tally r
    rw [hall, List.filter_append, hget, List.countP_append, List.countP_append]
    rw [sent] at htally
    omega

theorem fine_of_askFails (h : Fine layout d) (hidle : d.pull = none) {keys : List Key} {why : Error}
    {session : Session τ} {network : Recorded σ}
    (hask : d.session.startPull d.network keys = .error why (session, network)) :
    Fine layout
      { d with
        session, network
        out := d.out ++ d.fresh network
        failed :=
          if session.lastRequest = d.session.lastRequest then d.failed
          else session.lastRequest :: d.failed } := by
  rcases Session.startPull_eq_error hask with
    ⟨rfl, rfl, -⟩ | ⟨runs, hruns, hroom, -, rfl, rfl⟩
  · have hfresh : d.out ++ d.fresh d.network = d.out := by simp [fresh]
    simp only [hfresh, if_pos]
    exact h
  · obtain ⟨howes, htally⟩ := owes_of_startPull h hidle hroom hruns
    have hne : d.session.numbered.lastRequest ≠ d.session.lastRequest :=
      (UInt64.ne_of_lt (Session.lt_numbered hroom)).symm
    have habandon := Session.owes_abandon howes
    refine ⟨?_, ?_, htally, ?_, ?_⟩
    · rw [Session.abandon_eq]
      exact h.layout_eq
    · rw [hidle]
      exact habandon
    · intro r n hget
      have hlast : (d.session.numbered.abandon (Session.asking d.session.numbered.lastRequest
          (runs.take (Courier.sendAll d.network
            (d.session.numbered.requests runs)).sent))).lastRequest =
          d.session.numbered.lastRequest := by
        rw [Session.abandon_eq]
      simp only [hlast, if_neg hne]
      rcases Session.get?_abandon hget with rfl | hold
      · exact List.mem_cons_self ..
      · exact List.mem_cons_of_mem _ (h.known r n hold)
    · intro keys p hp
      rw [hidle] at hp
      cases hp

/-- **Nothing that happens upsets the session.** -/
theorem fine_of_step (h : Fine layout d) {report : Report τ} (hstep : d.Step report d') :
    Fine layout d' := by
  cases hstep with
  | weather inner => exact ⟨h.layout_eq, h.owes, h.tally, h.known, h.pulled⟩
  | push hidle hpush =>
    obtain ⟨-, runs, -, -, rfl⟩ := Session.push_eq_ok hpush
    exact fine_of_quiet h Session.op_of_updates rfl rfl rfl
  | pushFails hidle hpush =>
    rcases Session.push_eq_error hpush with ⟨rfl, -⟩ | ⟨runs, -, -, -, rfl⟩
    · exact h
    · exact fine_of_quiet h Session.op_of_updates rfl rfl rfl
  | tick hidle htick =>
    obtain ⟨-, rfl, -, rfl⟩ := Session.tick_eq_ok htick
    exact fine_of_quiet h Session.op_of_ticks rfl rfl rfl
  | tickFails hidle htick =>
    obtain ⟨rfl, -, rfl⟩ := Session.tick_eq_error htick
    exact fine_of_quiet h Session.op_of_ticks rfl rfl rfl
  | answer hout ha => exact fine_of_answer h hout ha
  | ask hidle hask =>
    rcases Session.startPull_eq_ok hask with
      ⟨rfl, rfl, rfl, rfl⟩ | ⟨runs, hruns, hroom, hnone, rfl, rfl, rfl⟩
    · have howes := h.owes
      rw [hidle] at howes
      have hfresh : d.out ++ d.fresh d.network = d.out := by simp [fresh]
      refine ⟨h.layout_eq, ?_, ?_, h.known, ?_⟩
      · simp only [hfresh]
        exact Session.owes_nothing howes _
      · simp only [hfresh]
        exact h.tally
      · intro keys p hp
        obtain ⟨rfl, rfl⟩ := Prod.mk.inj (Option.some.inj hp)
        exact ⟨by simp [Pull.Backed], Layout.cut_nil layout 0⟩
    · obtain ⟨howes, htally⟩ := owes_of_startPull h hidle hroom hruns
      rw [Session.take_sent hnone] at howes
      refine ⟨h.layout_eq, howes, htally, h.known, ?_⟩
      intro keys p hp
      obtain ⟨rfl, rfl⟩ := Prod.mk.inj (Option.some.inj hp)
      refine ⟨Session.backed_asking _ _ _, ?_⟩
      rw [Session.runs_asking, ← h.layout_eq]
      exact (Layout.cut_of_runs hruns).1
  | askFails hidle hask => exact fine_of_askFails h hidle hask
  | wait hpull hinbox hcollect => exact fine_of_wait h hpull hinbox hcollect
  | finish hpull hinbox hcollect => exact fine_of_finish h hpull hinbox hcollect
  | finishFails hpull hinbox hcollect => exact (fine_of_finishFails h hpull hinbox hcollect).2

theorem fine_of_reachable {worker : ThreadId} {table : TableId}
    (h : Reachable worker table layout d) : Fine layout d := by
  induction h with
  | start inner =>
    refine ⟨rfl, ⟨?_, ?_, by simp, by simp, by simp⟩, by simp [sent, consumed], ?_, by simp⟩
    · simp
    · simp [Session.due]
    · simp
  | step _ hstep ih => exact fine_of_step ih hstep

/-- A call fails for a key without an owner, for a batch of the wrong length, because the network
refused a message, or because no answer came. -/
theorem failed_of_step (h : Fine layout d) {why : Error} (hstep : d.Step (.failed why) d') :
    (∃ m, why = .malformed m) ∨ (∃ key, why = .keyOutOfRange key) ∨
      (∃ (c : σ) (m : Message), Courier.send c m = .error why) ∨
      ∃ silence worker request, why = Silence.error worker request silence := by
  cases hstep with
  | pushFails hidle hpush =>
    rcases Session.push_eq_error hpush with ⟨-, hwhy | hwhy⟩ | ⟨runs, -, -, hsome, -⟩
    · exact Or.inl hwhy
    · exact Or.inr (Or.inl hwhy)
    · exact Or.inr (Or.inr (Or.inl ((Recorded.sendAll_recorded ..).2.2 why hsome)))
  | tickFails hidle htick =>
    obtain ⟨-, hsome, -⟩ := Session.tick_eq_error htick
    exact Or.inr (Or.inr (Or.inl ((Recorded.sendAll_recorded ..).2.2 why hsome)))
  | askFails hidle hask =>
    rcases Session.startPull_eq_error hask with ⟨-, -, hwhy⟩ | ⟨runs, -, -, hsome, -⟩
    · exact Or.inr (Or.inl hwhy)
    · exact Or.inr (Or.inr (Or.inl ((Recorded.sendAll_recorded ..).2.2 why hsome)))
  | finishFails hpull hinbox hcollect =>
    exact Or.inr (Or.inr (Or.inr ⟨_, _, _, (fine_of_finishFails h hpull hinbox hcollect).1⟩))

/-- **Honest shards are never misjudged.** Whatever has happened to a session, and whatever happens
next: no call ends in a protocol violation, a read that ends well has from each owner what it said
about its keys, and between calls `abandoned` has an entry for just those failed reads that answers
are still to come for, and counts them. The network may fail as it likes, but a violation is not for
it to report. -/
theorem honest_never_misjudged
    (hnet : ∀ (c : σ) (m : Message) (v : Violation), Courier.send c m ≠ .error (.protocol v))
    {worker : ThreadId} {table : TableId} (h : Reachable worker table layout d) :
    (∀ report d', d.Step report d' →
      (∀ v, report ≠ .failed (.protocol v)) ∧
      ∀ request keys values, report = .got request keys values →
        Sourced layout d'.read request keys values) ∧
    (d.pull = none → ∀ r, d.consumed r ≤ d.sent r ∧ d.session.abandoned.get? r =
      if r ∈ d.failed ∧ d.sent r ≠ d.consumed r then some (d.sent r - d.consumed r)
      else none) := by
  have hfine := fine_of_reachable h
  refine ⟨?_, fun hidle r => abandoned_of_fine hfine hidle r⟩
  intro report d' hstep
  constructor
  · rintro v rfl
    rcases failed_of_step hfine hstep with
      ⟨m, hwhy⟩ | ⟨key, hwhy⟩ | ⟨c, m, hsend⟩ | ⟨silence, _, _, hwhy⟩
    · cases hwhy
    · cases hwhy
    · exact hnet c m v hsend
    · cases silence <;> cases hwhy
  · rintro request keys values rfl
    cases hstep with
    | finish hpull hinbox hcollect => exact sourced_of_finish hfine hpull hinbox hcollect

/-- Two shards with ten keys between them. -/
def halves : Layout where
  pieces := [⟨⟨0, 5⟩, 1⟩, ⟨⟨5, 10⟩, 2⟩]
  wellFormed := Layout.wellFormed_halves

/-- The link to shard 2 is down, so a read of both shards fails when shard 1 has been asked already.
That one answer is kept count of. -/
theorem honest_never_misjudged_halfway :
    ∃ d : Desk .integer Outbox, Reachable 9 0 halves d ∧ d.pull = none ∧ d.failed = [1] ∧
      d.session.abandoned.get? 1 = some 1 ∧
      (∀ report d', d.Step report d' →
        (∀ v, report ≠ .failed (.protocol v)) ∧
        ∀ request keys values, report = .got request keys values →
          Sourced halves d'.read request keys values) ∧
      ∀ r, d.consumed r ≤ d.sent r ∧ d.session.abandoned.get? r =
        if r ∈ d.failed ∧ d.sent r ≠ d.consumed r then some (d.sent r - d.consumed r)
        else none := by
  have hnet : ∀ (c : Outbox) (m : Message) (v : Violation),
      Courier.send c m ≠ .error (.protocol v) := by
    intro c m v hsend
    simp only [Courier.send] at hsend
    split at hsend <;> cases hsend
  let cut : Outbox := { cut := [2] }
  let start : Desk .integer Outbox :=
    { session := { worker := 9, table := 0, layout := halves }, network := { inner := cut } }
  have hask : start.session.startPull start.network [3, 7] =
      .error (.transport (.unreachable 2)) (_, _) := rfl
  have hreach := Reachable.step (Reachable.start cut) (Step.askFails rfl hask)
  obtain ⟨hnext, hcount⟩ := honest_never_misjudged hnet hreach
  exact ⟨_, hreach, rfl, rfl, rfl, hnext, hcount rfl⟩

end Desk

end ParamServer
