import ParamServer.Proofs.Session.Answered
import ParamServer.Proofs.World.Orderly
import ParamServer.Proofs.World.Sender

/-!
# A worker reads what it has written

One worker at a table of any kind, among others of which nothing is known. While the worker waits
for a read it sends nothing else. So the read is its latest message to every shard that it asks, and
none of them answers before it has handled all the others (`Call.Followed`). Whatever else comes
into the inbox, it is from such answers that the read is put together.
-/

namespace ParamServer

variable {τ : ScalarType}

namespace World

/-- Somebody's message comes into the queue of a shard. -/
def slip (W : World τ) (p : ThreadId) (m : Message) : World τ :=
  { W with
    shards := Function.update W.shards p
      { W.shards p with queue := (W.shards p).queue ++ [m] } }

/-- What can happen where one worker keeps to the rules of a session and the others to none. All
they cannot do is to speak in the worker's name or in that of a shard, and to close the rosters
anew. -/
inductive Mingles (site : Site τ) (w : ThreadId) (W : World τ) : World τ → Prop
  | act {worker : Client τ} {ms : List Message} {gots : List (Got τ)}
      (h : Acts w (W.workers w) worker ms gots) : Mingles site w W (W.acted w worker ms gots)
  | giveUp {call : Call τ} {front rest unread : List Message} {silence : Silence} {why : Error}
      {session : Session τ} (hcall : (W.workers w).call = some call)
      (hinbox : (W.workers w).inbox.Perm (front ++ rest))
      (h : Session.giveUp silence ((W.workers w).session.collect call.pull front) =
        .error why (session, unread)) :
      Mingles site w W (W.seat w ⟨session, unread ++ rest, none⟩)
  | slip {q : Piece} {m : Message} (hq : q ∈ site.layout.pieces) (hsender : m.sender ≠ w)
      (hop : m.op ≠ .resetWorkers) : Mingles site w W (W.slip q.shard m)
  | stray {a : Message} (hsender : ∀ q ∈ site.layout.pieces, a.sender ≠ q.shard) :
      Mingles site w W
        (W.seat w { W.workers w with inbox := (W.workers w).inbox ++ [a] })
  | serve {q : Piece} {m : Message} {rest : List Message} {s : Step τ}
      (hq : q ∈ site.layout.pieces) (hqueue : (W.shards q.shard).queue = m :: rest)
      (h : (W.shards q.shard).tablet.step m = .ok s) :
      Mingles site w W (W.served q.shard rest s)

inductive Mingled (site : Site τ) (w : ThreadId) : World τ → Prop
  | start : Mingled site w site.start
  | next {W W' : World τ} (h : Mingled site w W) (hnext : Mingles site w W W') :
      Mingled site w W'

end World

/-! ### The worker and its shards -/

/-- A read of the worker under way, at `clock`, of which `inbox` is still unread. What a shard that
it asks has said, or will say, tells of the worker's own writes. -/
structure Call.Followed (site : Site τ) (w : ThreadId) (shards : ThreadId → Host τ) (clock : Clock)
    (inbox : List Message) (call : Call τ) : Prop where
  cut : site.layout.Cut 0 call.keys (call.pull.parts.map (·.run))
  backed : call.pull.Backed call.answers
  last : ∀ q ∈ site.layout.pieces, q.shard ∈ call.pull.parts.map (·.run.shard) →
    (shards q.shard).Last w call.pull.request clock
  heard : ∀ q ∈ site.layout.pieces, q.shard ∈ call.pull.parts.map (·.run.shard) →
    ∀ a ∈ inbox ++ call.answers, a.sender = q.shard → a.request = call.pull.request →
      (shards q.shard).Tells q w a

/-- The shards have, handled or in their queues, what the worker has sent, and nothing of it is
ahead of the worker. -/
structure Client.Followed (site : Site τ) (w : ThreadId) (shards : ThreadId → Host τ)
    (posted : List Message) (worker : Client τ) : Prop where
  worker_eq : worker.session.worker = w
  layout_eq : worker.session.layout = site.layout
  minds : ∀ q ∈ site.layout.pieces, (shards q.shard).Minds site q w
  posted_eq : ∀ q ∈ site.layout.pieces, (posted.filter fun m => decide (m.receiver = q.shard)) =
    ((shards q.shard).own w).filter fun m => decide (m.op = .add)
  fit : ∀ m ∈ posted, m.op = .add ∧ ∃ q ∈ site.layout.pieces, site.Fit q m
  past : ∀ q ∈ site.layout.pieces, ∀ m ∈ (shards q.shard).own w,
    m.clock ≤ worker.session.clock ∧ (m.op = .get → m.request ≤ worker.session.lastRequest)
  told : ∀ q ∈ site.layout.pieces, ∀ a ∈ worker.inbox, a.sender = q.shard →
    a.request ≤ worker.session.lastRequest
  called : ∀ call, worker.call = some call →
    call.Followed site w shards worker.session.clock worker.inbox

namespace Client.Followed

variable {site : Site τ} {w : ThreadId} {shards shards' : ThreadId → Host τ}
  {posted : List Message} {worker : Client τ}

/-- Shards that handle messages, and get some that are not the worker's, and what the worker gets
from anyone meanwhile. -/
theorem mono (h : worker.Followed site w shards posted)
    (hshards : ∀ q ∈ site.layout.pieces, (shards' q.shard).Minds site q w ∧
      (shards' q.shard).own w = (shards q.shard).own w ∧
      ∃ more, (shards' q.shard).log = (shards q.shard).log ++ more)
    {more : List Message}
    (hmore : ∀ q ∈ site.layout.pieces, ∀ a ∈ more, a.sender = q.shard →
      a.request ≤ worker.session.lastRequest ∧ ∀ request,
        (shards q.shard).Last w request worker.session.clock → a.request = request →
          (shards' q.shard).Tells q w a) :
    Client.Followed site w shards' posted { worker with inbox := worker.inbox ++ more } where
  worker_eq := h.worker_eq
  layout_eq := h.layout_eq
  minds q hq := (hshards q hq).1
  posted_eq q hq := by
    rw [(hshards q hq).2.1]
    exact h.posted_eq q hq
  fit := h.fit
  past q hq := by
    rw [(hshards q hq).2.1]
    exact h.past q hq
  told q hq a ha hsender := by
    rcases List.mem_append.mp ha with hold | hnew
    · exact h.told q hq a hold hsender
    · exact (hmore q hq a hnew hsender).1
  called call hcall := by
    have hcalled := h.called call hcall
    refine ⟨hcalled.cut, hcalled.backed, ?_, ?_⟩
    · intro q hq hasked
      rw [Host.Last, (hshards q hq).2.1]
      exact hcalled.last q hq hasked
    · intro q hq hasked a ha hsender hsame
      obtain ⟨-, hown, hlog⟩ := hshards q hq
      -- What had been said before still holds; what is new was said by a shard just now.
      have hold := fun ha => (hcalled.heard q hq hasked a ha hsender hsame).mono hlog hown
      rcases List.mem_append.mp ha with ha | ha
      · rcases List.mem_append.mp ha with ha | ha
        · exact hold (List.mem_append_left _ ha)
        · exact (hmore q hq a ha hsender).2 _ (hcalled.last q hq hasked) hsame
      · exact hold (List.mem_append_right _ ha)

/-- **A call.** What the worker sends goes behind all that it has sent before. -/
theorem send (h : worker.Followed site w shards posted) {session : Session τ}
    {asked : Option (Call τ)} {ms : List Message} (hworker : session.worker = w)
    (hlayout : session.layout = site.layout) (hsends : site.Sends w session.clock ms)
    (hclock : worker.session.clock ≤ session.clock)
    (hrequest : worker.session.lastRequest ≤ session.lastRequest)
    (hgets : ∀ m ∈ ms, m.op = .get → m.request ≤ session.lastRequest)
    (hasked : ∀ call, asked = some call → call.Followed site w
      (fun p => { shards p with
        queue := (shards p).queue ++ ms.filter fun m => decide (m.receiver = p) })
      session.clock worker.inbox) :
    Client.Followed site w
      (fun p => { shards p with
        queue := (shards p).queue ++ ms.filter fun m => decide (m.receiver = p) })
      (posted ++ ms.filter fun m => decide (m.op = .add)) ⟨session, worker.inbox, asked⟩ where
  worker_eq := hworker
  layout_eq := hlayout
  minds q hq := by
    refine Host.minds_of_push (h.minds q hq) (fun m hm => ?_) fun m hm _ => ?_
    all_goals obtain ⟨-, -, r, hr, hfit⟩ := hsends m (List.mem_filter.mp hm).1
    · exact hfit.plain
    · have hshard := hfit.receiver_eq.symm.trans (of_decide_eq_true (List.mem_filter.mp hm).2)
      rwa [← Layout.eq_of_shard_eq hr hq hshard]
  posted_eq q hq := by
    rw [List.filter_append, h.posted_eq q hq, Host.own_push, List.filter_append,
      filter_of_forall_eq fun m hm => (hsends m (List.mem_filter.mp hm).1).1]
    congr 1
    exact List.filter_comm ..
  fit m hm := by
    rcases List.mem_append.mp hm with hold | hnew
    · exact h.fit m hold
    · obtain ⟨hm, hop⟩ := List.mem_filter.mp hnew
      exact ⟨of_decide_eq_true hop, (hsends m hm).2.2⟩
  past q hq m hm := by
    rw [Host.own_push] at hm
    rcases List.mem_append.mp hm with hold | hnew
    · obtain ⟨hearlier, hnumber⟩ := h.past q hq m hold
      exact ⟨UInt64.le_trans hearlier hclock, fun hop => UInt64.le_trans (hnumber hop) hrequest⟩
    · have hm := (List.mem_filter.mp (List.mem_filter.mp hnew).1).1
      exact ⟨UInt64.le_of_eq (hsends m hm).2.1, hgets m hm⟩
  told q hq a ha hsender := UInt64.le_trans (h.told q hq a ha hsender) hrequest
  called := hasked

/-- **Reading.** The worker takes messages out of its inbox and stays where it is. -/
theorem read (h : worker.Followed site w shards posted) {session : Session τ}
    (hsession : session = { worker.session with abandoned := session.abandoned })
    {inbox : List Message} (hinbox : ∀ a ∈ inbox, a ∈ worker.inbox) {call : Option (Call τ)}
    (hcall : ∀ c, call = some c → c.Followed site w shards worker.session.clock inbox) :
    Client.Followed site w shards posted ⟨session, inbox, call⟩ := by
  rw [hsession]
  exact {
    worker_eq := h.worker_eq
    layout_eq := h.layout_eq
    minds := h.minds
    posted_eq := h.posted_eq
    fit := h.fit
    past := h.past
    told := fun q hq a ha => h.told q hq a (hinbox a ha)
    called := hcall }

/-- A read that ends, well or badly. -/
theorem leave (h : worker.Followed site w shards posted) {session : Session τ}
    (hsession : session = { worker.session with abandoned := session.abandoned })
    {used unread rest : List Message} (hinbox : worker.inbox.Perm (used ++ unread ++ rest)) :
    Client.Followed site w shards posted ⟨session, unread ++ rest, none⟩ := by
  refine h.read hsession (fun a ha => hinbox.mem_iff.mpr ?_) (by rintro _ ⟨⟩)
  rw [List.append_assoc]
  exact List.mem_append_right _ ha

end Client.Followed

namespace World

variable {site : Site τ} {w : ThreadId} {W W' : World τ}

/-! ### What the worker does -/

section Calls

variable (hw : w ∈ site.workers) {s session : Session τ} (hworker : s.worker = w)
  (hlayout : s.layout = site.layout) {keys : List Key} {out : Outbox}

include hw hworker hlayout

/-- However the call ends, what it has sent are updates of the worker's. -/
theorem sends_of_push {values : List τ.Value} (hpush : (s.push line keys values).Leaves out) :
    site.Sends w s.clock out.sent ∧ ∀ m ∈ out.sent, m.op ≠ .get := by
  rcases hpush with ⟨_, hpush⟩ | ⟨why, hpush⟩
  · obtain ⟨hlength, runs, hruns, -, rfl⟩ := Session.push_eq_ok hpush
    rw [(sendAll_line _).1]
    exact ⟨sends_updates hw hworker hlayout hruns hlength, Session.op_of_updates⟩
  · rcases Session.push_eq_error hpush with ⟨rfl, -⟩ | ⟨runs, -, -, hsome, -⟩
    · exact ⟨by rintro m ⟨⟩, by rintro m ⟨⟩⟩
    · rw [(sendAll_line _).2.2] at hsome
      cases hsome

theorem sends_of_tick (htick : (s.tick line).Leaves (session, out)) :
    s.clock ≤ session.clock ∧ session = { s with clock := session.clock } ∧
      site.Sends w session.clock out.sent ∧ ∀ m ∈ out.sent, m.op ≠ .get := by
  rcases htick with ⟨_, htick⟩ | ⟨why, htick⟩
  · obtain ⟨hroom, rfl, -, rfl⟩ := Session.tick_eq_ok htick
    rw [(sendAll_line _).1]
    exact ⟨Session.clock_le_moved hroom, rfl,
      sends_ticks (s := s.moved) hw hworker hlayout, Session.op_of_ticks⟩
  · obtain ⟨-, hsome, -⟩ := Session.tick_eq_error htick
    rw [(sendAll_line _).2.2] at hsome
    cases hsome

end Calls

section Turns

variable {shards : ThreadId → Host τ} {posted : List Message}
  {worker : Client τ} (h : worker.Followed site w shards posted)

include h

/-- A read that has just been begun is the latest that the worker has asked of its shards, and
nothing has been said to it. -/
theorem followed_of_asking {keys : List Key} {runs : List Run}
    (hcut : site.layout.Cut 0 keys runs)
    (hroom : worker.session.lastRequest.toNat + 1 ≠ UInt64.size) :
    Call.Followed site w
      (fun p => { shards p with
        queue := (shards p).queue ++
          (worker.session.numbered.requests runs).filter fun m => decide (m.receiver = p) })
      worker.session.clock worker.inbox
      { clock := worker.session.clock
        keys
        pull := Session.asking worker.session.numbered.lastRequest runs } where
  cut := by
    rw [Session.runs_asking]
    exact hcut
  backed := Session.backed_asking _ runs []
  last q hq hasked := by
    obtain ⟨part, hpart, hshard⟩ := List.mem_map.mp hasked
    obtain ⟨run, hrun, rfl⟩ := List.mem_map.mp hpart
    have hreceivers : (worker.session.numbered.requests runs).map (·.receiver) =
        runs.map (·.shard) := by
      rw [Session.requests, List.map_map]
      rfl
    let g : Message :=
      { worker.session.numbered.message .get run.shard [.keys run.keys] with
        request := worker.session.numbered.lastRequest }
    have hmem : g ∈ worker.session.numbered.requests runs := List.mem_map_of_mem hrun
    have hone : ((worker.session.numbered.requests runs).filter
        fun m => decide (m.receiver = q.shard)) = [g] :=
      hshard ▸ filter_of_nodup (f := Message.receiver) (hreceivers ▸ hcut.distinct) hmem
    refine ⟨(shards q.shard).own w, g, ?_, rfl, ?_⟩
    · rw [Host.own_push, hone]
      congr 1
      exact List.filter_cons_of_pos (decide_eq_true h.worker_eq)
    · intro k hk hop hsame
      have hearlier := UInt64.lt_of_le_of_lt ((h.past q hq k hk).2 hop) (Session.lt_numbered hroom)
      exact UInt64.lt_irrefl _ (hsame ▸ hearlier)
  heard q hq _ a ha hsender hsame := by
    rw [List.append_nil] at ha
    have hearlier := UInt64.lt_of_le_of_lt (h.told q hq a ha hsender) (Session.lt_numbered hroom)
    exact absurd (hsame ▸ hearlier) (UInt64.lt_irrefl _)

theorem followed_of_wait {call : Call τ} (hcall : worker.call = some call)
    {front rest : List Message} (hinbox : worker.inbox.Perm (front ++ rest)) {pull : Pull τ}
    {session : Session τ}
    (hcollect : worker.session.collect call.pull front = .pending pull session) :
    Client.Followed site w shards posted
      ⟨session, rest, some { call with pull, answers := call.answers ++ front }⟩ := by
  have hcalled := h.called call hcall
  have hheeds := Session.heeds_of_pending hcollect
  have hdistinct := hcalled.cut.distinct
  rw [List.map_map] at hdistinct
  obtain ⟨hbacked, hkept⟩ := Session.backed_of_heeds hdistinct hcalled.backed hheeds
  refine h.read hkept.session (fun a ha => hinbox.mem_iff.mpr (List.mem_append_right _ ha)) ?_
  intro later hlater
  obtain rfl := Option.some.inj hlater
  refine ⟨?_, hbacked, ?_, ?_⟩
  · rw [hkept.runs]
    exact hcalled.cut
  · simp only [hkept.request, ← hkept.shards]
    exact hcalled.last
  · simp only [hkept.request, ← hkept.shards]
    intro q hq hasked a ha
    refine hcalled.heard q hq hasked a ?_
    simp only [List.mem_append, hinbox.mem_iff] at ha ⊢
    tauto

end Turns

/-- **The worker's turn.** -/
theorem followed_of_acts (hw : w ∈ site.workers)
    (h : (W.workers w).Followed site w W.shards W.posted) {worker : Client τ} {ms : List Message}
    {gots : List (Got τ)} (hact : Acts w (W.workers w) worker ms gots) :
    worker.Followed site w (W.post ms).shards (W.post ms).posted := by
  have hidles : ∀ {shards : ThreadId → Host τ} {clock : Clock} {inbox : List Message},
      (W.workers w).call = none → ∀ call, (W.workers w).call = some call →
        call.Followed site w shards clock inbox := by
    intro shards clock inbox hidle call hcall
    rw [hidle] at hcall
    cases hcall
  cases hact with
  | push hidle hpush =>
    obtain ⟨hsends, hgets⟩ := sends_of_push hw h.worker_eq h.layout_eq hpush
    exact h.send h.worker_eq h.layout_eq hsends (UInt64.le_refl _) (UInt64.le_refl _)
      (fun m hm hop => absurd hop (hgets m hm)) (hidles hidle)
  | @tick session out hidle htick =>
    obtain ⟨hclock, hsession, hsends, hgets⟩ := sends_of_tick hw h.worker_eq h.layout_eq htick
    have hnumber : session.lastRequest = (W.workers w).session.lastRequest := by rw [hsession]
    refine h.send (by rw [hsession]; exact h.worker_eq) (by rw [hsession]; exact h.layout_eq)
      hsends hclock (UInt64.le_of_eq hnumber.symm) (fun m hm hop => absurd hop (hgets m hm))
      (hidles hidle)
  | @ask keys pull session out hidle hask =>
    rcases startPull_line_cases hask with
      ⟨rfl, rfl, rfl, rfl⟩ | ⟨runs, hruns, hroom, rfl, rfl, hsent⟩
    · refine h.send h.worker_eq h.layout_eq (by rintro m ⟨⟩) (UInt64.le_refl _) (UInt64.le_refl _)
        (by rintro m ⟨⟩) ?_
      intro call hcall
      obtain rfl := Option.some.inj hcall
      exact ⟨Layout.cut_nil .., by rintro part ⟨⟩, by rintro q - ⟨⟩, by rintro q - ⟨⟩⟩
    · rw [hsent]
      refine h.send h.worker_eq h.layout_eq
        (sends_requests (s := (W.workers w).session.numbered) hw h.worker_eq h.layout_eq hruns)
        (UInt64.le_refl _) (UInt64.le_of_lt (Session.lt_numbered hroom))
        (fun m hm _ => UInt64.le_of_eq (Session.request_of_requests m hm)) ?_
      intro call hcall
      obtain rfl := Option.some.inj hcall
      exact followed_of_asking h (h.layout_eq ▸ (Layout.cut_of_runs hruns).1) hroom
  | askFails hidle hask =>
    rcases Session.startPull_eq_error hask with ⟨rfl, rfl, -⟩ | ⟨runs, -, -, hsome, -⟩
    · exact (post_nil W).symm ▸ h
    · rw [(sendAll_line _).2.2] at hsome
      cases hsome
  | wait hcall hinbox hcollect =>
    rw [post_nil]
    exact followed_of_wait h hcall hinbox hcollect
  | finish hcall hinbox hcollect =>
    obtain ⟨used, pull, hused, hheeds, -⟩ := Session.heeds_of_done hcollect
    rw [post_nil]
    exact h.leave (Session.session_of_heeds hheeds) hinbox
  | finishFails hcall hinbox hcollect =>
    rw [post_nil]
    exact h.leave (Session.session_of_failed hcollect).1 hinbox

/-- **A shard's turn.** It answers nothing to the worker but what the worker has asked. -/
theorem followed_of_serve (h : (W.workers w).Followed site w W.shards W.posted) {q : Piece}
    (hq : q ∈ site.layout.pieces) {m : Message} {rest : List Message} {s : Step τ}
    (hqueue : (W.shards q.shard).queue = m :: rest)
    (hstep : (W.shards q.shard).tablet.step m = .ok s) :
    ((W.served q.shard rest s).workers w).Followed site w (W.served q.shard rest s).shards
      W.posted := by
  have hminds := h.minds q hq
  have hown := Host.own_serve (w := w) hqueue (Tablet.message_of_step hstep)
  refine h.mono (forall_served hq (P := fun r host => host.Minds site r w ∧
    host.own w = (W.shards r.shard).own w ∧ ∃ more, host.log = (W.shards r.shard).log ++ more)
    ⟨Host.minds_of_serve hminds hqueue hstep, hown, [s], rfl⟩
    fun r hr => ⟨h.minds r hr, rfl, [], (List.append_nil _).symm⟩) ?_
  intro r hr a ha hsender
  obtain ⟨ha, hreceiver⟩ := List.mem_filter.mp ha
  have hmine := of_decide_eq_true hreceiver
  obtain ⟨g, -, hg, hop, -, -, rfl⟩ := Host.exists_read hminds hqueue hstep ha hmine
  have hshard : g.receiver = q.shard := (hminds.fit g hg).receiver_eq
  obtain rfl := Layout.eq_of_shard_eq hr hq (hsender.symm.trans hshard)
  refine ⟨(h.past r hr g hg).2 hop, fun request hlast hsame => ?_⟩
  rw [shards_served_self]
  exact hminds.tells hqueue hstep hlast (fun k hk => (h.past r hr k hk).1) ha hmine hsame

theorem shards_slip (W : World τ) (p r : ThreadId) (m : Message) :
    ∃ ms, (∀ k ∈ ms, k = m) ∧
      (W.slip p m).shards r = { W.shards r with queue := (W.shards r).queue ++ ms } := by
  by_cases hshard : r = p
  · subst hshard
    exact ⟨[m], fun k hk => List.mem_singleton.mp hk, Function.update_self ..⟩
  · refine ⟨[], (by rintro k ⟨⟩), ?_⟩
    rw [List.append_nil]
    exact Function.update_of_ne hshard ..

theorem followed_of_slip (h : (W.workers w).Followed site w W.shards W.posted) {q : Piece}
    {m : Message} (hsender : m.sender ≠ w) (hop : m.op ≠ .resetWorkers) :
    (W.workers w).Followed site w (W.slip q.shard m).shards W.posted := by
  have hquiet : Client.Followed site w (W.slip q.shard m).shards W.posted
      { W.workers w with inbox := (W.workers w).inbox ++ [] } := by
    refine h.mono (fun r hr => ?_) (by rintro r hr a ⟨⟩)
    obtain ⟨ms, hms, hhost⟩ := shards_slip W q.shard r.shard m
    have hforeign : ∀ k ∈ ms, k.sender ≠ w := fun k hk => hms k hk ▸ hsender
    rw [hhost]
    refine ⟨Host.minds_of_push (h.minds r hr) (fun k hk => hms k hk ▸ hop)
      (fun k hk hmine => absurd hmine (hforeign k hk)), ?_, [], (List.append_nil _).symm⟩
    rw [Host.own_push, filter_of_forall_ne hforeign, List.append_nil]
  rwa [List.append_nil] at hquiet

/-- **Nothing that happens gets between the worker and its shards.** -/
theorem followed_of_mingles (hw : w ∈ site.workers)
    (h : (W.workers w).Followed site w W.shards W.posted) (hnext : Mingles site w W W') :
    (W'.workers w).Followed site w W'.shards W'.posted := by
  cases hnext with
  | act hact =>
    change ((World.seat _ w _).workers w).Followed site w _ _
    rw [workers_seat_self]
    exact followed_of_acts hw h hact
  | giveUp hcall hinbox hfail =>
    rw [workers_seat_self]
    obtain ⟨hsession, used, rfl⟩ := Session.session_of_giveUp hfail
    exact h.leave hsession hinbox
  | slip _ hsender hop => exact followed_of_slip h hsender hop
  | @stray a hsender =>
    rw [workers_seat_self]
    refine h.mono (fun r hr => ⟨h.minds r hr, rfl, [], (List.append_nil _).symm⟩) ?_
    intro r hr k hk hsame
    exact absurd (List.mem_singleton.mp hk ▸ hsame) (hsender r hr)
  | serve hq hqueue hstep => exact followed_of_serve h hq hqueue hstep

theorem followed_of_mingled (hwelcoming : site.Welcoming) (hw : w ∈ site.workers)
    (h : Mingled site w W) : (W.workers w).Followed site w W.shards W.posted := by
  induction h with
  | start =>
    exact ⟨rfl, rfl, fun q hq => Host.minds_of_welcoming hwelcoming hw hq, fun q hq => rfl,
      by rintro m ⟨⟩, by rintro q hq m ⟨⟩, by rintro q hq a ⟨⟩, by rintro call ⟨⟩⟩
  | next _ hnext ih => exact followed_of_mingles hw ih hnext

/-! ### What a read has -/

/-- The value is the sum of updates that the shard has taken in, in some order. Of the worker's own,
these are all that touch the key, each once. -/
def ReflectsOwn (W : World τ) (w p : ThreadId) (key : Key) (v : τ.Value) : Prop :=
  ∃ landed : List Message, landed.Subperm (Step.taken .add (W.shards p).log) ∧
    (deltasAt key (landed.flatMap (·.updates τ))).foldlM τ.add τ.zero = .ok v ∧
    (landed.filter fun m => decide (m.sender = w ∧ key ∈ m.keyList)).Perm
      (W.posted.filter fun m => decide (key ∈ m.keyList))

theorem reflectsOwn_of_tells (h : (W.workers w).Followed site w W.shards W.posted) {q : Piece}
    (hq : q ∈ site.layout.pieces) {a : Message} (htells : (W.shards q.shard).Tells q w a)
    {run : List Key} (hrun : a.keys = .ok run) :
    ∃ value : Key → τ.Value, a.values τ = .ok (run.map value) ∧
      ∀ key ∈ run, W.ReflectsOwn w q.shard key (value key) := by
  obtain ⟨g, store, landed, hreads, rfl, hlanded, hsums, hown⟩ := htells
  obtain rfl : g.keyList = run := Except.ok.inj hrun
  refine ⟨store.value, Message.values_eq_ok rfl, fun key hkey => ?_⟩
  have hinside := hreads.inside key hkey
  refine ⟨landed, hlanded, hsums key hinside, ?_⟩
  let touches : Message → Bool := fun m => decide (key ∈ m.keyList)
  calc landed.filter (fun m => decide (m.sender = w ∧ key ∈ m.keyList))
      = (landed.filter fun m => decide (m.sender = w)).filter touches := by
        rw [List.filter_filter]
        exact List.filter_congr fun m _ => by simp [touches, Bool.and_comm]
    _ |>.Perm ((W.posted.filter fun m => decide (m.receiver = q.shard)).filter touches) := by
        rw [h.posted_eq q hq]
        exact hown.filter touches
    _ = W.posted.filter touches := by
        rw [List.filter_filter]
        apply List.filter_congr
        intro m hm
        rw [Bool.and_eq_left_iff_imp]
        intro htouches
        obtain ⟨hop, r, hr, hfit⟩ := h.fit m hm
        exact decide_eq_true
          (hfit.receiver_of_mem hr hop hq hinside (of_decide_eq_true htouches))

/-- **A worker reads what it has written.** Whatever the others do, when a read of the worker is
complete it has for each key what its owner has made of all updates of the key that the worker has
ever sent, each counted once. -/
theorem own_writes_read (hwelcoming : site.Welcoming) (hw : w ∈ site.workers)
    (h : Mingled site w W) {worker : Client τ} {ms : List Message} {gots : List (Got τ)}
    (hact : Acts w (W.workers w) worker ms gots) {got : Got τ} (hgot : got ∈ gots) :
    got.values.length = got.keys.length ∧ ∀ i (hi : i < got.keys.length), ∃ p v,
      site.layout.owner got.keys[i] = .ok p ∧ got.values[i]? = some v ∧
      W.ReflectsOwn w p got.keys[i] v := by
  have hfollowed := followed_of_mingled hwelcoming hw h
  cases hact with
  | @finish call used unread rest values session hcall hinbox hcollect =>
    obtain rfl := List.mem_singleton.mp hgot
    have hcalled := hfollowed.called call hcall
    obtain ⟨front, pull, hfront, hheeds, hmissing, rfl⟩ := Session.heeds_of_done hcollect
    obtain rfl := List.append_cancel_right hfront
    have hdistinct := hcalled.cut.distinct
    rw [List.map_map] at hdistinct
    obtain ⟨hbacked, hkept⟩ := Session.backed_of_heeds hdistinct hcalled.backed hheeds
    have hsourced := Pull.sourced_of_backed (hkept.runs.symm ▸ hcalled.cut) hmissing hbacked
    refine ⟨hsourced.length_eq, fun i hi => ?_⟩
    obtain ⟨a, ha, hrequest, howner, run, hrun, hkey, hvalue⟩ := hsourced.exists_value hi
    obtain ⟨q, hq, hshard, -⟩ := Layout.owner_eq_ok_iff.mp howner
    have hasked : q.shard ∈ call.pull.parts.map (·.run.shard) := by
      have hshards := hcalled.cut.mem_shards_iff.mpr ⟨_, List.getElem_mem hi, howner⟩
      rwa [List.map_map, ← hshard] at hshards
    have hunread : a ∈ (W.workers w).inbox ++ call.answers := by
      simp only [List.mem_append, hinbox.mem_iff] at ha ⊢
      tauto
    have htells := hcalled.heard q hq hasked a hunread hshard.symm (hrequest.trans hkept.request)
    obtain ⟨value, hvalues, hreflects⟩ := reflectsOwn_of_tells hfollowed hq htells hrun
    exact ⟨a.sender, _, howner, hvalue value hvalues, hshard ▸ hreflects _ hkey⟩
  | _ => cases hgot

/-- Worker 8 at a table behind a barrier that takes in whoever turns up. -/
def solo : Site .integer where
  table := 0
  layout := ⟨[⟨⟨0, 5⟩, 1⟩, ⟨⟨5, 10⟩, 2⟩], Layout.wellFormed_halves⟩
  workers := [8]
  tablet p := ⟨.new 0 p (if p = 1 then ⟨0, 5⟩ else ⟨5, 10⟩) (.sparse .empty), .barrier⟩

theorem solo_welcoming : solo.Welcoming := by
  intro q hq
  simp only [solo, List.mem_cons, List.not_mem_nil, or_false] at hq
  rcases hq with rfl | rfl
  · exact ⟨.bsp .sparse, _, trivial, rfl, Or.inl rfl⟩
  · exact ⟨.bsp .sparse, _, trivial, rfl, Or.inl rfl⟩

/-- Worker 8 adds 5 to a key, moves on, and adds 7. Then worker 9 turns up, adds 1, and the minimum
falls to zero, so that what worker 8 adds next, a 2, is kept back, and so is its read. When worker 9
moves on, the read has all of it. -/
theorem own_writes_read_solo :
    ∃ (W : World .integer) (worker : Client .integer) (got : Got .integer), Mingled solo 8 W ∧
      Acts 8 (W.workers 8) worker [] [got] ∧ got.keys = [3] ∧ got.values = [(15 : Int64)] ∧
      W.posted.length = 3 ∧ got.values.length = got.keys.length ∧
      ∀ i (hi : i < got.keys.length), ∃ p v, solo.layout.owner got.keys[i] = .ok p ∧
        got.values[i]? = some v ∧ W.ReflectsOwn 8 p got.keys[i] v := by
  let eight := (solo.start.workers 8).session
  let five : Message := ⟨.add, 8, 1, 0, 0, 0, [.keys [3], .integers [5]]⟩
  let once : Message := ⟨.clock, 8, 1, 0, 1, 0, []⟩
  let seven : Message := ⟨.add, 8, 1, 0, 1, 0, [.keys [3], .integers [7]]⟩
  let one : Message := ⟨.add, 9, 1, 0, 0, 0, [.keys [3], .integers [1]]⟩
  let two : Message := ⟨.add, 8, 1, 0, 1, 0, [.keys [3], .integers [2]]⟩
  let read : Message := ⟨.get, 8, 1, 0, 1, 1, [.keys [3]]⟩
  let nine : Message := ⟨.clock, 9, 1, 0, 1, 0, []⟩
  let answer : Message := ⟨.response, 1, 8, 0, 1, 1, [.keys [3], .integers [15]]⟩
  let call : Call .integer := ⟨1, [3], Session.asking 1 [⟨1, 0, [3]⟩], []⟩
  have hfive : eight.push line [3] [(5 : Int64)] = .ok () _ := rfl
  have honce : eight.tick line = .ok () (_, _) := rfl
  have hseven : eight.moved.push line [3] [(7 : Int64)] = .ok () _ := rfl
  have htwo : eight.moved.push line [3] [(2 : Int64)] = .ok () _ := rfl
  have hread : eight.moved.startPull line [3] = .ok call.pull (_, _) := rfl
  have hcollect : eight.moved.numbered.collect call.pull [answer] =
    .done [(15 : Int64)] _ [] := rfl
  -- All but the last move, after which worker 8 has its answer.
  let waiting : Client .integer := ⟨eight.moved.numbered, [answer], some call⟩
  suffices hend : ∃ W, Mingled solo 8 W ∧ W.workers 8 = waiting ∧ W.posted.length = 3 by
    obtain ⟨W, h, hworker, hposted⟩ := hend
    have hact := @Acts.finish _ 8 waiting call [answer] [] [] _ _ rfl (List.Perm.refl _) hcollect
    rw [← hworker] at hact
    exact ⟨W, _, _, h, hact, rfl, rfl, hposted,
      own_writes_read solo_welcoming (by decide) h hact (List.mem_singleton.mpr rfl)⟩
  let first : Piece := ⟨⟨0, 5⟩, 1⟩
  have hq : first ∈ solo.layout.pieces := by decide
  have h0 : Mingled solo 8 solo.start := .start
  have h1 := h0.next (.act (.push rfl (Or.inl ⟨_, hfive⟩)))
  have h2 := h1.next (.act (.tick rfl (Or.inl ⟨_, honce⟩)))
  have h3 := h2.next (.act (.push rfl (Or.inl ⟨_, hseven⟩)))
  have h4 := h3.next (@Mingles.serve _ _ _ _ first five [once, seven] _ hq rfl rfl)
  have h5 := h4.next (@Mingles.serve _ _ _ _ first once [seven] _ hq rfl rfl)
  have h6 := h5.next (@Mingles.serve _ _ _ _ first seven [] _ hq rfl rfl)
  have h7 := h6.next (.slip (m := one) hq (by decide) (by decide))
  have h8 := h7.next (.act (.push rfl (Or.inl ⟨_, htwo⟩)))
  have h9 := h8.next (.act (.ask rfl hread))
  have h10 := h9.next (.slip (m := nine) hq (by decide) (by decide))
  have h11 := h10.next (@Mingles.serve _ _ _ _ first one [two, read, nine] _ hq rfl rfl)
  have h12 := h11.next (@Mingles.serve _ _ _ _ first two [read, nine] _ hq rfl rfl)
  have h13 := h12.next (@Mingles.serve _ _ _ _ first read [nine] _ hq rfl rfl)
  have h14 := h13.next (@Mingles.serve _ _ _ _ first nine [] _ hq rfl rfl)
  exact ⟨_, h14, rfl, rfl⟩

end World

end ParamServer
