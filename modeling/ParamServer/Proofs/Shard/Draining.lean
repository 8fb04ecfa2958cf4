import ParamServer.Proofs.Shard.Turn

/-!
# A shard that stops

A shard takes from two queues in any order, so it may be told to stop when there are messages that
it has not got to. It handles them all the same, before and after in one pass over its queue:
whatever is sent to it and asked of it, and whichever queue it looks at, the messages it has handled
are those that have arrived, up to what is in the queue still, and when it has ended nothing is left
out (`Watch.drains_in_order`).
-/

namespace ParamServer

/-! ### A shard and its surroundings -/

/-- A shard, the exchange, and what has happened to both. -/
structure Watch where
  shard : Shard
  exchange : Exchange
  /-- What was asked of the exchange, by the shard as well as by others. -/
  past : Exchange.History
  events : List Event := []

/-- What can happen next. -/
inductive Act where
  /-- Somebody else asks something of the exchange. -/
  | call (call : Exchange.Call)
  /-- The cluster puts a request. -/
  | ask (r : Request)
  /-- The shard looks at one of its queues. -/
  | turn (which : Turn)

/-- The channel of a shard is read and given up by nobody else. -/
def Act.Fair (channel : ChannelId) : Act → Prop
  | .call (.receive other) => other ≠ channel
  | .call (.hangUp other) => other ≠ channel
  | .call (.send m) => m.Sized
  | .ask r => r.Fresh
  | _ => True

namespace Watch

open Exchange History

def step (w : Watch) : Act → Watch
  | .call call =>
    { w with
      exchange := (w.exchange.perform call).2
      past := ⟨call, (w.exchange.perform call).1⟩ :: w.past }
  | .ask r => { w with shard := { w.shard with requests := w.shard.requests ++ [r] } }
  | .turn which =>
    { shard := (w.shard.turn w.exchange which).2.1
      exchange := (w.shard.turn w.exchange which).2.2
      past := (w.exchange.after w.past
        ((w.shard.turn w.exchange which).1.calls w.shard.channel)).1
      events := w.events ++ [(w.shard.turn w.exchange which).1] }

def run (w : Watch) (acts : List Act) : Watch := acts.foldl step w

/-- What the shard has taken is what was read from its channel, and it leaves the channel when it
ends. -/
structure Orderly (w : Watch) : Prop where
  lives : w.shard.Lives
  logged : Logged w.past w.exchange
  opened : ⟨.open (.shard w.shard.id), .opened w.shard.channel⟩ ∈ w.past
  waits : ∀ table q, w.shard.Waits table q → q.Sized
  arrived : ∀ m ∈ arrivals w.shard.channel w.past, m.Sized
  taken : reads w.shard.channel w.past = Shard.taken w.events
  left : left w.shard.channel w.past = !w.shard.phase.runs
  emptied : w.shard.phase = .stopped →
    arrivals w.shard.channel w.past = Shard.taken w.events

variable {w : Watch}

theorem lt_size_of_orderly (h : w.Orderly) : w.shard.channel < w.exchange.channels.size :=
  h.logged.opened _ _ h.opened

theorem arrivals_of_runs (h : w.Orderly) (hruns : w.shard.phase.runs = true) :
    arrivals w.shard.channel w.past =
      Shard.taken w.events ++ w.exchange.queue w.shard.channel := by
  rw [← h.taken]
  exact h.logged.queued _ (by rw [h.left, hruns, Bool.not_true])

theorem sized_of_receive (h : w.Orderly) {m : Message} {e' : Exchange}
    (hreceive : w.exchange.receive w.shard.channel = some (m, e')) : m.Sized := by
  obtain ⟨rest, hqueue, -⟩ := receive_eq_some hreceive
  refine h.arrived m ?_
  have hstays : History.left w.shard.channel w.past = false := by
    rw [← Bool.not_eq_true]
    intro hleft
    rw [h.logged.lost _ hleft] at hqueue
    cases hqueue
  rw [h.logged.queued _ hstays, hqueue]
  exact List.mem_append_right _ List.mem_cons_self

theorem answers_of_turn (h : w.Orderly) (which : Turn) :
    ∀ r ∈ (w.shard.turn w.exchange which).1.replies,
      r.Sized ∧ ∃ thread table, r.address = .inbox thread table := by
  intro r hr
  obtain ⟨q, hq, horigin⟩ := Shard.origin_of_turn h.lives hr
  have hsized : q.Sized := by
    rcases hq with ⟨table, hwaits⟩ | ⟨e', hreceive⟩
    · exact h.waits table q hwaits
    · exact sized_of_receive h hreceive
  obtain ⟨hr, haddress⟩ := Message.answers hsized horigin
  exact ⟨hr, _, _, haddress⟩

/-! ### One step -/

theorem orderly_of_call (h : w.Orderly) {call : Exchange.Call}
    (hfair : (Act.call call).Fair w.shard.channel) : (w.step (.call call)).Orderly := by
  have hsized : ∀ m, call = .send m → m.Sized := by
    rintro m rfl
    exact hfair
  have hreads : call ≠ .receive w.shard.channel := by
    rintro rfl
    exact hfair rfl
  have hleaves : call ≠ .hangUp w.shard.channel := by
    rintro rfl
    exact hfair rfl
  have hopens := perform_ne_opened w.exchange call (lt_size_of_orderly h)
  constructor
  · exact h.lives
  · exact logged_of_perform h.logged hsized
  · exact List.mem_cons_of_mem _ h.opened
  · exact h.waits
  · intro m hm
    rcases (arrivals_after w.exchange w.past [call] w.shard.channel).2 m hm with hold | hsent
    · exact h.arrived m hold
    · exact hsized m (List.mem_singleton.mp hsent).symm
  · exact (reads_cons_of_ne hreads _).trans h.taken
  · exact (left_cons_of_ne hleaves hopens).trans h.left
  · intro hstopped
    have hleft : History.left w.shard.channel w.past = true := by
      rw [h.left, show w.shard.phase = .stopped from hstopped]
      rfl
    exact (arrivals_of_left h.logged hleft hsized).trans (h.emptied hstopped)

theorem orderly_of_ask (h : w.Orderly) {r : Request} (hfresh : r.Fresh) :
    (w.step (.ask r)).Orderly :=
  ⟨h.lives.asked hfresh, h.logged, h.opened, h.waits, h.arrived, h.taken, h.left, h.emptied⟩

theorem orderly_of_turn (h : w.Orderly) (which : Turn) : (w.step (.turn which)).Orderly := by
  obtain ⟨hexchange, hreads, hleft⟩ := Shard.after_turn w.shard w.exchange which w.past
  obtain ⟨hid, hchannel⟩ := Shard.names_of_turn w.shard w.exchange which
  have hcalls : ∀ m, .send m ∈ (w.shard.turn w.exchange which).1.calls w.shard.channel →
      m.Sized := fun m hm => (answers_of_turn h which m (Event.mem_replies_of_calls hm)).1
  obtain ⟨-, harrivals⟩ := arrivals_after w.exchange w.past
    ((w.shard.turn w.exchange which).1.calls w.shard.channel) w.shard.channel
  constructor
  · exact h.lives.turn w.exchange which
  · have hlogged := logged_of_after h.logged hcalls
    rwa [hexchange] at hlogged
  · simp only [step, hid, hchannel]
    exact mem_after _ _ h.opened
  · intro table q hwaits
    rcases Shard.waits_of_turn h.lives hwaits with hold | ⟨e', hreceive, -⟩
    · exact h.waits table q hold
    · exact sized_of_receive h hreceive
  · intro m hm
    simp only [step, hchannel] at hm
    rcases harrivals m hm with hold | hsent
    · exact h.arrived m hold
    · exact hcalls m hsent
  · simp only [step, hchannel, Shard.taken_concat]
    rw [hreads, h.taken]
  · simp only [step, hchannel]
    rw [hleft, h.left, Shard.runs_of_turn, Bool.not_and, Bool.not_not]
  · intro hstopped
    simp only [step, hchannel, Shard.taken_concat]
    rcases Shard.stopped_of_turn hstopped with ⟨hstopped, hquiet⟩ | ⟨hdraining, hreceive, hended⟩
    · rw [hquiet.message, Option.toList_none, List.append_nil, Event.calls, hquiet.message,
        hquiet.replies, hquiet.ends]
      exact h.emptied hstopped
    · rw [hended]
      have hall := arrivals_of_runs h (by rw [hdraining]; rfl)
      rw [receive_eq_none hreceive] at hall
      exact hall

/-! ### A whole run -/

theorem run_append (w : Watch) (front behind : List Act) :
    w.run (front ++ behind) = (w.run front).run behind :=
  List.foldl_append

theorem channel_of_run (w : Watch) (acts : List Act) :
    (w.run acts).shard.channel = w.shard.channel := by
  induction acts generalizing w with
  | nil => rfl
  | cons act rest ih =>
    refine (ih (w.step act)).trans ?_
    cases act with
    | turn which => exact (Shard.names_of_turn w.shard w.exchange which).2
    | _ => rfl

theorem orderly_of_run (h : w.Orderly) {acts : List Act}
    (hfair : ∀ act ∈ acts, act.Fair w.shard.channel) : (w.run acts).Orderly := by
  induction acts generalizing w with
  | nil => exact h
  | cons act rest ih =>
    obtain ⟨hact, hrest⟩ := List.forall_mem_cons.mp hfair
    rw [← channel_of_run w [act]] at hrest
    refine ih ?_ hrest
    cases act with
    | call call => exact orderly_of_call h hact
    | ask r => exact orderly_of_ask h hact
    | turn which => exact orderly_of_turn h which

/-- What has arrived stays arrived. -/
theorem arrivals_of_run (w : Watch) (acts : List Act) (channel : ChannelId) :
    arrivals channel w.past <+: arrivals channel (w.run acts).past := by
  induction acts generalizing w with
  | nil => exact List.prefix_rfl
  | cons act rest ih =>
    refine List.IsPrefix.trans ?_ (ih (w.step act))
    cases act with
    | call call => exact (arrivals_after w.exchange w.past [call] channel).1
    | ask r => exact List.prefix_rfl
    | turn which => exact (arrivals_after ..).1

/-! ### What a turn does to the queues -/

/-- Nothing that a shard answers comes to its own channel. -/
theorem delivers_answer (h : w.Orderly) {r : Message} {thread : ThreadId} {table : TableId}
    (haddress : r.address = .inbox thread table) :
    w.exchange.delivers w.shard.channel r = false := by
  have hne : w.exchange.holder r.address ≠ some w.shard.channel := by
    intro hholder
    rw [h.logged.holder] at hholder
    have hsame := h.logged.unique _ _ _ (mem_of_holder hholder) h.opened
    rw [haddress] at hsame
    cases hsame
  simp [delivers, hne]

/-- **What is answered** gets to whom it is for, in order, whatever becomes of the other answers. -/
theorem queue_of_turn (h : w.Orderly) (which : Turn) {other : ChannelId}
    (hother : other ≠ w.shard.channel) :
    (w.step (.turn which)).exchange.queue other = w.exchange.queue other ++
      (w.shard.turn w.exchange which).1.replies.filter (w.exchange.delivers other) := by
  have hsized := fun r hr => (answers_of_turn h which r hr).1
  simp only [step]
  rcases Shard.turn_queue_cases w.shard w.exchange which with
    hquiet | ⟨m, e', hreceive, -, hcase⟩ | ⟨-, -, hcase⟩
  · rw [hquiet.exchange, hquiet.replies, List.filter_nil, List.append_nil]
  · have htakes := Shard.takes_handle w.shard e' m
    obtain ⟨rest, hqueue, rfl⟩ := receive_eq_some hreceive
    have hin := lt_size_of_queue_eq_cons hqueue
    rw [hcase] at hsized ⊢
    cases hends : (w.shard.handle _ m).1.ends with
    | false =>
      rw [(htakes.goes_on hends).2, queue_trySends hsized, queue_setQueue hin, if_neg hother,
        delivers_setQueue]
    | true =>
      obtain ⟨-, hreplies, hgone⟩ := htakes.crashes hends
      rw [hreplies, hgone, queue_hangUp, if_neg hother, queue_setQueue hin, if_neg hother,
        List.filter_nil, List.append_nil]
  · rw [hcase]
    exact (queue_hangUp.trans (if_neg hother)).trans (List.append_nil _).symm

/-- **The next message** is handled in every turn that looks for it. -/
theorem turn_of_queue {which : Turn} {m : Message} {rest : List Message}
    (hlooks : w.shard.phase = .draining ∨ (w.shard.phase = .serving ∧ which = .message))
    (hqueue : w.exchange.queue w.shard.channel = m :: rest) :
    w.shard.turn w.exchange which =
      w.shard.handle (w.exchange.setQueue w.shard.channel rest) m := by
  have hreceive : w.exchange.receive w.shard.channel =
      some (m, w.exchange.setQueue w.shard.channel rest) := by
    rw [receive, hqueue]
  rcases hlooks with hdraining | ⟨hserving, rfl⟩
  · simp only [Shard.turn, hdraining, hreceive]
  · simp only [Shard.turn, hserving, hreceive]

/-- A shard that goes on has that much less to do. -/
theorem queue_of_looks (h : w.Orderly) {which : Turn} {m : Message} {rest : List Message}
    (hlooks : w.shard.phase = .draining ∨ (w.shard.phase = .serving ∧ which = .message))
    (hqueue : w.exchange.queue w.shard.channel = m :: rest)
    (hruns : (w.step (.turn which)).shard.phase.runs = true) :
    (w.step (.turn which)).shard.phase = w.shard.phase ∧
      (w.step (.turn which)).exchange.queue w.shard.channel = rest := by
  have hin := lt_size_of_queue_eq_cons hqueue
  have htakes := Shard.takes_handle w.shard (w.exchange.setQueue w.shard.channel rest) m
  have hanswers := answers_of_turn h which
  simp only [step] at hruns ⊢
  rw [turn_of_queue hlooks hqueue] at hanswers hruns ⊢
  cases hends : (w.shard.handle _ m).1.ends with
  | false =>
    obtain ⟨hphase, hexchange⟩ := htakes.goes_on hends
    have hnone : (w.shard.handle (w.exchange.setQueue w.shard.channel rest) m).1.replies.filter
        (w.exchange.delivers w.shard.channel) = [] := by
      rw [List.filter_eq_nil_iff]
      intro r hr
      obtain ⟨-, thread, table, haddress⟩ := hanswers r hr
      rw [delivers_answer h haddress]
      simp
    refine ⟨hphase, ?_⟩
    rw [hexchange, queue_trySends fun r hr => (hanswers r hr).1, queue_setQueue hin, if_pos rfl,
      delivers_setQueue, hnone, List.append_nil]
  | true =>
    obtain ⟨⟨why, hcrashed⟩, -⟩ := htakes.crashes hends
    rw [hcrashed] at hruns
    cases hruns

/-! ### Coming to an end -/

theorem phase_of_run (hruns : w.shard.phase.runs = false) (acts : List Act) :
    (w.run acts).shard.phase.runs = false := by
  induction acts generalizing w with
  | nil => exact hruns
  | cons act rest ih =>
    refine ih ?_
    cases act with
    | turn which =>
      simp only [step]
      rw [Shard.runs_of_turn, hruns, Bool.false_and]
    | _ => exact hruns

/-- **A shard that takes no more requests** ends when it has had a turn for each message that is
left and one more. -/
theorem ends_of_draining (h : w.Orderly) (hdraining : w.shard.phase = .draining)
    {turns : List Turn} (hlong : (w.exchange.queue w.shard.channel).length < turns.length) :
    (w.run (turns.map .turn)).shard.phase.runs = false := by
  induction turns generalizing w with
  | nil => cases hlong
  | cons which turns ih =>
    have hnext := orderly_of_turn h which
    cases hruns : (w.step (.turn which)).shard.phase.runs with
    | false => exact phase_of_run hruns _
    | true =>
      cases hqueue : w.exchange.queue w.shard.channel with
      | nil =>
        have hreceive : w.exchange.receive w.shard.channel = none := by rw [receive, hqueue]
        simp only [step, Shard.turn, hdraining, hreceive] at hruns
        cases hruns
      | cons m rest =>
        obtain ⟨hphase, hrest⟩ := queue_of_looks h (Or.inl hdraining) hqueue hruns
        have hchannel := channel_of_run w [.turn which]
        refine ih hnext (hphase.trans hdraining) ?_
        rw [show (w.step (.turn which)).shard.channel = w.shard.channel from hchannel, hrest]
        rw [hqueue] at hlong
        exact Nat.lt_of_succ_lt_succ hlong

theorem serve_of_ne (s : Shard) {r : Request} (h : r ≠ .stop) :
    (s.serve r).2.phase = s.phase ∧ (s.serve r).2.requests = s.requests := by
  cases r with
  | install table hosted =>
    simp only [Shard.serve]
    split <;> exact ⟨rfl, rfl⟩
  | report => exact ⟨rfl, rfl⟩
  | stop => exact absurd rfl h

/-- **A shard that is told to stop** gets to it. -/
theorem exists_draining (hserving : w.shard.phase = .serving) (hstop : .stop ∈ w.shard.requests) :
    ∃ turns : List Turn, (w.run (turns.map .turn)).shard.phase = .draining := by
  generalize hrequests : w.shard.requests = requests at hstop
  induction requests generalizing w with
  | nil => cases hstop
  | cons r rest ih =>
    have hturn : (w.step (.turn .request)).shard =
        (Shard.serve { w.shard with requests := rest } r).2 := by
      simp only [step, Shard.turn, hserving, hrequests]
    by_cases hlast : r = .stop
    · refine ⟨[.request], ?_⟩
      change (w.step (.turn .request)).shard.phase = .draining
      rw [hturn, hlast]
      rfl
    · have hlater := (List.mem_cons.mp hstop).resolve_left (Ne.symm hlast)
      obtain ⟨hphase, hrest⟩ := serve_of_ne { w.shard with requests := rest } hlast
      rw [← hturn] at hphase hrest
      obtain ⟨turns, hdraining⟩ := ih (hphase.trans hserving) hrest hlater
      exact ⟨.request :: turns, hdraining⟩

/-- It does so whatever is in its way, and comes to its end. -/
theorem ends_of_stop (h : w.Orderly) (hserving : w.shard.phase = .serving)
    (hstop : .stop ∈ w.shard.requests) :
    ∃ turns : List Turn, (w.run (turns.map .turn)).shard.phase.runs = false := by
  obtain ⟨front, hdraining⟩ := exists_draining hserving hstop
  have hlater : (w.run (front.map .turn)).Orderly := orderly_of_run h fun act hact => by
    obtain ⟨which, -, rfl⟩ := List.mem_map.mp hact
    trivial
  let left := (w.run (front.map .turn)).exchange.queue (w.run (front.map .turn)).shard.channel
  have hlong : left.length < (List.replicate (left.length + 1) Turn.message).length := by
    rw [List.length_replicate]
    exact Nat.lt_succ_self _
  have hends := ends_of_draining hlater hdraining hlong
  rw [← run_append, ← List.map_append] at hends
  exact ⟨_, hends⟩

/-! ### The theorem -/

/-- A shard on a channel that was opened for it just now, and all that has gone before. -/
def outset (past : History) (e : Exchange) (id : ThreadId) (channel : ChannelId) : Watch :=
  { shard := { id, channel }
    exchange := e
    past := ⟨.open (.shard id), .opened channel⟩ :: past }

theorem orderly_outset {past : History} {e e' : Exchange} {id : ThreadId} {channel : ChannelId}
    (h : Logged past e) (hopen : e.openShard id = .ok (channel, e')) :
    (outset past e' id channel).Orderly := by
  have hperform : e.perform (.open (.shard id)) = (.opened channel, e') := by
    simp only [perform, hopen]
  have hlogged := logged_of_open h (.shard id)
  rw [hperform] at hlogged
  have hnew : e.channels.size ≤ channel := by
    unfold openShard at hopen
    split at hopen
    · cases hopen
    · exact Nat.le_of_eq (Prod.mk.inj (Except.ok.inj hopen)).1
  have hnone : arrivals channel (⟨.open (.shard id), .opened channel⟩ :: past) = [] :=
    h.vacant channel hnew
  constructor
  · exact .start id channel
  · exact hlogged
  · exact List.mem_cons_self
  · rintro table q ⟨hosted, hfind, -⟩
    cases hfind
  · intro m hm
    rw [outset, hnone] at hm
    cases hm
  · exact reads_of_vacant h hnew
  · exact if_pos rfl
  · intro hstopped
    cases hstopped

/-- **One pass over the queue.** Whatever was asked of the exchange before, whatever is sent and
asked later and whichever queue the shard looks at: the messages it takes are those that have
arrived, in this order and each once, and as long as it goes on the others are in its queue. When it
has stopped it has taken all that had arrived before it was told to, also what it had not got to
when it noticed. Every answer gets to whom it is for, if it can, in order and whatever becomes of
the others. Each turn that looks for a message handles the first there is, so a shard that takes no
more requests ends, and one that is told to stop does. -/
theorem drains_in_order (coded : Bool) {before : List Exchange.Call}
    (hbefore : ∀ m, .send m ∈ before → m.Sized) {id : ThreadId} {channel : ChannelId} {e : Exchange}
    (hopen : ((new coded).after [] before).2.openShard id = .ok (channel, e)) {acts : List Act}
    (hfair : ∀ act ∈ acts, act.Fair channel) :
    let start := outset ((new coded).after [] before).1 e id channel
    let w := start.run acts
    Shard.taken w.events <+: arrivals channel w.past ∧
    (w.shard.phase.runs = true →
      arrivals channel w.past = Shard.taken w.events ++ w.exchange.queue channel) ∧
    (∀ front behind, acts = front ++ .ask .stop :: behind → w.shard.phase = .stopped →
      arrivals channel (start.run front).past <+: Shard.taken w.events) ∧
    (∀ which other, other ≠ channel →
      (w.step (.turn which)).exchange.queue other = w.exchange.queue other ++
        (w.shard.turn w.exchange which).1.replies.filter (w.exchange.delivers other)) ∧
    (∀ which m rest, w.shard.phase = .draining ∨ (w.shard.phase = .serving ∧ which = .message) →
      w.exchange.queue channel = m :: rest →
        w.shard.turn w.exchange which = w.shard.handle (w.exchange.setQueue channel rest) m ∧
        (w.shard.turn w.exchange which).1.message? = some m) ∧
    (w.shard.phase = .draining → ∀ turns : List Turn,
      (w.exchange.queue channel).length < turns.length →
        (w.run (turns.map .turn)).shard.phase.runs = false) ∧
    (w.shard.phase = .serving → .stop ∈ w.shard.requests → ∃ turns : List Turn,
      (w.run (turns.map .turn)).shard.phase.runs = false) := by
  intro start w
  have hlogged := logged_of_after (logged_new coded) hbefore
  have h : w.Orderly := orderly_of_run (orderly_outset hlogged hopen) hfair
  have hchannel : w.shard.channel = channel := channel_of_run start acts
  have hpass := h.logged.reads_prefix w.shard.channel
  have hqueued := arrivals_of_runs h
  rw [h.taken, hchannel] at hpass
  rw [hchannel] at hqueued
  refine ⟨hpass, hqueued, ?_, ?_, ?_, ?_, ends_of_stop h⟩
  · intro front behind hsplit hstopped
    rw [← h.emptied hstopped, hchannel]
    simp only [w, hsplit, run_append]
    exact arrivals_of_run (start.run front) _ channel
  · exact fun which other hother => queue_of_turn h which (hchannel.symm ▸ hother)
  · intro which m rest hlooks hqueue
    have hturn := turn_of_queue hlooks (hchannel.symm ▸ hqueue)
    rw [hturn, hchannel]
    exact ⟨rfl, (Shard.takes_handle w.shard _ m).message⟩
  · exact fun hdraining turns hlong => ends_of_draining h hdraining (hchannel.symm ▸ hlong)

/-- The second of two workers has an inbox, and the first has none. -/
def halfOpen : List Exchange.Call := [.open (.inbox 15 1)]

/-- Both read, and neither read can be answered until both have moved on. -/
def barred : List Message := [
  ⟨.add, 14, 2, 1, 0, 0, [.keys [3], .integers [4]]⟩,
  ⟨.get, 14, 2, 1, 1, 1, [.keys [3]]⟩,
  ⟨.get, 15, 2, 1, 1, 1, [.keys [3]]⟩,
  ⟨.clock, 14, 2, 1, 1, 0, []⟩,
  ⟨.clock, 15, 2, 1, 1, 0, []⟩]

/-- A barrier table is installed, and the messages come. -/
def queued : List Act :=
  .ask (.install 1 ⟨.integer, ⟨.new 1 2 ⟨0, 10⟩ (.sparse .empty), .barrier⟩⟩) :: .turn .request ::
    barred.map fun m => .call (.send m)

/-- The shard hears that it has to stop before it has got to any of the messages. -/
def overtaken : List Act := queued ++ [.ask .stop, .turn .request]

theorem fair_overtaken : ∀ act ∈ overtaken, act.Fair 1 := by
  refine List.forall_mem_append.mpr ⟨List.forall_mem_cons.mpr ⟨?_, ?_⟩, ?_⟩
  · exact ⟨.bsp .sparse, 1, 2, ⟨0, 10⟩, rfl⟩
  · refine List.forall_mem_cons.mpr ⟨trivial, fun act hact => ?_⟩
    obtain ⟨m, hm, rfl⟩ := List.mem_map.mp hact
    exact (show ∀ m ∈ barred, m.Sized by decide) m hm
  · exact List.forall_mem_cons.mpr ⟨trivial, List.forall_mem_singleton.mpr trivial⟩

/-- The answer to the worker that has no inbox is lost, and the one after it is not. -/
theorem drains_in_order_overtaken :
    ∃ channel e, ((new true).after [] halfOpen).2.openShard 2 = .ok (channel, e) ∧
      let start := outset ((new true).after [] halfOpen).1 e 2 channel
      let w := start.run (overtaken ++ List.replicate 6 (.turn .message))
      (start.run overtaken).shard.phase = .draining ∧
      (start.run overtaken).exchange.queue channel = barred ∧
      w.shard.phase.runs = false ∧
      barred <+: Shard.taken w.events ∧
      w.exchange.queue 0 = [⟨.response, 2, 15, 1, 1, 1, [.keys [3], .integers [4]]⟩] := by
  have hbefore : ∀ m, .send m ∈ halfOpen → m.Sized := by simp [halfOpen]
  have hopen : ((new true).after [] halfOpen).2.openShard 2 = .ok (_, _) := rfl
  have hfair : ∀ act ∈ overtaken ++ List.replicate 6 (.turn .message), act.Fair 1 :=
    List.forall_mem_append.mpr ⟨fair_overtaken, fun act hact => by
      rw [List.eq_of_mem_replicate hact]
      trivial⟩
  obtain ⟨-, -, -, -, -, hends, -⟩ := drains_in_order true hbefore hopen fair_overtaken
  obtain ⟨-, -, hall, -⟩ := drains_in_order true hbefore hopen hfair
  refine ⟨_, _, hopen, rfl, rfl, ?_, ?_, rfl⟩
  · rw [run_append]
    exact hends rfl (List.replicate 6 .message) (by decide)
  · exact hall queued _ rfl rfl

end Watch

end ParamServer
