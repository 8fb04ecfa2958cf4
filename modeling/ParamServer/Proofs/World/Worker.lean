import ParamServer.Proofs.Courier
import ParamServer.Proofs.World.Shard

/-!
# A worker among the shards

Whatever a worker sends is fit to be sent, and carries the worker's clock (`Site.Sends`). What it
is owed lies with the shards, each of which knows its own share of it, or in its inbox, and is as of
the worker's present clock; so a worker that is not waiting is owed nothing (`Client.Attended`).
-/

namespace ParamServer

variable {τ : ScalarType}

/-- Messages of one worker at one clock, all fit to be sent. -/
def Site.Sends (site : Site τ) (w : ThreadId) (clock : Clock) (ms : List Message) : Prop :=
  ∀ m ∈ ms, m.sender = w ∧ m.clock = clock ∧ ∃ q ∈ site.layout.pieces, site.Fit q m

/-- An update of a key in the range of a piece is sent to the shard of the piece. -/
theorem Site.Fit.receiver_of_mem {site : Site τ} {r q : Piece} {m : Message} (h : site.Fit r m)
    (hr : r ∈ site.layout.pieces) (hop : m.op = .add) (hq : q ∈ site.layout.pieces) {key : Key}
    (hkey : key ∈ q.range) (hkeys : key ∈ m.keyList) : m.receiver = q.shard := by
  have hthere := Layout.locate_of_mem hr ((h.adds hop).inside key hkeys)
  rw [Layout.locate_of_mem hq hkey] at hthere
  rw [h.receiver_eq, Except.ok.inj hthere]

/-! ### What a worker sends -/

section Sends

variable {site : Site τ} {w : ThreadId} (hw : w ∈ site.workers) {s : Session τ}
  (hworker : s.worker = w) (hlayout : s.layout = site.layout)

include hw hworker hlayout

theorem sends_ticks : site.Sends w s.clock s.ticks := by
  subst hworker
  intro m hm
  obtain ⟨shard, hshard, rfl⟩ := List.mem_map.mp hm
  rw [hlayout] at hshard
  obtain ⟨q, hq, rfl⟩ := List.mem_map.mp hshard
  exact ⟨rfl, rfl, q, hq, rfl, hw, by simp [Session.message], by simp [Session.message],
    by simp [Session.message]⟩

variable {keys : List Key} {runs : List Run} (hruns : s.layout.runs keys = .ok runs)

include hruns

theorem sends_requests : site.Sends w s.clock (s.requests runs) := by
  subst hworker
  intro m hm
  obtain ⟨run, hrun, rfl⟩ := List.mem_map.mp hm
  obtain ⟨hcut, hascending⟩ := Layout.cut_of_runs hruns
  obtain ⟨q, hq, hshard, hinside⟩ := hcut.piece hrun
  refine ⟨rfl, rfl, q, hlayout ▸ hq, hshard.symm, hw, by simp [Session.message],
    by simp [Session.message], ?_⟩
  exact fun _ => ⟨rfl, hcut.ascending hascending hrun, hinside⟩

theorem sends_updates {values : List τ.Value} (hlength : keys.length = values.length) :
    site.Sends w s.clock (s.updates values runs) := by
  subst hworker
  intro m hm
  obtain ⟨run, hrun, rfl⟩ := List.mem_map.mp hm
  obtain ⟨hcut, hascending⟩ := Layout.cut_of_runs hruns
  obtain ⟨q, hq, hshard, hinside⟩ := hcut.piece hrun
  have hstop := hcut.stop_le hrun
  refine ⟨rfl, rfl, q, hlayout ▸ hq, hshard.symm, hw, by simp [Session.message], ?_,
    by simp [Session.message]⟩
  intro _
  refine ⟨⟨rfl, hcut.ascending hascending hrun, hinside⟩, _, Message.values_eq_ok rfl, ?_⟩
  change run.keys.length = ((values.drop run.start).take run.keys.length).length
  rw [List.length_take, List.length_drop]
  unfold Run.stop at hstop
  omega

end Sends

/-! ### What a worker is owed -/

/-- The shard that the answer is from has given it. -/
def Site.Said (site : Site τ) (shards : ThreadId → Host τ) (a : Message) : Prop :=
  ∃ q ∈ site.layout.pieces, a.sender = q.shard ∧ ∃ s ∈ (shards q.shard).log, a ∈ s.answers

theorem Site.Said.mono {site : Site τ} {shards shards' : ThreadId → Host τ} {a : Message}
    (h : site.Said shards a) (hlogs : ∀ p, ∀ s ∈ (shards p).log, s ∈ (shards' p).log) :
    site.Said shards' a := by
  obtain ⟨q, hq, hsender, s, hs, ha⟩ := h
  exact ⟨q, hq, hsender, s, hlogs q.shard s hs, ha⟩

theorem mem_log_update (shards : ThreadId → Host τ) {p : ThreadId} {host : Host τ}
    {more : List (Step τ)} (hlog : host.log = (shards p).log ++ more) :
    ∀ r, ∀ s ∈ (shards r).log, s ∈ (Function.update shards p host r).log := by
  intro r s hs
  by_cases hr : r = p
  · subst hr
    rw [Function.update_self, hlog]
    exact List.mem_append_left _ hs
  · rw [Function.update_of_ne hr]
    exact hs

structure Client.Attended (site : Site τ) (shards : ThreadId → Host τ) (w : ThreadId)
    (worker : Client τ) : Prop where
  worker_eq : worker.session.worker = w
  layout_eq : worker.session.layout = site.layout
  settled : ∀ r, worker.session.abandoned.get? r = none
  owed : ∃ out, worker.session.Owes (worker.call.map (·.pull)) out worker.inbox ∧
    (∀ g ∈ out, g.clock = worker.session.clock) ∧
    ∀ q ∈ site.layout.pieces,
      ((shards q.shard).pending w).Perm (out.filter fun g => decide (g.receiver = q.shard))
  told : ∀ a ∈ worker.inbox, a.clock = worker.session.clock ∧ site.Said shards a
  called : ∀ call, worker.call = some call → call.clock = worker.session.clock ∧
    call.pull.Backed call.answers ∧ site.layout.Cut 0 call.keys (call.pull.parts.map (·.run)) ∧
    ∀ a ∈ call.answers, a.clock = worker.session.clock ∧ site.Said shards a

/-- What a worker does in a call: it sends `ms`, and is then at `session`, with a read under way if
it has asked for one. -/
structure Client.Turn (site : Site τ) (w : ThreadId) (worker : Client τ) (session : Session τ)
    (asked : Option (Call τ)) (ms : List Message) : Prop where
  clock_le : worker.session.clock ≤ session.clock
  sends : site.Sends w session.clock ms
  worker_eq : session.worker = w
  layout_eq : session.layout = site.layout
  abandoned_eq : session.abandoned = worker.session.abandoned
  owes : session.Owes (asked.map (·.pull)) (ms.filter fun m => decide (m.op = .get)) []
  asked : ∀ call, asked = some call → call.clock = session.clock ∧ call.answers = [] ∧
    call.pull.Backed [] ∧ site.layout.Cut 0 call.keys (call.pull.parts.map (·.run))

namespace Client.Attended

variable {site : Site τ} {shards shards' : ThreadId → Host τ} {w : ThreadId} {worker : Client τ}

theorem idle (h : worker.Attended site shards w) (hidle : worker.call = none) :
    worker.session.Owes none [] [] ∧ worker.inbox = [] ∧
      ∀ q ∈ site.layout.pieces, (shards q.shard).pending w = [] := by
  obtain ⟨out, howes, -, hpending⟩ := h.owed
  have hzero : ∀ m ∈ out ++ worker.inbox, False := by
    intro m hm
    have hcounts := howes.counts m.request
    rw [h.settled, hidle, ← List.countP_append] at hcounts
    have hone : 0 < (out ++ worker.inbox).countP fun k => decide (k.request = m.request) :=
      List.countP_pos_iff.mpr ⟨m, hm, decide_eq_true rfl⟩
    change 0 + 0 = _ at hcounts
    omega
  have hnil : out ++ worker.inbox = [] := List.eq_nil_iff_forall_not_mem.mpr hzero
  obtain ⟨rfl, hinbox⟩ := List.append_eq_nil_iff.mp hnil
  rw [hidle, hinbox] at howes
  exact ⟨howes, hinbox, fun q hq => (hpending q hq).eq_nil⟩

theorem clock_of_pending (h : worker.Attended site shards w) {q : Piece}
    (hq : q ∈ site.layout.pieces) {g : Message} (hg : g ∈ (shards q.shard).pending w) :
    g.clock = worker.session.clock := by
  obtain ⟨out, -, hclocks, hpending⟩ := h.owed
  exact hclocks g (List.mem_filter.mp ((hpending q hq).mem_iff.mp hg)).1

/-- Nothing changes for a worker as long as nothing of its own is handled or sent. -/
theorem mono (h : worker.Attended site shards w)
    (hpending : ∀ q ∈ site.layout.pieces,
      ((shards' q.shard).pending w).Perm ((shards q.shard).pending w))
    (hlogs : ∀ p, ∀ s ∈ (shards p).log, s ∈ (shards' p).log) :
    worker.Attended site shards' w := by
  obtain ⟨out, howes, hclocks, hout⟩ := h.owed
  exact {
    worker_eq := h.worker_eq
    layout_eq := h.layout_eq
    settled := h.settled
    owed := ⟨out, howes, hclocks, fun q hq => (hpending q hq).trans (hout q hq)⟩
    told := fun a ha => ⟨(h.told a ha).1, (h.told a ha).2.mono hlogs⟩
    called := fun call hcall => by
      obtain ⟨hclock, hbacked, hcut, hanswers⟩ := h.called call hcall
      exact ⟨hclock, hbacked, hcut, fun a ha => ⟨(hanswers a ha).1, (hanswers a ha).2.mono hlogs⟩⟩ }

/-- **A call.** What the worker asks for is owed from now on. -/
theorem call (h : worker.Attended site shards w) (hidle : worker.call = none)
    {session : Session τ} {asked : Option (Call τ)} {ms : List Message}
    (hturn : worker.Turn site w session asked ms) :
    Client.Attended site
      (fun p => { shards p with
        queue := (shards p).queue ++ ms.filter fun m => decide (m.receiver = p) })
      w ⟨session, worker.inbox, asked⟩ := by
  obtain ⟨-, hinbox, hpending⟩ := h.idle hidle
  refine ⟨hturn.worker_eq, hturn.layout_eq, ?_,
    ⟨ms.filter fun m => decide (m.op = .get), ?_, ?_, ?_⟩, ?_, ?_⟩
  · rw [hturn.abandoned_eq]
    exact h.settled
  · rw [hinbox]
    exact hturn.owes
  · exact fun g hg => (hturn.sends g (List.mem_filter.mp hg).1).2.1
  · intro q hq
    refine (Host.pending_push ..).trans (List.Perm.of_eq ?_)
    rw [hpending q hq, List.nil_append, filter_of_forall_eq]
    · exact List.filter_comm ..
    · exact fun m hm =>
        (hturn.sends m (List.mem_filter.mp (List.mem_filter.mp hm).1).1).1
  · rw [hinbox]
    exact fun a ha => by cases ha
  · intro call hcall
    obtain ⟨hclock, hanswers, hbacked, hcut⟩ := hturn.asked call hcall
    rw [hanswers]
    exact ⟨hclock, hbacked, hcut, fun a ha => by cases ha⟩

/-- **Reading.** The worker reads `front`, and no answer in it is amiss. -/
theorem collect (h : worker.Attended site shards w) {call : Call τ}
    (hcall : worker.call = some call) {front rest : List Message}
    (hinbox : worker.inbox.Perm (front ++ rest)) :
    (∃ session, ∃ pull : Pull τ, ∃ used unread, front = used ++ unread ∧
      worker.session.collect call.pull front = .done pull.values session unread ∧
      session = { worker.session with abandoned := session.abandoned } ∧
      Client.Attended site shards w ⟨session, unread ++ rest, none⟩ ∧
      Sourced site.layout (call.answers ++ used) call.pull.request call.keys pull.values ∧
      ∀ a ∈ call.answers ++ used, a.clock = call.clock ∧ site.Said shards a) ∨
    ∃ session pull, worker.session.collect call.pull front = .pending pull session ∧
      session = { worker.session with abandoned := session.abandoned } ∧
      Client.Attended site shards w
        ⟨session, rest, some { call with pull, answers := call.answers ++ front }⟩ := by
  obtain ⟨out, howes, hclocks, hpending⟩ := h.owed
  obtain ⟨hclock, hbacked, hcut, hanswers⟩ := h.called call hcall
  rw [hcall] at howes
  have hread : ∀ a ∈ call.answers ++ front,
      a.clock = worker.session.clock ∧ site.Said shards a := by
    intro a ha
    rcases List.mem_append.mp ha with hold | hnew
    · exact hanswers a hold
    · exact h.told a (hinbox.mem_iff.mpr (List.mem_append_left _ hnew))
  have hunread : ∀ a ∈ rest, a.clock = worker.session.clock ∧ site.Said shards a := fun a ha =>
    h.told a (hinbox.mem_iff.mpr (List.mem_append_right _ ha))
  rcases Session.collect_of_owes (Session.owes_of_perm howes (List.Perm.refl _) hinbox) hbacked with
    ⟨session, pull, used, unread, rfl, hdone, hzero, howes', hkept, hbacked'⟩ |
    ⟨session, pull, hpend, -, howes', hkept, hbacked'⟩
  · refine Or.inl ⟨session, pull, used, unread, rfl, hdone, hkept.session, ?_, ?_, ?_⟩
    · rw [hkept.session] at howes' ⊢
      refine ⟨h.worker_eq, h.layout_eq, fun r => hkept.shrunk r (h.settled r),
        ⟨out, Session.owes_of_done howes' hzero, hclocks, hpending⟩, ?_,
        fun _ hnone => by cases hnone⟩
      intro a ha
      rcases List.mem_append.mp ha with ha | ha
      · exact hread a (by simp [ha])
      · exact hunread a ha
    · rw [← hkept.runs] at hcut
      rw [← hkept.request]
      exact Pull.sourced_of_backed hcut hzero hbacked'
    · rw [hclock]
      exact fun a ha => hread a (by rw [← List.append_assoc]; exact List.mem_append_left _ ha)
  · refine Or.inr ⟨session, pull, hpend, hkept.session, ?_⟩
    rw [hkept.session] at howes' ⊢
    refine ⟨h.worker_eq, h.layout_eq, fun r => hkept.shrunk r (h.settled r),
      ⟨out, howes', hclocks, hpending⟩, hunread, ?_⟩
    intro later hlater
    obtain rfl := Option.some.inj hlater
    exact ⟨hclock, hbacked', by rw [hkept.runs]; exact hcut, hread⟩

theorem wait (h : worker.Attended site shards w) {call : Call τ} (hcall : worker.call = some call)
    {front rest : List Message} (hinbox : worker.inbox.Perm (front ++ rest)) {pull : Pull τ}
    {session : Session τ}
    (hcollect : worker.session.collect call.pull front = .pending pull session) :
    session = { worker.session with abandoned := session.abandoned } ∧ Client.Attended site shards w
      ⟨session, rest, some { call with pull, answers := call.answers ++ front }⟩ := by
  rcases h.collect hcall hinbox with
    ⟨_, _, _, _, -, hdone, -⟩ | ⟨session, pull, hpending, hattended⟩
  · rw [hcollect] at hdone
    cases hdone
  · rw [hcollect] at hpending
    obtain ⟨rfl, rfl⟩ := Reading.pending.inj hpending
    exact hattended

theorem finish (h : worker.Attended site shards w) {call : Call τ}
    (hcall : worker.call = some call) {used unread rest : List Message}
    (hinbox : worker.inbox.Perm (used ++ unread ++ rest)) {values : List τ.Value}
    {session : Session τ}
    (hcollect : worker.session.collect call.pull (used ++ unread) = .done values session unread) :
    session = { worker.session with abandoned := session.abandoned } ∧
      Client.Attended site shards w ⟨session, unread ++ rest, none⟩ ∧
      Sourced site.layout (call.answers ++ used) call.pull.request call.keys values ∧
      ∀ a ∈ call.answers ++ used, a.clock = call.clock ∧ site.Said shards a := by
  rcases h.collect hcall hinbox with
    ⟨session, pull, used, unread, hsplit, hdone, hattended⟩ | ⟨_, _, hpending, -⟩
  · rw [hcollect] at hdone
    obtain ⟨rfl, rfl, rfl⟩ := Reading.done.inj hdone
    obtain rfl := List.append_cancel_right hsplit
    exact hattended
  · rw [hcollect] at hpending
    cases hpending

theorem collect_ne_failed (h : worker.Attended site shards w) {call : Call τ}
    (hcall : worker.call = some call) {front rest unread : List Message} {why : Error}
    {session : Session τ} (hinbox : worker.inbox.Perm (front ++ rest)) :
    worker.session.collect call.pull front ≠ .failed why session unread := by
  intro hcollect
  rcases h.collect hcall hinbox with ⟨_, _, _, _, -, hdone, -⟩ | ⟨_, _, hpending, -⟩
  · rw [hcollect] at hdone
    cases hdone
  · rw [hcollect] at hpending
    cases hpending

/-- Whatever is owed to a worker, or has come, is for its present read. -/
theorem current_of_mem (h : worker.Attended site shards w) {call : Call τ} {out : List Message}
    (howes : worker.session.Owes (some call.pull) out worker.inbox) {m : Message}
    (hm : m ∈ out ++ worker.inbox) :
    m.request = call.pull.request ∧ worker.session.Current call.pull out worker.inbox := by
  have hcounts := howes.counts m.request
  have hone : 0 < (out ++ worker.inbox).countP fun k => decide (k.request = m.request) :=
    List.countP_pos_iff.mpr ⟨m, hm, decide_eq_true rfl⟩
  rw [h.settled, Option.getD_none, ← List.countP_append, Session.due] at hcounts
  have hrequest : call.pull.request = m.request := by
    by_contra hne
    rw [if_neg hne] at hcounts
    omega
  rw [if_pos hrequest] at hcounts
  exact ⟨hrequest.symm, howes.current _ rfl (Pull.parts_ne_nil (by omega))⟩

/-- Once no shard has a read of the worker left, it is owed nothing. -/
theorem answered (h : worker.Attended site shards w) {call : Call τ}
    (hcall : worker.call = some call)
    (hquiet : ∀ q ∈ site.layout.pieces, (shards q.shard).pending w = []) :
    worker.session.Owes (some call.pull) [] worker.inbox := by
  obtain ⟨out, howes, -, hpending⟩ := h.owed
  obtain ⟨-, -, hcut, -⟩ := h.called call hcall
  rw [hcall] at howes
  have hnone : out = [] := by
    rw [List.eq_nil_iff_forall_not_mem]
    intro g hg
    obtain ⟨hrequest, hcurrent⟩ := h.current_of_mem howes (List.mem_append_left _ hg)
    obtain ⟨part, hpart, hreceiver, -⟩ := hcurrent.asked g hg hrequest
    obtain ⟨q, hq, hshard, -⟩ := hcut.piece (List.mem_map_of_mem hpart)
    have hhere : g ∈ out.filter fun g => decide (g.receiver = q.shard) :=
      List.mem_filter.mpr ⟨hg, decide_eq_true (hreceiver.trans hshard.symm)⟩
    rw [← (hpending q hq).mem_iff, hquiet q hq] at hhere
    cases hhere
  rwa [hnone] at howes

/-- **A shard's turn.** What it answers moves from what it owes to the inbox. -/
theorem serve (h : worker.Attended site shards w) {q : Piece} (hq : q ∈ site.layout.pieces)
    {host : Host τ} {s : Step τ} (hlog : host.log = (shards q.shard).log ++ [s])
    {gs answers : List Message} (hgs : ∀ g ∈ gs, site.Fit q g ∧ g.op = .get)
    (hpending : ((shards q.shard).pending w).Perm (gs ++ host.pending w))
    (hanswers : answers.Perm (gs.map (·.answerFrom s.after.slice.store)))
    (hgiven : ∀ a ∈ answers, a ∈ s.answers) :
    Client.Attended site (Function.update shards q.shard host) w
      { worker with inbox := worker.inbox ++ answers } := by
  obtain ⟨out, howes, hclocks, hout⟩ := h.owed
  let elsewhere := out.filter fun g => !decide (g.receiver = q.shard)
  have hsplit : out.Perm (gs ++ (host.pending w ++ elsewhere)) := by
    calc out
      |>.Perm ((out.filter fun g => decide (g.receiver = q.shard)) ++ elsewhere) :=
        (List.filter_append_perm ..).symm
      _ |>.Perm ((gs ++ host.pending w) ++ elsewhere) :=
        ((hout q hq).symm.trans hpending).append_right elsewhere
      _ = gs ++ (host.pending w ++ elsewhere) := List.append_assoc ..
  have hhere : ∀ g ∈ gs ++ host.pending w, g.receiver = q.shard := by
    intro g hg
    have hmem := ((hout q hq).symm.trans hpending).mem_iff.mpr hg
    simpa using (List.mem_filter.mp hmem).2
  have hlogs := mem_log_update shards hlog
  refine ⟨h.worker_eq, h.layout_eq, h.settled,
    ⟨host.pending w ++ elsewhere, ?_, ?_, ?_⟩, ?_, ?_⟩
  · have hanswer : ∀ g ∈ gs, Session.IsAnswer τ g (g.answerFrom s.after.slice.store) := fun g hg =>
      Session.isAnswer_answerFrom ((hgs g hg).1.reads (hgs g hg).2) _
    have hnext := Session.owes_answers
      (Session.owes_of_perm howes hsplit (List.Perm.refl _)) hanswer
    exact Session.owes_of_perm hnext (List.Perm.refl _) (hanswers.symm.append_left _)
  · exact fun g hg => hclocks g (hsplit.mem_iff.mpr (List.mem_append_right _ hg))
  · intro r hr
    by_cases hshard : r.shard = q.shard
    · rw [hshard, Function.update_self, List.filter_append]
      refine List.Perm.of_eq ?_
      have hnone : (elsewhere.filter fun g => decide (g.receiver = q.shard)) = [] :=
        filter_of_forall_ne fun g hg => by simpa using (List.mem_filter.mp hg).2
      rw [hnone, List.append_nil, filter_of_forall_eq]
      exact fun g hg => hhere g (List.mem_append_right _ hg)
    · rw [Function.update_of_ne hshard]
      refine (hout r hr).trans ((hsplit.filter _).trans (List.Perm.of_eq ?_))
      have hnone : (gs.filter fun g => decide (g.receiver = r.shard)) = [] := by
        apply filter_of_forall_ne
        intro g hg
        rw [hhere g (List.mem_append_left _ hg)]
        exact Ne.symm hshard
      rw [List.filter_append, hnone, List.nil_append]
  · intro a ha
    rcases List.mem_append.mp ha with hold | hnew
    · exact ⟨(h.told a hold).1, (h.told a hold).2.mono hlogs⟩
    · obtain ⟨g, hg, rfl⟩ := List.mem_map.mp (hanswers.mem_iff.mp hnew)
      refine ⟨hclocks g (hsplit.mem_iff.mpr (List.mem_append_left _ hg)), q, hq,
        (hgs g hg).1.receiver_eq, s, ?_, hgiven _ hnew⟩
      rw [Function.update_self, hlog]
      exact List.mem_append_right _ (List.mem_singleton.mpr rfl)
  · intro call hcall
    obtain ⟨hclock, hbacked, hcut, hold⟩ := h.called call hcall
    exact ⟨hclock, hbacked, hcut, fun a ha => ⟨(hold a ha).1, (hold a ha).2.mono hlogs⟩⟩

end Client.Attended

/-! ### The calls of a worker -/

/-- A message for each shard that owns some of the keys, and none for another. -/
structure Layout.OneEach (layout : Layout) (keys : List Key) (ms : List Message) : Prop where
  distinct : (ms.map (·.receiver)).Nodup
  owners : ∀ shard, shard ∈ ms.map (·.receiver) ↔ ∃ key ∈ keys, layout.owner key = .ok shard

theorem Layout.oneEach_of_cut {layout : Layout} {keys : List Key} {runs : List Run}
    (hcut : layout.Cut 0 keys runs) {ms : List Message}
    (hreceivers : ms.map (·.receiver) = runs.map (·.shard)) : layout.OneEach keys ms where
  distinct := by
    rw [hreceivers]
    exact hcut.distinct
  owners shard := by
    rw [hreceivers]
    exact hcut.mem_shards_iff

namespace World

theorem sendAll_line (ms : List Message) :
    (Courier.sendAll line ms).courier.sent = ms ∧ (Courier.sendAll line ms).sent = ms.length ∧
      (Courier.sendAll line ms).failure = none := by
  rw [Outbox.sendAll_eq rfl]
  exact ⟨List.nil_append ms, rfl, rfl⟩

section Line

variable {s : Session τ} {keys : List Key} {runs : List Run}

theorem push_line (hruns : s.layout.runs keys = .ok runs) {values : List τ.Value}
    (hlength : keys.length = values.length) :
    s.push line keys values = .ok () { line with sent := s.updates values runs } := by
  rw [Session.push, if_neg (not_not_intro hlength), hruns]
  simp only [Outbox.sendAll_eq (show line.cut = [] from rfl)]
  rfl

theorem startPull_line (hruns : s.layout.runs keys = .ok runs) (hkeys : keys ≠ [])
    (hroom : s.lastRequest.toNat + 1 ≠ UInt64.size) :
    s.startPull line keys = .ok (Session.asking s.numbered.lastRequest runs)
      (s.numbered, { line with sent := s.numbered.requests runs }) := by
  have hsent := Outbox.sendAll_eq (show line.cut = [] from rfl) (s.numbered.requests runs)
  rw [Session.startPull_of_sent hruns hkeys hroom (by rw [hsent]), hsent]
  rfl

/-- A read asks all the shards concerned, or nobody. -/
theorem startPull_line_cases {pull : Pull τ} {session : Session τ} {out : Outbox}
    (h : s.startPull line keys = .ok pull (session, out)) :
    (keys = [] ∧ pull = ⟨s.lastRequest, []⟩ ∧ session = s ∧ out = line) ∨
      ∃ runs, s.layout.runs keys = .ok runs ∧ s.lastRequest.toNat + 1 ≠ UInt64.size ∧
        pull = Session.asking s.numbered.lastRequest runs ∧ session = s.numbered ∧
        out.sent = s.numbered.requests runs := by
  rcases Session.startPull_eq_ok h with hnone | ⟨runs, hruns, hroom, -, rfl, rfl, rfl⟩
  · exact Or.inl hnone
  · exact Or.inr ⟨runs, hruns, hroom, rfl, rfl, (sendAll_line _).1⟩

theorem tick_line (hroom : s.clock.toNat + 1 ≠ UInt64.size) :
    s.tick line = .ok () (s.moved, { line with sent := s.moved.ticks }) := by
  have hsent := Outbox.sendAll_eq (show line.cut = [] from rfl) s.moved.ticks
  unfold Session.moved Session.ticks at hsent
  rw [Session.tick, if_neg hroom]
  simp only [hsent]
  rfl

section Routes

variable (hascending : keys.Pairwise (· ≤ ·)) (hroutes : ∀ key ∈ keys, s.layout.Routes key)

include hascending hroutes

/-- A batch of owned keys is sent on. -/
theorem push_of_routes {values : List τ.Value} (hlength : keys.length = values.length) :
    ∃ out, s.push line keys values = .ok () out ∧ s.layout.OneEach keys out.sent := by
  obtain ⟨runs, hruns⟩ := Layout.runs_eq_ok hascending hroutes
  refine ⟨_, push_line hruns hlength, Layout.oneEach_of_cut (Layout.cut_of_runs hruns).1 ?_⟩
  rw [Session.updates, List.map_map]
  rfl

/-- A batch of owned keys is asked for, as long as there are numbers for reads. -/
theorem startPull_of_routes (hroom : keys ≠ [] → s.lastRequest.toNat + 1 ≠ UInt64.size) :
    ∃ pull session out, s.startPull line keys = .ok pull (session, out) ∧
      s.layout.OneEach keys out.sent := by
  by_cases hkeys : keys = []
  · subst hkeys
    exact ⟨_, _, _, rfl, by simp [line], by simp [line]⟩
  · obtain ⟨runs, hruns⟩ := Layout.runs_eq_ok hascending hroutes
    refine ⟨_, _, _, startPull_line hruns hkeys (hroom hkeys),
      Layout.oneEach_of_cut (Layout.cut_of_runs hruns).1 ?_⟩
    rw [Session.requests, List.map_map]
    rfl

theorem startPull_of_full (hkeys : keys ≠ []) (hfull : s.lastRequest.toNat + 1 = UInt64.size) :
    s.startPull line keys = .fault .addOverflow := by
  obtain ⟨runs, hruns⟩ := Layout.runs_eq_ok hascending hroutes
  have hempty : ¬keys.isEmpty = true := by simpa using hkeys
  rw [Session.startPull, if_neg hempty, hruns]
  simp only [if_pos hfull]

end Routes

end Line

section Turns

variable {site : Site τ} {shards : ThreadId → Host τ} {w : ThreadId} {worker : Client τ}
  (h : worker.Attended site shards w) (hw : w ∈ site.workers) (hidle : worker.call = none)
  {keys : List Key} {session : Session τ} {out : Outbox}

include h hw hidle

theorem turn_of_push {values : List τ.Value}
    (hpush : worker.session.push line keys values = .ok () out) :
    worker.Turn site w worker.session worker.call out.sent ∧ keys.length = values.length ∧
      ∃ runs, worker.session.layout.runs keys = .ok runs ∧
        out.sent = worker.session.updates values runs := by
  obtain ⟨hlength, runs, hruns, -, rfl⟩ := Session.push_eq_ok hpush
  have hsends := sends_updates hw h.worker_eq h.layout_eq hruns hlength
  rw [(sendAll_line _).1]
  refine ⟨⟨UInt64.le_refl _, hsends, h.worker_eq, h.layout_eq, rfl, ?_, ?_⟩, hlength, runs, hruns,
    rfl⟩
  · rw [hidle, filter_of_forall_ne Session.op_of_updates]
    exact (h.idle hidle).1
  · intro call hcall
    rw [hidle] at hcall
    cases hcall

theorem turn_of_tick (htick : worker.session.tick line = .ok () (session, out)) :
    worker.Turn site w session worker.call out.sent ∧
      worker.session.clock.toNat + 1 ≠ UInt64.size ∧ session = worker.session.moved ∧
      out.sent = session.ticks := by
  obtain ⟨hroom, rfl, -, rfl⟩ := Session.tick_eq_ok htick
  have hsends := sends_ticks (s := worker.session.moved) hw h.worker_eq h.layout_eq
  rw [(sendAll_line _).1]
  refine ⟨⟨Session.clock_le_moved hroom, hsends, h.worker_eq, h.layout_eq, rfl, ?_, ?_⟩, hroom, rfl,
    rfl⟩
  · rw [hidle, filter_of_forall_ne Session.op_of_ticks]
    exact Session.owes_congr (h.idle hidle).1 rfl rfl
  · intro call hcall
    rw [hidle] at hcall
    cases hcall

theorem turn_of_ask {pull : Pull τ}
    (hask : worker.session.startPull line keys = .ok pull (session, out)) :
    worker.Turn site w session (some { clock := worker.session.clock, keys, pull }) out.sent ∧
      session.clock = worker.session.clock ∧ ∀ m ∈ out.sent, m.op = .get := by
  have howes := (h.idle hidle).1
  rcases startPull_line_cases hask with ⟨rfl, rfl, rfl, rfl⟩ | ⟨runs, hruns, hroom, rfl, rfl, hsent⟩
  · refine ⟨⟨UInt64.le_refl _, ?_, h.worker_eq, h.layout_eq, rfl,
      Session.owes_nothing howes _, ?_⟩, rfl, ?_⟩
    · intro m hm
      cases hm
    · intro call hcall
      obtain rfl := Option.some.inj hcall
      exact ⟨rfl, rfl, by simp [Pull.Backed], Layout.cut_nil ..⟩
    · intro m hm
      cases hm
  · have hsends := sends_requests (s := worker.session.numbered) hw h.worker_eq h.layout_eq hruns
    have hcut := (Layout.cut_of_runs hruns).1
    rw [hsent]
    refine ⟨⟨UInt64.le_refl _, hsends, h.worker_eq, h.layout_eq, rfl, ?_, ?_⟩, rfl,
      Session.op_of_requests⟩
    · have hgets : ((worker.session.numbered.requests runs).filter
          fun m => decide (m.op = .get)) = worker.session.numbered.requests runs :=
        filter_of_forall_eq Session.op_of_requests
      exact hgets.symm ▸ Session.owes_ask howes hroom hcut.distinct
    · intro call hcall
      obtain rfl := Option.some.inj hcall
      refine ⟨rfl, rfl, Session.backed_asking _ _ _, ?_⟩
      rw [Session.runs_asking, ← h.layout_eq]
      exact hcut

end Turns

/-- **There is nothing else to do for a worker.** It makes a call, and moves its clock on or leaves
its clock messages as they are; or it sends nothing and stays where it is. -/
theorem acts_cases {site : Site τ} {shards : ThreadId → Host τ} {w : ThreadId}
    {worker worker' : Client τ} {ms : List Message} {gots : List (Got τ)}
    (h : worker.Attended site shards w) (hw : w ∈ site.workers)
    (hact : Acts w worker worker' ms gots) :
    (worker.call = none ∧ gots = [] ∧ ∃ session asked, worker' = ⟨session, worker.inbox, asked⟩ ∧
      worker.Turn site w session asked ms ∧
      ((session.clock = worker.session.clock ∧ ∀ m ∈ ms, m.op ≠ .clock) ∨
        (worker.session.clock.toNat + 1 ≠ UInt64.size ∧ session = worker.session.moved ∧
          ms = session.ticks))) ∨
    (ms = [] ∧ worker'.session.clock = worker.session.clock ∧ worker'.Attended site shards w ∧
      ∀ got ∈ gots, Sourced site.layout got.answers got.request got.keys got.values ∧
        ∀ a ∈ got.answers, a.clock = got.clock ∧ site.Said shards a) := by
  cases hact with
  | push hidle hpush =>
    rcases hpush with ⟨_, hpush⟩ | ⟨why, hpush⟩
    · obtain ⟨hturn, -, runs, -, hsent⟩ := turn_of_push h hw hidle hpush
      refine Or.inl ⟨hidle, rfl, _, _, rfl, hturn, Or.inl ⟨rfl, ?_⟩⟩
      rw [hsent]
      exact fun m hm => by simp [Session.adds_of_updates m hm]
    · rcases Session.push_eq_error hpush with ⟨rfl, -⟩ | ⟨runs, -, -, hsome, -⟩
      · exact Or.inr ⟨rfl, rfl, h, by simp⟩
      · rw [(sendAll_line _).2.2] at hsome
        cases hsome
  | tick hidle htick =>
    rcases htick with ⟨_, htick⟩ | ⟨why, htick⟩
    · obtain ⟨hturn, hroom, hmoved, hsent⟩ := turn_of_tick h hw hidle htick
      exact Or.inl ⟨hidle, rfl, _, _, rfl, hturn, Or.inr ⟨hroom, hmoved, hsent⟩⟩
    · obtain ⟨-, hsome, -⟩ := Session.tick_eq_error htick
      rw [(sendAll_line _).2.2] at hsome
      cases hsome
  | ask hidle hask =>
    obtain ⟨hturn, hclock, hgets⟩ := turn_of_ask h hw hidle hask
    exact Or.inl ⟨hidle, rfl, _, _, rfl, hturn,
      Or.inl ⟨hclock, fun m hm => by simp [hgets m hm]⟩⟩
  | askFails hidle hask =>
    rcases Session.startPull_eq_error hask with ⟨rfl, rfl, -⟩ | ⟨runs, -, -, hsome, -⟩
    · exact Or.inr ⟨rfl, rfl, h, by simp⟩
    · rw [(sendAll_line _).2.2] at hsome
      cases hsome
  | wait hcall hinbox hcollect =>
    obtain ⟨hsame, hattended⟩ := h.wait hcall hinbox hcollect
    exact Or.inr ⟨rfl, by rw [hsame], hattended, by simp⟩
  | finish hcall hinbox hcollect =>
    obtain ⟨hsame, hattended, hsourced, hsaid⟩ := h.finish hcall hinbox hcollect
    refine Or.inr ⟨rfl, by rw [hsame], hattended, ?_⟩
    intro got hgot
    rw [List.mem_singleton.mp hgot]
    exact ⟨hsourced, hsaid⟩
  | finishFails hcall hinbox hcollect =>
    exact absurd hcollect (h.collect_ne_failed hcall hinbox)

end World

end ParamServer
