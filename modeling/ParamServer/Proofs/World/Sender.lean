import ParamServer.Proofs.Tablet.Refusal
import ParamServer.Proofs.World.Shard

/-!
# A shard and one of its workers

What a shard does for one worker when nothing is known of the others: they send it what they like,
and turn up in the middle. The worker's own messages reach the shard in the order in which it sent
them, so a read that the shard answers has all the worker's updates of its keys behind it. What of
them waits lies beyond the minimum, and a read that passes a barrier does not; so none of them waits
(`Minds.tells`).
-/

namespace ParamServer

variable {τ : ScalarType}

/-- No shard turns the workers away, whatever its rule is. -/
def Site.Welcoming (site : Site τ) : Prop := site.Welcomes fun _ => True

namespace Host

/-- What the worker has sent to the shard, handled or not, in its order. -/
def own (host : Host τ) (w : ThreadId) : List Message :=
  (host.log.map (·.message) ++ host.queue).filter fun m => decide (m.sender = w)

variable {site : Site τ} {q : Piece} {w : ThreadId} {host : Host τ} {m : Message}
  {rest : List Message} {s : Step τ}

theorem own_push (host : Host τ) (ms : List Message) (w : ThreadId) :
    own { host with queue := host.queue ++ ms } w =
      host.own w ++ ms.filter fun m => decide (m.sender = w) := by
  rw [own, own, ← List.filter_append, List.append_assoc]

theorem own_serve (hqueue : host.queue = m :: rest) (hmessage : s.message = m) :
    own ⟨s.after, rest, host.log ++ [s]⟩ w = host.own w := by
  simp only [own, hqueue, List.map_append, List.map_singleton, hmessage, List.append_assoc,
    List.singleton_append]

/-- The shard takes in what the worker sends, and forgets none of it. -/
structure Minds (site : Site τ) (q : Piece) (w : ThreadId) (host : Host τ) : Prop where
  serves : ∃ spec, host.tablet.Serves spec q.range
  welcome : host.tablet.slice.roster.check w = .ok ()
  books : ∃ landed, host.tablet.Books q.range landed (Step.taken .add host.log)
  taken : ((Step.taken .add host.log).filter fun m => decide (m.sender = w)) =
    ((host.log.map (·.message)).filter fun m => decide (m.sender = w)).filter
      fun m => decide (m.op = .add)
  asked : ∀ g ∈ host.tablet.slice.waiting.asking .get, g ∈ host.log.map (·.message)
  plain : ∀ m ∈ host.queue, m.op ≠ .resetWorkers
  fit : ∀ m ∈ host.own w, site.Fit q m

theorem minds_of_push (h : host.Minds site q w) {ms : List Message}
    (hplain : ∀ m ∈ ms, m.op ≠ .resetWorkers) (hfit : ∀ m ∈ ms, m.sender = w → site.Fit q m) :
    Minds site q w { host with queue := host.queue ++ ms } where
  serves := h.serves
  welcome := h.welcome
  books := h.books
  taken := h.taken
  asked := h.asked
  plain k hk := (List.mem_append.mp hk).elim (h.plain k) (hplain k)
  fit k hk := by
    rw [own_push] at hk
    rcases List.mem_append.mp hk with hold | hnew
    · exact h.fit k hold
    · obtain ⟨hnew, hsender⟩ := List.mem_filter.mp hnew
      exact hfit k hnew (of_decide_eq_true hsender)

theorem minds_of_welcoming (hwelcoming : site.Welcoming) (hw : w ∈ site.workers)
    (hq : q ∈ site.layout.pieces) : Minds site q w ⟨site.tablet q.shard, [], []⟩ := by
  obtain ⟨spec, fresh, -, hnew, hstart⟩ := hwelcoming q hq
  have hserves := Tablet.serves_new hnew
  have hbooks := Tablet.books_of_new hnew
  obtain ⟨store, gate, -, -, rfl⟩ := Tablet.eq_of_new hnew
  rcases hstart with hfresh | ⟨reset, keys, listed, ack, hop, hkeys, hlisted, hall, hpin⟩
  · rw [hfresh]
    exact ⟨⟨spec, hserves⟩, Roster.check_empty w, ⟨[], hbooks⟩, rfl, by rintro g ⟨⟩,
      by rintro m ⟨⟩, by rintro m ⟨⟩⟩
  · have hmove := Tablet.move_of_handle hserves.toSound reset hpin
    have hclosed := Tablet.serves_of_move hserves hmove
    rw [Tablet.eq_of_reset hserves.toSound hop hkeys hlisted hpin] at hclosed ⊢
    exact ⟨⟨spec, hclosed⟩, Roster.check_reset .empty (hall w hw), ⟨[], hbooks.all, hbooks.sums⟩,
      rfl, by rintro g ⟨⟩, by rintro m ⟨⟩, by rintro m ⟨⟩⟩

theorem taken_of_welcome {spec : TableSpec} {t : Tablet τ} (hs : t.Serves spec q.range)
    (hwelcome : t.slice.roster.check m.sender = .ok ()) (hfit : site.Fit q m)
    (hstep : t.step m = .ok s) :
    Step.taken .add [s] = [m].filter fun m => decide (m.op = .add) := by
  have hmessage := Tablet.message_of_step hstep
  by_cases hop : m.op = .add
  · have hadmits : t.Admits m := by
      simp only [Tablet.Admits, hop, hs.range_eq]
      exact ⟨Roster.check_eq_ok_iff.mp hwelcome, hfit.adds hop⟩
    have hok := (Tablet.isOk_iff_admits hs.toSound hstep).mpr hadmits
    simp [Step.taken, Step.took, hok, hmessage, hop]
  · rw [Step.taken_of_ne (hmessage ▸ hop)]
    simp [hop]

theorem message_of_taken {op : Op} (hmessage : s.message = m) :
    ∀ k ∈ Step.taken op [s], k = m := by
  intro k hk
  obtain ⟨s', hs', -, rfl⟩ := Step.mem_taken_iff.mp hk
  rw [List.mem_singleton.mp hs', hmessage]

section Serve

variable (h : host.Minds site q w) (hqueue : host.queue = m :: rest)
  (hstep : host.tablet.step m = .ok s)

include h hqueue hstep

/-- **One message handled.** -/
theorem minds_of_serve : Minds site q w ⟨s.after, rest, host.log ++ [s]⟩ := by
  obtain ⟨spec, hserves⟩ := h.serves
  have hmessage := Tablet.message_of_step hstep
  have hop : m.op ≠ .resetWorkers := h.plain m (hqueue ▸ List.mem_cons_self ..)
  have hown := own_serve (w := w) hqueue hmessage
  refine ⟨⟨spec, Tablet.serves_of_step hserves hstep⟩,
    Tablet.check_of_step hserves hop hstep h.welcome, ?_, ?_, ?_, ?_, ?_⟩
  · obtain ⟨landed, hbooks⟩ := h.books
    obtain ⟨more, -, hafter⟩ := Tablet.books_of_step hserves hbooks hstep
    exact ⟨landed ++ more, by rw [Step.taken_append]; exact hafter⟩
  · simp only [Step.taken_append, List.filter_append, h.taken, List.map_append,
      List.map_singleton, hmessage]
    congr 1
    by_cases hsender : m.sender = w
    · have hfit := h.fit m (by simp [own, hqueue, hsender])
      rw [taken_of_welcome hserves (hsender ▸ h.welcome) hfit hstep]
      exact List.filter_comm ..
    · have hnone : ∀ k ∈ Step.taken .add [s], k.sender ≠ w := fun k hk =>
        message_of_taken hmessage k hk ▸ hsender
      rw [filter_of_forall_ne hnone, filter_of_forall_ne (l := [m]) (by simpa using hsender)]
      rfl
  · intro g hg
    have hdue := ((Tablet.reads_of_step hserves hstep).2.mem_iff.mp hg)
    rw [List.map_append, List.map_singleton, hmessage]
    rcases List.mem_append.mp (List.mem_filter.mp hdue).1 with hold | hnew
    · exact List.mem_append_left _ (h.asked g hold)
    · exact List.mem_append_right _ (List.mem_singleton.mpr (message_of_taken hmessage g hnew))
  · exact fun k hk => h.plain k (hqueue ▸ List.mem_cons_of_mem _ hk)
  · rw [hown]
    exact h.fit

/-- An answer to the worker is to a sound read that it has sent and the shard has handled, and that
the gate is open to. -/
theorem exists_read {a : Message} (ha : a ∈ s.answers) (hreceiver : a.receiver = w) :
    ∃ g ∈ ((host.log ++ [s]).map (·.message)).filter fun m => decide (m.sender = w),
      g ∈ host.own w ∧ g.op = .get ∧ g.ReadsIn q.range ∧ s.after.passes g = true ∧
      a = g.answerFrom s.after.slice.store := by
  obtain ⟨spec, hserves⟩ := h.serves
  have hmessage := Tablet.message_of_step hstep
  obtain ⟨g, hg, hpasses, rfl⟩ := Tablet.read_of_answer hserves hstep ha
  suffices hread : g ∈ (host.log ++ [s]).map (·.message) ∧ g.op = .get ∧ g.ReadsIn q.range by
    have hmine : g ∈ ((host.log ++ [s]).map (·.message)).filter fun m => decide (m.sender = w) :=
      List.mem_filter.mpr ⟨hread.1, decide_eq_true hreceiver⟩
    refine ⟨g, hmine, ?_, hread.2.1, hread.2.2, hpasses, rfl⟩
    rw [← own_serve (w := w) hqueue hmessage, own, List.filter_append]
    exact List.mem_append_left _ hmine
  rw [List.map_append, List.map_singleton, hmessage]
  rcases List.mem_append.mp hg with hold | hnew
  · obtain ⟨e, he, rfl⟩ := List.mem_map.mp hold
    obtain ⟨he, hget⟩ := List.mem_filter.mp he
    have hop := of_decide_eq_true hget
    refine ⟨List.mem_append_left _ (h.asked e.2 hold), hop, ?_⟩
    rcases (hserves.parked e he).fit with hread | hadd
    · exact hserves.range_eq ▸ hread.2
    · rw [hadd.1] at hop
      cases hop
  · obtain rfl := message_of_taken hmessage g hnew
    obtain ⟨s', -, htook, hsame⟩ := Step.mem_taken_iff.mp hnew
    exact ⟨List.mem_append_right _ (List.mem_singleton_self g), hsame ▸ Step.op_of_took htook,
      Tablet.readsIn_of_step hserves hstep g hnew⟩

end Serve

/-- The answer gives a read the sums of updates that have landed at the shard, no matter whose they
are, and the worker's own are among them, each once. -/
def Tells (host : Host τ) (q : Piece) (w : ThreadId) (a : Message) : Prop :=
  ∃ (g : Message) (store : Store τ) (landed : List Message), g.ReadsIn q.range ∧
    a = g.answerFrom store ∧ landed.Subperm (Step.taken .add host.log) ∧
    (∀ key ∈ q.range, (deltasAt key (landed.flatMap (·.updates τ))).foldlM τ.add τ.zero =
      .ok (store.value key)) ∧
    (landed.filter fun m => decide (m.sender = w)).Perm
      ((host.own w).filter fun m => decide (m.op = .add))

theorem Tells.mono {host' : Host τ} {a : Message} (h : host.Tells q w a)
    (hlog : ∃ more, host'.log = host.log ++ more) (hown : host'.own w = host.own w) :
    host'.Tells q w a := by
  obtain ⟨more, hmore⟩ := hlog
  obtain ⟨g, store, landed, hreads, ha, hlanded, hsums, hall⟩ := h
  refine ⟨g, store, landed, hreads, ha, ?_, hsums, by rwa [hown]⟩
  rw [hmore, Step.taken_append]
  exact hlanded.trans (List.sublist_append_left ..).subperm

/-- The worker's latest message to the shard is its read number `request`. -/
def Last (host : Host τ) (w : ThreadId) (request : RequestId) (clock : Clock) : Prop :=
  ∃ front g, host.own w = front ++ [g] ∧ g.clock = clock ∧
    ∀ k ∈ front, k.op = .get → k.request ≠ request

/-- As soon as the shard has handled it, it has handled all the others. -/
theorem Last.handled_eq {request : RequestId} {clock : Clock} (h : host.Last w request clock)
    {handled ahead : List Message} (hsplit : handled ++ ahead = host.own w) {g : Message}
    (hg : g ∈ handled) (hop : g.op = .get) (hrequest : g.request = request) :
    handled = host.own w ∧ g.clock = clock := by
  obtain ⟨front, latest, hparts, hlatest, hfront⟩ := h
  -- It is not among the earlier ones, so it is the last, and nothing is still ahead.
  have hnew : g ∉ front := fun hold => hfront g hold hop hrequest
  rcases List.append_eq_append_iff.mp (hsplit.trans hparts) with
    ⟨more, rfl, -⟩ | ⟨more, rfl, hends⟩
  · exact absurd (List.mem_append_left _ hg) hnew
  · have hmem := (List.mem_append.mp hg).resolve_left hnew
    rw [List.singleton_eq_append_iff] at hends
    rcases hends with ⟨rfl, -⟩ | ⟨rfl, -⟩
    · cases hmem
    · exact ⟨hparts.symm, List.mem_singleton.mp hmem ▸ hlatest⟩

/-- What waits is beyond a barrier, so where the gate is open to the worker nothing of it does. -/
theorem Minds.sender_ne_of_waiting (h : host.Minds site q w) {g : Message}
    (hpasses : host.tablet.passes g = true) (hpast : ∀ k ∈ host.own w, k.clock ≤ g.clock) :
    ∀ k ∈ host.tablet.slice.waiting.asking .add, k.sender ≠ w := by
  obtain ⟨spec, hserves⟩ := h.serves
  obtain ⟨landed, hbooks⟩ := h.books
  intro k hk hsender
  by_cases hgate : host.tablet.gate = .barrier
  · have hreached : g.clock ≤ host.tablet.slice.minClock := by
      simpa [Tablet.passes, hgate, Gate.passes, Gate.early, Gate.due] using hpasses
    have hmine : k ∈ (Step.taken .add host.log).filter fun m => decide (m.sender = w) :=
      List.mem_filter.mpr
        ⟨hbooks.all.mem_iff.mp (List.mem_append_right _ hk), decide_eq_true hsender⟩
    rw [h.taken] at hmine
    have hown : k ∈ host.own w := by
      rw [own, List.filter_append]
      exact List.mem_append_left _ (List.mem_filter.mp hmine).1
    have hlate := UInt64.lt_of_lt_of_le (Tablet.late_of_asking hserves k hk) (hpast k hown)
    exact UInt64.lt_irrefl _ (UInt64.lt_of_lt_of_le hlate hreached)
  · rw [Tablet.asking_add_of_not_barrier hserves.toSound hgate] at hk
    cases hk

/-- **Own writes.** When a shard answers the worker's latest message, it has handled all the others
before, and none of the updates among them waits. -/
theorem Minds.tells (h : host.Minds site q w) (hqueue : host.queue = m :: rest)
    (hstep : host.tablet.step m = .ok s) {request : RequestId} {clock : Clock}
    (hlast : host.Last w request clock) (hpast : ∀ k ∈ host.own w, k.clock ≤ clock) {a : Message}
    (ha : a ∈ s.answers) (hreceiver : a.receiver = w) (hrequest : a.request = request) :
    Tells ⟨s.after, rest, host.log ++ [s]⟩ q w a := by
  obtain ⟨g, hg, -, hop, hreads, hpasses, rfl⟩ := exists_read h hqueue hstep ha hreceiver
  have hafter := minds_of_serve h hqueue hstep
  have hown := own_serve (w := w) hqueue (Tablet.message_of_step hstep)
  have hsplit := hown
  rw [own, List.filter_append] at hsplit
  obtain ⟨hall, rfl⟩ := hlast.handled_eq hsplit hg hop hrequest
  have hlanded := hafter.sender_ne_of_waiting hpasses (hown ▸ hpast)
  obtain ⟨landed, hbooks⟩ := hafter.books
  refine ⟨g, s.after.slice.store, landed, hreads, rfl, ?_, hbooks.sums, ?_⟩
  · exact (List.sublist_append_left ..).subperm.trans hbooks.all.subperm
  · calc landed.filter (fun m => decide (m.sender = w))
        = (landed ++ s.after.slice.waiting.asking .add).filter
            fun m => decide (m.sender = w) := by
          rw [List.filter_append, filter_of_forall_ne hlanded, List.append_nil]
      _ |>.Perm ((Step.taken .add (host.log ++ [s])).filter fun m => decide (m.sender = w)) :=
        hbooks.all.filter _
      _ = (host.own w).filter fun m => decide (m.op = .add) := by
        rw [← hall]
        exact hafter.taken
      _ = (own ⟨s.after, rest, host.log ++ [s]⟩ w).filter fun m => decide (m.op = .add) := by
        rw [hown]

end Host

end ParamServer
