import ParamServer.Proofs.Cluster
import ParamServer.Proofs.Session.Answered
import ParamServer.Proofs.Shard.Turn

/-!
# Handles and inboxes

Who has an inbox is decided in three places. A handle opens one and closes it, and a table that is
initialized has one for as long as that takes, in the name of a thread that no worker can have. All
else, creations, reads and updates, and the shards at their work, changes queues and leaves the
register of inboxes alone (`Cluster.Keeps`). So the register is the list of the handles that are out
(`Cluster.inboxes_follow_handles`), and a worker that has given its handle up can have another.
-/

namespace ParamServer

namespace Exchange

variable {e e' : Exchange} {m : Message}

/-! ### What a message leaves alone -/

theorem inboxes_of_send (h : e.send m = .ok e') : e'.inboxes = e.inboxes := by
  obtain ⟨channel, -, hcarried⟩ := exists_of_bind h
  obtain ⟨carried, -, hsent⟩ := exists_of_bind hcarried
  split at hsent
  · obtain rfl := Except.ok.inj hsent
    rfl
  · cases hsent

theorem inboxes_trySend (e : Exchange) (m : Message) :
    (Courier.trySend e m).inboxes = e.inboxes := by
  unfold Courier.trySend
  split
  case h_1 hsend => exact inboxes_of_send hsend
  case h_2 => rfl

theorem inboxes_trySends (e : Exchange) (ms : List Message) :
    (ms.foldl Courier.trySend e).inboxes = e.inboxes := by
  induction ms generalizing e with
  | nil => rfl
  | cons m rest ih => rw [List.foldl_cons, ih, inboxes_trySend]

theorem inboxes_sendAll (e : Exchange) (ms : List Message) :
    (Courier.sendAll e ms).courier.inboxes = e.inboxes := by
  induction ms generalizing e with
  | nil => rfl
  | cons m rest ih =>
    rw [Courier.sendAll]
    split
    case h_1 => rfl
    case h_2 hsend =>
      dsimp only
      rw [ih, inboxes_of_send hsend]

theorem inboxes_of_receive {channel : ChannelId} (h : e.receive channel = some (m, e')) :
    e'.inboxes = e.inboxes := by
  unfold receive at h
  split at h
  case h_1 => cases h
  case h_2 =>
    obtain ⟨-, rfl⟩ := Prod.mk.inj (Option.some.inj h)
    rfl

end Exchange

namespace Shard

theorem inboxes_handle (s : Shard) (e : Exchange) (m : Message) :
    (s.handle e m).2.2.inboxes = e.inboxes := by
  have htakes := takes_handle s e m
  cases hends : (s.handle e m).1.ends with
  | false =>
    rw [(htakes.goes_on hends).2]
    exact Exchange.inboxes_trySends ..
  | true =>
    obtain ⟨-, -, hgone⟩ := htakes.crashes hends
    rw [hgone]
    rfl

theorem inboxes_turn (s : Shard) (e : Exchange) (which : Turn) :
    (s.turn e which).2.2.inboxes = e.inboxes := by
  rcases turn_queue_cases s e which with hquiet | ⟨m, e', hreceive, -, hcase⟩ | ⟨-, -, hcase⟩
  · rw [hquiet.exchange]
  · rw [hcase, inboxes_handle, Exchange.inboxes_of_receive hreceive]
  · rw [hcase]
    rfl

theorem inboxes_run (n : Nat) (s : Shard) (e : Exchange) :
    (s.run n e).1.id = s.id ∧ (s.run n e).2.inboxes = e.inboxes := by
  induction n generalizing s e with
  | zero => exact ⟨rfl, rfl⟩
  | succ n ih =>
    have hid := (later_of_turn s e).id
    have hinboxes := inboxes_turn s e .message
    rw [run]
    rcases hcase : s.turn e .message with ⟨event, s', e'⟩
    rw [hcase] at hid hinboxes
    obtain ⟨hid', hinboxes'⟩ := ih s' e'
    cases event with
    | idle => exact ⟨hid, hinboxes⟩
    | _ => exact ⟨hid'.trans hid, hinboxes'.trans hinboxes⟩

end Shard

namespace Session

variable {τ : ScalarType} {s s' : Session τ} {e e' : Exchange} {keys : List Key}

/-! ### What a worker's calls leave alone -/

theorem inboxes_of_push {values : List τ.Value} (h : (s.push e keys values).Leaves e') :
    e'.inboxes = e.inboxes := by
  rcases h with ⟨_, h⟩ | ⟨why, h⟩
  · obtain ⟨-, runs, -, -, rfl⟩ := push_eq_ok h
    exact Exchange.inboxes_sendAll ..
  · rcases push_eq_error h with ⟨rfl, -⟩ | ⟨runs, -, -, -, rfl⟩
    · rfl
    · exact Exchange.inboxes_sendAll ..

theorem inboxes_of_tick (h : (s.tick e).Leaves (s', e')) :
    (s'.worker = s.worker ∧ s'.table = s.table) ∧ e'.inboxes = e.inboxes := by
  rcases h with ⟨_, h⟩ | ⟨why, h⟩
  · obtain ⟨-, rfl, -, rfl⟩ := tick_eq_ok h
    exact ⟨⟨rfl, rfl⟩, Exchange.inboxes_sendAll ..⟩
  · obtain ⟨rfl, -, rfl⟩ := tick_eq_error h
    exact ⟨⟨rfl, rfl⟩, Exchange.inboxes_sendAll ..⟩

theorem inboxes_of_startPull (h : (s.startPull e keys).Leaves (s', e')) :
    (s'.worker = s.worker ∧ s'.table = s.table) ∧ e'.inboxes = e.inboxes := by
  rcases h with ⟨_, h⟩ | ⟨why, h⟩
  · rcases startPull_eq_ok h with ⟨-, -, rfl, rfl⟩ | ⟨runs, -, -, -, -, rfl, rfl⟩
    · exact ⟨⟨rfl, rfl⟩, rfl⟩
    · exact ⟨⟨rfl, rfl⟩, Exchange.inboxes_sendAll ..⟩
  · rcases startPull_eq_error h with ⟨rfl, rfl, -⟩ | ⟨runs, -, -, -, rfl, rfl⟩
    · exact ⟨⟨rfl, rfl⟩, rfl⟩
    · rw [abandon_eq]
      exact ⟨⟨rfl, rfl⟩, Exchange.inboxes_sendAll ..⟩

end Session

namespace Exchange

variable {e e' : Exchange} {thread : ThreadId} {table : TableId} {channel : ChannelId}

/-! ### Opening and closing -/

theorem openInbox_of_free (h : e.inboxes.get? (thread, table) = none) :
    ∃ opened, e.openInbox thread table = .ok opened := by
  have hfree : e.inboxes.contains (thread, table) = false := by
    rw [SortedMap.contains, h, Option.isSome_none]
  simp only [openInbox, hfree, Bool.false_eq_true, ↓reduceIte, Except.ok.injEq, exists_eq']

theorem openInbox_of_taken (h : e.inboxes.get? (thread, table) = some channel) :
    e.openInbox thread table = .error (.transport (.inboxTaken thread table)) := by
  rw [openInbox, if_pos (SortedMap.contains_iff.mpr ⟨channel, h⟩)]

theorem openInbox_eq_ok (h : e.openInbox thread table = .ok (channel, e')) :
    e.inboxes.get? (thread, table) = none ∧
      e'.inboxes = e.inboxes.insert (thread, table) channel := by
  cases hget : e.inboxes.get? (thread, table) with
  | some other =>
    rw [openInbox_of_taken hget] at h
    cases h
  | none =>
    unfold openInbox at h
    split at h
    · cases h
    · obtain ⟨rfl, rfl⟩ := Prod.mk.inj (Except.ok.inj h)
      exact ⟨rfl, rfl⟩

end Exchange

namespace Cluster

variable {τ : ScalarType} {spec : TableSpec} {table : TableId} {c c' c'' : Cluster}
  {hd hd' : Handle τ}

/-! ### What leaves the register alone -/

/-- No inbox is opened or closed, the shards are the same, and no table is lost. -/
structure Keeps (c c' : Cluster) : Prop where
  inboxes : c'.exchange.inboxes = c.exchange.inboxes
  shards : c'.shardIds = c.shardIds
  tables : ∀ table entry, c.tables.get? table = some entry → c'.tables.get? table = some entry

theorem keeps_refl (c : Cluster) : c.Keeps c := ⟨rfl, rfl, fun _ _ h => h⟩

theorem Keeps.trans (h : c.Keeps c') (h' : c'.Keeps c'') : c.Keeps c'' :=
  ⟨h'.inboxes.trans h.inboxes, h'.shards.trans h.shards,
    fun table entry hget => h'.tables table entry (h.tables table entry hget)⟩

theorem settleShards_keeps (e : Exchange) (shards : List Shard) :
    (settleShards e shards).1.map (·.id) = shards.map (·.id) ∧
      (settleShards e shards).2.inboxes = e.inboxes := by
  induction shards generalizing e with
  | nil => exact ⟨rfl, rfl⟩
  | cons s rest ih =>
    obtain ⟨hid, hinboxes⟩ := Shard.inboxes_run ((e.queue s.channel).length + 2) s e
    obtain ⟨hids, hinboxes'⟩ := ih (s.settle e).2
    constructor
    · exact congrArg₂ List.cons hid hids
    · exact hinboxes'.trans hinboxes

theorem inboxes_of_openShards {e : Exchange} {ids : List ThreadId} {opened : List Shard × Exchange}
    (h : openShards e ids = .ok opened) : opened.2.inboxes = e.inboxes := by
  induction ids generalizing e opened with
  | nil =>
    obtain rfl := Except.ok.inj h
    rfl
  | cons id rest ih =>
    rw [openShards] at h
    obtain ⟨⟨channel, e₁⟩, hopen, hlater⟩ := exists_of_bind h
    obtain ⟨later, hrest, hsame⟩ := exists_of_bind hlater
    obtain rfl := Except.ok.inj hsame
    refine (ih hrest).trans ?_
    unfold Exchange.openShard at hopen
    split at hopen
    · cases hopen
    · obtain ⟨-, rfl⟩ := Prod.mk.inj (Except.ok.inj hopen)
      rfl

theorem keeps_settle {e : Exchange} (h : e.inboxes = c.exchange.inboxes) :
    c.Keeps { c with exchange := e }.settle :=
  have hsettled := settleShards_keeps e c.shards
  ⟨hsettled.2.trans h, hsettled.1, fun _ _ hget => hget⟩

theorem reserved_of_keeps (h : c.Keeps c') (worker : ThreadId) :
    c'.reserved worker = c.reserved worker := by
  rw [reserved, reserved, h.shards]

theorem keeps_of_creates (hlives : c.Lives) {o : Outcome Cluster Layout}
    (hcall : c.Creates τ table spec o) (hleft : o.Leaves c') : c.Keeps c' := by
  rcases creates_cases (coherent_of_lives hlives) hcall with
    ⟨why, rfl⟩ | ⟨why, rfl⟩ | ⟨layout, c₁, rfl, hcreated⟩ | ⟨why, c₁, rfl, hcut⟩
  · exact (Outcome.leaves_fault.mp hleft).elim
  · obtain rfl := Outcome.leaves_error.mp hleft
    exact keeps_refl c'
  · obtain rfl := Outcome.leaves_ok.mp hleft
    obtain ⟨hfree, pairs, hpairs, -, -, rfl⟩ := hcreated
    refine ⟨rfl, ?_, fun other entry hget => ?_⟩
    · rw [shardIds, shardIds, ← hpairs, List.map_map, List.map_map]
      rfl
    · have hne : rank other ≠ rank table := by
        intro hsame
        rw [← rank_inj hsame, SortedMap.contains, hget] at hfree
        cases hfree
      exact (SortedMap.get?_insert ..).trans ((if_neg hne).trans hget)
  · obtain rfl := Outcome.leaves_error.mp hleft
    obtain ⟨joined, gone, rest, hshards, -, -, -, rfl⟩ := hcut
    refine ⟨rfl, ?_, fun _ _ hget => hget⟩
    rw [shardIds, shardIds, hshards, List.map_append, List.map_append, List.map_map, List.map_map]
    rfl

/-- The inbox that the acknowledgements come to is closed again, whatever comes of them. -/
theorem keeps_of_initTable {workers : List ThreadId}
    (hleft : (c.initTable table workers).Leaves c') : c.Keeps c' := by
  rcases exists_of_initTable hleft with rfl | ⟨inbox, exchange, calls, settled, hopen, rfl, rfl⟩
  · exact keeps_refl c'
  obtain ⟨hfree, hinsert⟩ := Exchange.openInbox_eq_ok hopen
  obtain ⟨hids, hinboxes⟩ := settleShards_keeps (Courier.sendAll exchange calls).courier c.shards
  refine ⟨?_, hids, fun _ _ hget => hget⟩
  rw [Exchange.inboxes_sendAll, hinsert] at hinboxes
  have herased := congrArg (·.erase (controlThread, table)) hinboxes
  exact herased.trans (SortedMap.erase_insert hfree inbox)

/-! ### Handles that are out -/

/-- A handle of any element type. -/
structure Lease where
  type : ScalarType
  handle : Handle type

/-- What a handle is known by, whatever its session has come to. -/
structure Ticket where
  type : ScalarType
  worker : ThreadId
  table : TableId
  inbox : ChannelId

namespace Ticket

def address (t : Ticket) : ThreadId × TableId := (t.worker, t.table)

/-- What the register has of it. -/
def entry (t : Ticket) : (ThreadId × TableId) × ChannelId := (t.address, t.inbox)

end Ticket

def Lease.ticket (l : Lease) : Ticket :=
  ⟨l.type, l.handle.session.worker, l.handle.session.table, l.handle.inbox⟩

def Lease.address (l : Lease) : ThreadId × TableId := l.ticket.address

/-- What a worker can do with its handle, and how that leaves both. -/
inductive Uses (c : Cluster) (hd : Handle τ) : Cluster → Handle τ → Prop
  | push {c' : Cluster} {keys : List Key} {values : List τ.Value}
      (h : (c.push hd keys values).Leaves c') : Uses c hd c' hd
  | tick {c' : Cluster} {hd' : Handle τ} (h : (c.tick hd).Leaves (c', hd')) : Uses c hd c' hd'
  | startPull {c' : Cluster} {hd' : Handle τ} {keys : List Key}
      (h : (c.startPull hd keys).Leaves (c', hd')) : Uses c hd c' hd'
  | pull {c' : Cluster} {hd' : Handle τ} {keys : List Key}
      (h : (c.pull hd keys).Leaves (c', hd')) : Uses c hd c' hd'
  /-- Reads what is in the inbox, for a read that was started before. -/
  | collect {p : Pull τ} {silence : Silence} {session : Session τ} {unread : List Message}
      (h : (Session.giveUp silence (c.collect hd p)).Leaves (session, unread)) :
      Uses c hd (c.leaveUnread hd unread) { hd with session }
  /-- Reads on later. -/
  | wait {p rest : Pull τ} {session : Session τ} (h : c.collect hd p = .pending rest session) :
      Uses c hd (c.leaveUnread hd []) { hd with session }

/-- A cluster and the handles that are out, after any calls in any order. A call that fails is one
like any other; only one that faults leaves nothing to go on with. In between the shards may take
their messages. -/
inductive InUse : Cluster → List Lease → Prop
  | start {spec : ClusterSpec} {c : Cluster} (h : start spec = .ok c) : InUse c []
  | create {c c' : Cluster} {live : List Lease} {τ : ScalarType} {table : TableId}
      {spec : TableSpec} {o : Outcome Cluster Layout} (h : InUse c live)
      (hcall : c.Creates τ table spec o) (hleft : o.Leaves c') : InUse c' live
  | init {c c' : Cluster} {live : List Lease} {table : TableId} {workers : List ThreadId}
      (h : InUse c live) (hleft : (c.initTable table workers).Leaves c') : InUse c' live
  | open {c c' : Cluster} {live : List Lease} {τ : ScalarType} {worker : ThreadId}
      {table : TableId} {hd : Handle τ} (h : InUse c live)
      (hopen : c.openHandle τ worker table = .ok (hd, c')) : InUse c' (⟨τ, hd⟩ :: live)
  | use {c c' : Cluster} {before behind : List Lease} {τ : ScalarType} {hd hd' : Handle τ}
      (h : InUse c (before ++ ⟨τ, hd⟩ :: behind)) (huse : c.Uses hd c' hd') :
      InUse c' (before ++ ⟨τ, hd'⟩ :: behind)
  | close {c : Cluster} {before behind : List Lease} {l : Lease}
      (h : InUse c (before ++ l :: behind)) : InUse (c.closeHandle l.handle) (before ++ behind)
  | turn {c : Cluster} {live : List Lease} {before behind : List Shard} {s : Shard}
      (h : InUse c live) (hshards : c.shards = before ++ s :: behind) :
      InUse { c with
        shards := before ++ (s.turn c.exchange .message).2.1 :: behind
        exchange := (s.turn c.exchange .message).2.2 } live

/-- The register of inboxes is the list of the handles that are out. -/
structure Tracks (c : Cluster) (tickets : List Ticket) : Prop where
  lives : c.Lives
  inboxes : c.exchange.inboxes.entries.Perm (tickets.map (·.entry))
  unreserved : ∀ t ∈ tickets, c.reserved t.worker = false
  known : ∀ t ∈ tickets, ∃ entry, c.tables.get? t.table = some entry ∧ entry.type = t.type

theorem Tracks.keep {tickets : List Ticket} (h : c.Tracks tickets) (hlives : c'.Lives)
    (hkeeps : c.Keeps c') : c'.Tracks tickets where
  lives := hlives
  inboxes := hkeeps.inboxes ▸ h.inboxes
  unreserved t ht := (reserved_of_keeps hkeeps t.worker).trans (h.unreserved t ht)
  known t ht :=
    have ⟨entry, hget, htype⟩ := h.known t ht
    ⟨entry, hkeeps.tables t.table entry hget, htype⟩

theorem keeps_of_startPull {keys : List Key} (h : (c.startPull hd keys).Leaves (c', hd')) :
    c.Keeps c' ∧ Lease.ticket ⟨τ, hd'⟩ = Lease.ticket ⟨τ, hd⟩ := by
  obtain ⟨⟨session, exchange⟩, hstart, hsame⟩ := Outcome.exists_of_leaves_mapState h
  obtain ⟨rfl, rfl⟩ := Prod.mk.inj hsame
  obtain ⟨⟨hworker, htable⟩, hinboxes⟩ := Session.inboxes_of_startPull hstart
  exact ⟨keeps_settle hinboxes, by simp only [Lease.ticket, hworker, htable]⟩

theorem keeps_leaveUnread (c : Cluster) (hd : Handle τ) (unread : List Message) :
    c.Keeps (c.leaveUnread hd unread) :=
  ⟨rfl, rfl, fun _ _ hget => hget⟩

theorem keeps_of_uses (huse : c.Uses hd c' hd') :
    c.Keeps c' ∧ Lease.ticket ⟨τ, hd'⟩ = Lease.ticket ⟨τ, hd⟩ := by
  cases huse with
  | push h =>
    obtain ⟨exchange, hpush, rfl⟩ := Outcome.exists_of_leaves_mapState h
    exact ⟨keeps_settle (Session.inboxes_of_push hpush), rfl⟩
  | tick h =>
    obtain ⟨⟨session, exchange⟩, htick, hsame⟩ := Outcome.exists_of_leaves_mapState h
    obtain ⟨rfl, rfl⟩ := Prod.mk.inj hsame
    obtain ⟨⟨hworker, htable⟩, hinboxes⟩ := Session.inboxes_of_tick htick
    exact ⟨keeps_settle hinboxes, by simp only [Lease.ticket, hworker, htable]⟩
  | startPull h => exact keeps_of_startPull h
  | pull h =>
    rcases Outcome.exists_of_leaves_bind h with ⟨why, hstart⟩ | ⟨p, ⟨c₁, hd₁⟩, hstart, hread⟩
    · exact keeps_of_startPull (Or.inr ⟨why, hstart⟩)
    · obtain ⟨hkeeps, hticket⟩ := keeps_of_startPull (Or.inl ⟨p, hstart⟩)
      obtain ⟨⟨session, unread⟩, hgiven, hsame⟩ := Outcome.exists_of_leaves_mapState hread
      obtain ⟨rfl, rfl⟩ := Prod.mk.inj hsame
      rw [Session.giveUp_leaves hgiven]
      exact ⟨hkeeps.trans (keeps_leaveUnread ..), hticket⟩
  | collect h =>
    rw [Session.giveUp_leaves h]
    exact ⟨keeps_leaveUnread .., rfl⟩
  | wait h =>
    rw [Session.session_of_heeds (Session.heeds_of_pending h)]
    exact ⟨keeps_leaveUnread .., rfl⟩

theorem lives_uses (h : c.Lives) (huse : c.Uses hd c' hd') : c'.Lives := by
  cases huse with
  | push hpush => exact lives_push h hpush
  | tick htick => exact lives_tick h htick
  | startPull hstart => exact lives_startPull h hstart
  | pull hpull => exact lives_pull h hpull
  | collect => exact h.network _
  | wait => exact h.network _

/-! ### The register is the list of handles -/

theorem tracks_start {spec : ClusterSpec} (h : start spec = .ok c) : c.Tracks [] := by
  refine ⟨.start h, ?_, by simp, by simp⟩
  obtain ⟨_, -, hids⟩ := exists_of_bind h
  obtain ⟨ids, -, hopened⟩ := exists_of_bind hids
  obtain ⟨⟨shards, exchange⟩, hopen, hsame⟩ := exists_of_bind hopened
  obtain rfl := Except.ok.inj hsame
  rw [inboxes_of_openShards (ok_of_lift hopen)]
  exact List.Perm.nil

/-- **A handle more.** -/
theorem tracks_of_open {tickets : List Ticket} {worker : ThreadId} (h : c.Tracks tickets)
    (hopen : c.openHandle τ worker table = .ok (hd, c')) :
    c'.Tracks (Lease.ticket ⟨τ, hd⟩ :: tickets) := by
  have hlives := lives_openHandle h.lives hopen
  obtain ⟨entry, inbox, exchange, hentry, htype, hreserved, hinbox, rfl, rfl⟩ :=
    openHandle_eq_ok hopen
  obtain ⟨hfree, hinsert⟩ := Exchange.openInbox_eq_ok hinbox
  refine ⟨hlives, ?_, ?_, ?_⟩
  · simp only [hinsert]
    exact (SortedMap.entries_insert_perm hfree inbox).trans (h.inboxes.cons _)
  · exact List.forall_mem_cons.mpr ⟨hreserved, h.unreserved⟩
  · exact List.forall_mem_cons.mpr ⟨⟨entry, hentry, htype⟩, h.known⟩

theorem Tracks.get? {tickets : List Ticket} (h : c.Tracks tickets) {t : Ticket}
    (ht : t ∈ tickets) : c.exchange.inboxes.get? t.address = some t.inbox :=
  SortedMap.get?_eq_some_iff.mpr (h.inboxes.mem_iff.mpr (List.mem_map_of_mem ht))

theorem Tracks.keys {tickets : List Ticket} (h : c.Tracks tickets) :
    c.exchange.inboxes.keys.Perm (tickets.map (·.address)) := by
  have hkeys := h.inboxes.map Prod.fst
  rwa [List.map_map] at hkeys

/-- **A handle less.** It takes its own entry with it and no other. -/
theorem tracks_of_close {before behind : List Ticket} {l : Lease}
    (h : c.Tracks (before ++ l.ticket :: behind)) :
    (c.closeHandle l.handle).Tracks (before ++ behind) := by
  have hsub : ∀ t ∈ before ++ behind, t ∈ before ++ l.ticket :: behind := fun t ht =>
    List.perm_middle.mem_iff.mpr (List.mem_cons_of_mem _ ht)
  have hget := h.get? (List.mem_append_right before List.mem_cons_self)
  have hinboxes : (c.closeHandle l.handle).exchange.inboxes =
      c.exchange.inboxes.erase l.ticket.address := rfl
  refine ⟨lives_closeHandle h.lives l.handle, ?_, fun t ht => h.unreserved t (hsub t ht),
    fun t ht => h.known t (hsub t ht)⟩
  have hmiddle : ((before ++ l.ticket :: behind).map (·.entry)).Perm
      (l.ticket.entry :: (before ++ behind).map (·.entry)) := List.perm_middle.map _
  rw [hinboxes]
  exact ((SortedMap.entries_perm_erase hget).symm.trans (h.inboxes.trans hmiddle)).cons_inv

theorem tracks_of_inUse {live : List Lease} (h : c.InUse live) :
    c.Tracks (live.map (·.ticket)) := by
  induction h with
  | start h => exact tracks_start h
  | create _ hcall hleft ih =>
    exact ih.keep (ih.lives.create hcall hleft) (keeps_of_creates ih.lives hcall hleft)
  | init _ hleft ih => exact ih.keep (lives_initTable ih.lives hleft) (keeps_of_initTable hleft)
  | «open» _ hopen ih => exact tracks_of_open ih hopen
  | use _ huse ih =>
    obtain ⟨hkeeps, hticket⟩ := keeps_of_uses huse
    have hlater := ih.keep (lives_uses ih.lives huse) hkeeps
    rw [List.map_append, List.map_cons] at hlater ⊢
    rwa [hticket]
  | close _ ih =>
    rw [List.map_append, List.map_cons] at ih
    rw [List.map_append]
    exact tracks_of_close ih
  | @turn c _ before behind s _ hshards ih =>
    refine ih.keep (ih.lives.turn hshards)
      ⟨Shard.inboxes_turn s c.exchange .message, ?_, fun _ _ hget => hget⟩
    have hid := (Shard.later_of_turn s c.exchange).id
    simp only [shardIds, hshards, List.map_append, List.map_cons, hid]

/-! ### Who can have a handle -/

theorem openHandle_eq {worker : ThreadId} {entry : TableEntry}
    (hentry : c.tables.get? table = some entry) (htype : entry.type = τ)
    (hreserved : c.reserved worker = false) :
    c.openHandle τ worker table = (c.exchange.openInbox worker table).map
      fun opened => ({ session := { worker, table, layout := entry.layout }, inbox := opened.1 },
        { c with exchange := opened.2 }) := by
  have hfound : c.entry table = .ok entry := by rw [Cluster.entry, hentry]
  simp only [openHandle, hfound, htype, hreserved, bind, Except.bind, ne_eq, not_true_eq_false,
    Bool.false_eq_true, ↓reduceIte]
  cases c.exchange.openInbox worker table <;> rfl

theorem openHandle_of_tracks {tickets : List Ticket} (h : c.Tracks tickets) {worker : ThreadId}
    {entry : TableEntry} (hentry : c.tables.get? table = some entry) (htype : entry.type = τ)
    (hreserved : c.reserved worker = false) :
    ((worker, table) ∉ tickets.map (·.address) →
      ∃ opened, c.openHandle τ worker table = .ok opened) ∧
    ((worker, table) ∈ tickets.map (·.address) →
      c.openHandle τ worker table = .error (.transport (.inboxTaken worker table))) := by
  rw [openHandle_eq hentry htype hreserved]
  constructor
  · intro hnone
    have hfree : c.exchange.inboxes.get? (worker, table) = none := by
      rw [Option.eq_none_iff_forall_ne_some]
      intro channel hget
      exact hnone (h.keys.mem_iff.mp (SortedMap.mem_keys_iff.mpr ⟨channel, hget⟩))
    obtain ⟨opened, hopen⟩ := Exchange.openInbox_of_free hfree
    rw [hopen]
    exact ⟨_, rfl⟩
  · intro htaken
    obtain ⟨t, ht, hsame⟩ := List.mem_map.mp htaken
    have hget := h.get? ht
    rw [hsame] at hget
    rw [Exchange.openInbox_of_taken hget]
    rfl

theorem exists_openHandle_of_closed {before behind : List Lease} {l : Lease}
    (h : c.Tracks ((before ++ l :: behind).map (·.ticket))) :
    ∃ opened, (c.closeHandle l.handle).openHandle l.type l.handle.session.worker
      l.handle.session.table = .ok opened := by
  have hmem : l.ticket ∈ (before ++ l :: behind).map (·.ticket) :=
    List.mem_map_of_mem (List.mem_append_right before List.mem_cons_self)
  obtain ⟨entry, hentry, (htype : entry.type = l.type)⟩ := h.known _ hmem
  have hdistinct := h.keys.nodup_iff.mp (SortedMap.nodup_keys _)
  have hclosed := h
  rw [List.map_append, List.map_cons] at hclosed hdistinct
  refine (openHandle_of_tracks (tracks_of_close hclosed) hentry htype (h.unreserved _ hmem)).1 ?_
  rw [List.map_append, List.map_cons, List.perm_middle.nodup_iff, List.nodup_cons] at hdistinct
  rw [List.map_append]
  exact hdistinct.1

/-- The control thread has no handle anywhere. -/
theorem exists_openInbox_control {tickets : List Ticket} (h : c.Tracks tickets)
    (table : TableId) : ∃ opened, c.exchange.openInbox controlThread table = .ok opened := by
  refine Exchange.openInbox_of_free ?_
  rw [Option.eq_none_iff_forall_ne_some]
  intro channel hget
  obtain ⟨t, ht, hsame⟩ :=
    List.mem_map.mp (h.keys.mem_iff.mp (SortedMap.mem_keys_iff.mpr ⟨channel, hget⟩))
  have hreserved := h.unreserved t ht
  rw [show t.worker = controlThread from congrArg Prod.fst hsame, reserved] at hreserved
  simp at hreserved

/-- **Inboxes follow handles.** After any calls in any order, whether they succeed or fail: the
inboxes in the register are those of the handles that are out, each under its worker and table. So a
worker that is no shard's id nor the control thread's gets a handle of a table of its type if and
only if it has none out, and when it gives one up it can have another. Whatever comes of
initializing a table leaves the register as it was and room in it for the next one. -/
theorem inboxes_follow_handles {live : List Lease} (h : c.InUse live) :
    c.exchange.inboxes.keys.Perm (live.map (·.address)) ∧
    (∀ l ∈ live, c.exchange.inboxes.get? l.address = some l.handle.inbox) ∧
    (∀ worker table entry, c.tables.get? table = some entry → c.reserved worker = false →
      ((∃ opened, c.openHandle entry.type worker table = .ok opened) ↔
        (worker, table) ∉ live.map (·.address)) ∧
      ((worker, table) ∈ live.map (·.address) →
        c.openHandle entry.type worker table = .error (.transport (.inboxTaken worker table)))) ∧
    (∀ l ∈ live, ∃ opened, (c.closeHandle l.handle).openHandle l.type l.handle.session.worker
      l.handle.session.table = .ok opened) ∧
    ∀ table workers c', (c.initTable table workers).Leaves c' →
      c'.exchange.inboxes = c.exchange.inboxes ∧
      ∀ other, ∃ opened, c'.exchange.openInbox controlThread other = .ok opened := by
  have htracks := tracks_of_inUse h
  have haddresses : (live.map (·.ticket)).map (·.address) = live.map (·.address) := List.map_map
  have hkeys := htracks.keys
  rw [haddresses] at hkeys
  refine ⟨hkeys, fun l hl => htracks.get? (List.mem_map_of_mem hl), ?_, ?_, ?_⟩
  · intro worker table entry hentry hreserved
    obtain ⟨hfree, htaken⟩ := openHandle_of_tracks htracks hentry rfl hreserved
    rw [haddresses] at hfree htaken
    refine ⟨⟨?_, hfree⟩, htaken⟩
    rintro ⟨opened, hopen⟩ hmem
    rw [htaken hmem] at hopen
    cases hopen
  · intro l hl
    obtain ⟨before, behind, rfl⟩ := List.append_of_mem hl
    exact exists_openHandle_of_closed htracks
  · intro table workers c' hleft
    have hkeeps := keeps_of_initTable hleft
    refine ⟨hkeeps.inboxes, fun other => ?_⟩
    exact exists_openInbox_control (htracks.keep (lives_initTable htracks.lives hleft) hkeeps) other

/-- Workers 8 and 9 at one table. The first of them has read it, written to it, and gone. -/
def handedOver : Attempt (Cluster × Handle .integer) := do
  let c ← start ⟨2, 0, false⟩
  let (_, c) ← Workload.require (c.createTable .integer 1 [⟨0, 10⟩, ⟨10, 20⟩] (.asp .sparse))
  let (first, c) ← c.openHandle .integer 8 1
  let (_, c) ← Workload.require (c.initTable 1 [8, 9])
  let (_, c, first) ← Workload.require (c.pull first [3, 13])
  let (_, c) ← Workload.require (c.push first [13] [(1 : Int64)])
  let (second, c) ← c.openHandle .integer 9 1
  return (c.closeHandle first, second)

theorem inUse_handedOver {hd : Handle .integer} (h : handedOver = .ok (c, hd)) :
    c.InUse [⟨.integer, hd⟩] ∧ Lease.address ⟨.integer, hd⟩ = (9, 1) := by
  obtain ⟨c₀, hstart, h₀⟩ := exists_of_bind h
  obtain ⟨⟨_, c₁⟩, hcreate, h₁⟩ := exists_of_bind h₀
  obtain ⟨⟨first, c₂⟩, hopen, h₂⟩ := exists_of_bind h₁
  obtain ⟨⟨_, c₃⟩, hinit, h₃⟩ := exists_of_bind h₂
  obtain ⟨⟨_, c₄, later⟩, hpull, h₄⟩ := exists_of_bind h₃
  obtain ⟨⟨_, c₅⟩, hpush, h₅⟩ := exists_of_bind h₄
  obtain ⟨⟨second, c₆⟩, hsecond, h₆⟩ := exists_of_bind h₅
  obtain ⟨rfl, rfl⟩ := Prod.mk.inj (Except.ok.inj h₆)
  have hcreated := (InUse.start hstart).create (.ranges _) (Or.inl ⟨_, of_require hcreate⟩)
  have hfirst : c₃.InUse ([] ++ ⟨.integer, first⟩ :: []) :=
    (hcreated.open (ok_of_lift hopen)).init (Or.inl ⟨_, of_require hinit⟩)
  have hread : c₄.InUse ([] ++ ⟨.integer, later⟩ :: []) :=
    hfirst.use (.pull (Or.inl ⟨_, of_require hpull⟩))
  have hwritten : c₅.InUse ([] ++ ⟨.integer, later⟩ :: []) :=
    hread.use (.push (Or.inl ⟨_, of_require hpush⟩))
  have hboth : c₆.InUse ([⟨.integer, second⟩] ++ ⟨.integer, later⟩ :: []) :=
    hwritten.open (ok_of_lift hsecond)
  refine ⟨hboth.close, ?_⟩
  obtain ⟨_, _, _, -, -, -, -, rfl, -⟩ := openHandle_eq_ok (ok_of_lift hsecond)
  rfl

/-- The type of the table, and whether either worker's id is taken. -/
def outlook (c : Cluster) : Option ScalarType × Bool × Bool :=
  ((c.tables.get? 1).map (·.type), c.reserved 8, c.reserved 9)

theorem outlook_handedOver : handedOver.toOption.map (fun r => r.1.outlook) =
    some (some .integer, false, false) := by
  decide +kernel

/-- The worker that has gone can come back, and the other one cannot come twice. -/
theorem inboxes_follow_handles_handedOver :
    ∃ c hd, handedOver = .ok (c, hd) ∧ c.exchange.inboxes.keys = [(9, 1)] ∧
      (∃ opened, c.openHandle .integer 8 1 = .ok opened) ∧
      c.openHandle .integer 9 1 = .error (.transport (.inboxTaken 9 1)) ∧
      ∃ opened, (c.closeHandle hd).openHandle .integer hd.session.worker hd.session.table =
        .ok opened := by
  have hseen := outlook_handedOver
  cases hrun : handedOver with
  | error why =>
    rw [hrun] at hseen
    cases hseen
  | ok result =>
    obtain ⟨c, hd⟩ := result
    rw [hrun] at hseen
    obtain ⟨htype, hfree⟩ := Prod.mk.inj (Option.some.inj hseen)
    obtain ⟨hreserved, hreserved'⟩ := Prod.mk.inj hfree
    obtain ⟨entry, hentry, hinteger⟩ := Option.map_eq_some_iff.mp htype
    obtain ⟨huse, haddress⟩ := inUse_handedOver hrun
    obtain ⟨hkeys, -, hopens, hcloses, -⟩ := inboxes_follow_handles huse
    rw [List.map_singleton, haddress] at hkeys hopens
    have hfirst := (hopens 8 1 entry hentry hreserved).1.mpr (by decide)
    have hsecond := (hopens 9 1 entry hentry hreserved').2 List.mem_cons_self
    rw [hinteger] at hfirst hsecond
    exact ⟨c, hd, rfl, List.perm_singleton.mp hkeys, hfirst, hsecond,
      hcloses _ List.mem_cons_self⟩

end Cluster

end ParamServer
