import ParamServer.Exchange
import ParamServer.Proofs.Message.Wire
import ParamServer.Proofs.SortedMap

/-!
# What an exchange delivers

A history says what was asked of an exchange and what it answered. From that alone it can be told
who holds an address, whether the reader of a channel has left, and which messages a channel has to
get (`arrivals`): those to the address that the channel held when they were sent and accepted. The
registers and queues of the exchange agree with the history at all times (`Logged`), so a reader
finds these messages, in this order, each once (`delivers_what_it_accepts`).
-/

namespace ParamServer

/-- Where a message goes. -/
inductive Address where
  | shard (id : ThreadId)
  | inbox (thread : ThreadId) (table : TableId)
  deriving DecidableEq, Repr

/-- Answers go to an inbox, all else to a shard. -/
def Message.address (m : Message) : Address :=
  if m.op = .response then .inbox m.receiver m.table else .shard m.receiver

namespace Exchange

/-- What is asked of an exchange. A channel is read and given up by whoever opened it. -/
inductive Call where
  | open (a : Address)
  | close (a : Address)
  | send (m : Message)
  | receive (channel : ChannelId)
  | hangUp (channel : ChannelId)
  deriving DecidableEq

inductive Result where
  | opened (channel : ChannelId)
  | done
  | received (m : Option Message)
  | failed (why : Error)
  deriving DecidableEq

structure Entry where
  call : Call
  result : Result
  deriving DecidableEq

/-- What has happened to an exchange, the latest first. -/
abbrev History := List Entry

namespace History

/-- The channel that an address leads to: the last one opened for it, unless it was closed since. -/
def holder? (a : Address) : History → Option ChannelId
  | [] => none
  | ⟨.open b, .opened channel⟩ :: past => if b = a then some channel else holder? a past
  | ⟨.close b, .done⟩ :: past => if b = a then none else holder? a past
  | _ :: past => holder? a past

/-- Whether the reader of a channel has left it. -/
def left (channel : ChannelId) : History → Bool
  | [] => false
  | ⟨.open _, .opened other⟩ :: past => if other = channel then false else left channel past
  | ⟨.hangUp other, .done⟩ :: past => if other = channel then true else left channel past
  | _ :: past => left channel past

/-- The messages that were accepted while their address led to the channel. -/
def arrivals (channel : ChannelId) : History → List Message
  | [] => []
  | ⟨.send m, .done⟩ :: past =>
    if holder? m.address past = some channel then arrivals channel past ++ [m]
    else arrivals channel past
  | _ :: past => arrivals channel past

/-- The messages that were read from the channel. -/
def reads (channel : ChannelId) : History → List Message
  | [] => []
  | ⟨.receive other, .received (some m)⟩ :: past =>
    if other = channel then reads channel past ++ [m] else reads channel past
  | _ :: past => reads channel past

/-- What becomes of a message that is sent now. -/
def verdict (past : History) (m : Message) : Result :=
  match holder? m.address past with
  | none => .failed (.transport (.noRoute m.receiver m.op m.table))
  | some channel =>
    if left channel past then .failed (.transport (.hungUp m.receiver)) else .done

end History

def perform (e : Exchange) : Call → Result × Exchange
  | .open (.shard id) =>
    match e.openShard id with
    | .ok (channel, e) => (.opened channel, e)
    | .error why => (.failed why, e)
  | .open (.inbox thread table) =>
    match e.openInbox thread table with
    | .ok (channel, e) => (.opened channel, e)
    | .error why => (.failed why, e)
  | .close (.shard id) => (.done, e.closeShard id)
  | .close (.inbox thread table) => (.done, e.closeInbox thread table)
  | .send m =>
    match e.send m with
    | .ok e => (.done, e)
    | .error why => (.failed why, e)
  | .receive channel =>
    match e.receive channel with
    | some (m, e) => (.received (some m), e)
    | none => (.received none, e)
  | .hangUp channel => (.done, e.hangUp channel)

/-- An exchange after some calls, and their history. -/
def after (e : Exchange) (past : History) : List Call → History × Exchange
  | [] => (past, e)
  | call :: rest =>
    let (result, e) := e.perform call
    e.after (⟨call, result⟩ :: past) rest

def holder (e : Exchange) : Address → Option ChannelId
  | .shard id => e.shards.get? id
  | .inbox thread table => e.inboxes.get? (thread, table)

variable {e : Exchange} {m : Message} {a b : Address} {channel other : ChannelId}

/-! ### Channels -/

theorem queue_of_size_le (h : e.channels.size ≤ channel) : e.queue channel = [] := by
  rw [queue, Array.getElem?_eq_none h]
  rfl

theorem lt_size_of_queue_eq_cons {rest : List Message} (h : e.queue channel = m :: rest) :
    channel < e.channels.size := by
  by_contra hout
  rw [queue_of_size_le (Nat.le_of_not_lt hout)] at h
  cases h

theorem queue_setQueue (hin : channel < e.channels.size) (ms : List Message) :
    (e.setQueue channel ms).queue other = if other = channel then ms else e.queue other := by
  unfold queue setQueue
  by_cases heq : other = channel
  · subst heq
    simp only [Array.getElem?_modify, Array.getElem?_eq_getElem hin, if_pos, Option.map_some,
      Option.getD_some]
  · simp [Array.getElem?_modify, heq, Ne.symm heq]

theorem held_setQueue (ms : List Message) :
    (e.setQueue channel ms).held other = e.held other := by
  unfold held setQueue
  by_cases heq : channel = other
  · subst heq
    simp [Array.getElem?_modify, Function.comp_def]
  · simp [Array.getElem?_modify, heq]

theorem queue_hangUp :
    (e.hangUp channel).queue other = if other = channel then [] else e.queue other := by
  unfold queue hangUp
  by_cases heq : other = channel
  · subst heq
    cases h : e.channels[other]? <;> simp [Array.getElem?_modify, h]
  · simp [Array.getElem?_modify, heq, Ne.symm heq]

theorem held_hangUp :
    (e.hangUp channel).held other = if other = channel then false else e.held other := by
  unfold held hangUp
  by_cases heq : other = channel
  · subst heq
    cases h : e.channels[other]? <;> simp [Array.getElem?_modify, h]
  · simp [Array.getElem?_modify, heq, Ne.symm heq]

theorem queue_of_push {e' : Exchange} (h : e'.channels = e.channels.push {}) :
    e'.queue channel = e.queue channel := by
  unfold queue
  rw [h, Array.getElem?_push]
  split
  case isTrue heq =>
    rw [heq, Array.getElem?_eq_none (Nat.le_refl _)]
    rfl
  case isFalse => rfl

theorem held_of_push {e' : Exchange} (h : e'.channels = e.channels.push {}) :
    e'.held channel = if channel = e.channels.size then true else e.held channel := by
  unfold held
  rw [h, Array.getElem?_push]
  split <;> rfl

/-! ### What a call does -/

theorem perform_open (e : Exchange) (a : Address) :
    (∃ why, e.perform (.open a) = (.failed why, e)) ∨
    ∃ e', e.perform (.open a) = (.opened e.channels.size, e') ∧
      e'.channels = e.channels.push {} ∧
      ∀ b, e'.holder b = if a = b then some e.channels.size else e.holder b := by
  cases a with
  | shard id =>
    by_cases htaken : e.shards.contains id = true
    · exact Or.inl ⟨.transport (.shardTaken id), by simp only [perform, openShard, if_pos htaken]⟩
    · refine Or.inr ⟨_, by simp only [perform, openShard, if_neg htaken]; rfl, rfl, ?_⟩
      rintro (other | ⟨thread, table⟩)
      · simp only [holder, SortedMap.get?_insert, Address.shard.injEq]
        exact if_congr ⟨fun h => (rank_inj h).symm, fun h => h ▸ rfl⟩ rfl rfl
      · rfl
  | inbox thread table =>
    by_cases htaken : e.inboxes.contains (thread, table) = true
    · exact Or.inl ⟨.transport (.inboxTaken thread table),
        by simp only [perform, openInbox, if_pos htaken]⟩
    · refine Or.inr ⟨_, by simp only [perform, openInbox, if_neg htaken]; rfl, rfl, ?_⟩
      rintro (other | ⟨thread', table'⟩)
      · rfl
      · simp only [holder, SortedMap.get?_insert, Address.inbox.injEq]
        refine if_congr ⟨fun h => ?_, fun h => by rw [h.1, h.2]⟩ rfl rfl
        exact Prod.mk.inj (rank_inj h).symm

theorem perform_close (e : Exchange) (a : Address) :
    ∃ e', e.perform (.close a) = (.done, e') ∧ e'.channels = e.channels ∧
      ∀ b, e'.holder b = if a = b then none else e.holder b := by
  cases a with
  | shard id =>
    refine ⟨_, rfl, rfl, ?_⟩
    rintro (other | ⟨thread, table⟩)
    · simp only [holder, closeShard, SortedMap.get?_erase, Address.shard.injEq]
      exact if_congr ⟨fun h => (rank_inj h).symm, fun h => h ▸ rfl⟩ rfl rfl
    · rfl
  | inbox thread table =>
    refine ⟨_, rfl, rfl, ?_⟩
    rintro (other | ⟨thread', table'⟩)
    · rfl
    · simp only [holder, closeInbox, SortedMap.get?_erase, Address.inbox.injEq]
      refine if_congr ⟨fun h => ?_, fun h => by rw [h.1, h.2]⟩ rfl rfl
      exact Prod.mk.inj (rank_inj h).symm

theorem eq_of_perform_failed {call : Call} {why : Error} (h : (e.perform call).1 = .failed why) :
    (e.perform call).2 = e := by
  cases call with
  | «open» a =>
    rcases perform_open e a with ⟨_, hcase⟩ | ⟨_, hcase, -⟩
    · rw [hcase]
    · rw [hcase] at h
      cases h
  | close a =>
    obtain ⟨_, hcase, -⟩ := perform_close e a
    rw [hcase] at h
    cases h
  | send m =>
    cases hsend : e.send m with
    | ok => simp only [perform, hsend, reduceCtorEq] at h
    | error => simp only [perform, hsend]
  | receive channel =>
    cases hreceive : e.receive channel <;> simp only [perform, hreceive, reduceCtorEq] at h
  | hangUp channel => cases h

/-- Turning a message into bytes and back is no change. -/
theorem carry_of_sized (h : m.Sized) : e.carry m = .ok m := by
  unfold carry
  split
  · rw [Message.decode_eq_ok_iff.mpr ⟨h, List.prefix_rfl⟩]
    rfl
  · rfl

theorem found_eq (e : Exchange) (m : Message) :
    (if m.op = .response then e.inboxes.get? (m.receiver, m.table) else e.shards.get? m.receiver) =
      e.holder m.address := by
  unfold Message.address
  split <;> rfl

theorem send_of_astray (h : e.holder m.address = none) :
    e.send m = .error (.transport (.noRoute m.receiver m.op m.table)) := by
  simp only [send, route, found_eq, h]
  rfl

theorem send_of_holder (hsized : m.Sized) (h : e.holder m.address = some channel) :
    e.send m = if e.held channel then .ok (e.setQueue channel (e.queue channel ++ [m]))
      else .error (.transport (.hungUp m.receiver)) := by
  simp only [send, route, found_eq, h, carry_of_sized hsized]
  rfl

/-! ### The history and the exchange -/

open History

/-- A channel is opened once, for one address. -/
structure Opens (past : History) (e : Exchange) : Prop where
  opened : ∀ a channel, ⟨.open a, .opened channel⟩ ∈ past → channel < e.channels.size
  unique : ∀ a b channel, ⟨.open a, .opened channel⟩ ∈ past → ⟨.open b, .opened channel⟩ ∈ past →
    a = b

/-- The exchange is as its history says. -/
structure Logged (past : History) (e : Exchange) : Prop extends Opens past e where
  holder : ∀ a, e.holder a = holder? a past
  held : ∀ channel < e.channels.size, e.held channel = !left channel past
  vacant : ∀ channel, e.channels.size ≤ channel → arrivals channel past = []
  reads_prefix : ∀ channel, reads channel past <+: arrivals channel past
  lost : ∀ channel, left channel past = true → e.queue channel = []
  queued : ∀ channel, left channel past = false →
    arrivals channel past = reads channel past ++ e.queue channel

namespace History

variable {past : History} {a : Address} {m : Message} {channel : ChannelId} {entry : Entry}

theorem mem_of_holder (h : holder? a past = some channel) :
    ⟨.open a, .opened channel⟩ ∈ past := by
  fun_induction holder? a past with
  | case1 => cases h
  | case2 =>
    obtain rfl := Option.some.inj h
    exact List.mem_cons_self
  | case3 _ _ _ _ ih => exact List.mem_cons_of_mem _ (ih h)
  | case4 => cases h
  | case5 _ _ _ ih => exact List.mem_cons_of_mem _ (ih h)
  | case6 _ _ _ _ ih => exact List.mem_cons_of_mem _ (ih h)

theorem mem_of_arrival (h : m ∈ arrivals channel past) :
    ⟨.open m.address, .opened channel⟩ ∈ past := by
  fun_induction arrivals channel past with
  | case1 => cases h
  | case2 m' _ hholder ih =>
    rcases List.mem_append.mp h with h | h
    · exact List.mem_cons_of_mem _ (ih h)
    · rw [List.mem_singleton.mp h]
      exact List.mem_cons_of_mem _ (mem_of_holder hholder)
  | case3 _ _ _ ih => exact List.mem_cons_of_mem _ (ih h)
  | case4 _ _ _ ih => exact List.mem_cons_of_mem _ (ih h)

/-- Nothing that the history is asked for changes. -/
structure Quiet (entry : Entry) : Prop where
  holder : ∀ a past, holder? a (entry :: past) = holder? a past
  left : ∀ channel past, left channel (entry :: past) = left channel past
  arrivals : ∀ channel past, arrivals channel (entry :: past) = arrivals channel past
  reads : ∀ channel past, reads channel (entry :: past) = reads channel past
  opened : ∀ a channel, entry ≠ ⟨.open a, .opened channel⟩

theorem quiet_failed (call : Call) (why : Error) : Quiet ⟨call, .failed why⟩ := by
  constructor
  case opened => simp
  all_goals intros; cases call <;> rfl

theorem quiet_received_none : Quiet ⟨.receive channel, .received none⟩ := by
  constructor
  case opened => simp
  all_goals intros; rfl

end History

variable {past : History} {e : Exchange} {m : Message} {entry : Entry} {a : Address}

theorem logged_new (coded : Bool) : Logged [] (new coded) where
  opened := by simp
  unique := by simp
  holder a := by cases a <;> rfl
  held channel hin := absurd hin (Nat.not_lt_zero _)
  vacant _ _ := rfl
  reads_prefix _ := List.prefix_rfl
  lost _ h := by cases h
  queued _ _ := rfl

theorem opens_cons (h : Opens past e) {e' : Exchange}
    (hentry : ∀ a channel, entry ≠ ⟨.open a, .opened channel⟩)
    (hsize : e'.channels.size = e.channels.size) : Opens (entry :: past) e' := by
  have hmem : ∀ {a channel}, ⟨.open a, .opened channel⟩ ∈ entry :: past →
      ⟨.open a, .opened channel⟩ ∈ past := fun {a channel} hmem =>
    (List.mem_cons.mp hmem).resolve_left (hentry a channel).symm
  constructor
  · intro a channel hopened
    rw [hsize]
    exact h.opened a channel (hmem hopened)
  · exact fun a b channel ha hb => h.unique a b channel (hmem ha) (hmem hb)

theorem logged_of_quiet (h : Logged past e) (hquiet : Quiet entry) : Logged (entry :: past) e := by
  constructor
  · exact opens_cons h.toOpens hquiet.opened rfl
  · intro a
    rw [hquiet.holder, h.holder]
  · intro channel hin
    rw [hquiet.left, h.held channel hin]
  · intro channel hout
    rw [hquiet.arrivals, h.vacant channel hout]
  · intro channel
    rw [hquiet.reads, hquiet.arrivals]
    exact h.reads_prefix channel
  · intro channel hleft
    rw [hquiet.left] at hleft
    exact h.lost channel hleft
  · intro channel hleft
    rw [hquiet.left] at hleft
    rw [hquiet.reads, hquiet.arrivals, h.queued channel hleft]

theorem reads_of_vacant (h : Logged past e) {channel : ChannelId}
    (hout : e.channels.size ≤ channel) : reads channel past = [] := by
  have hprefix := h.reads_prefix channel
  rwa [h.vacant channel hout, List.prefix_nil] at hprefix

theorem logged_of_open (h : Logged past e) (a : Address) :
    Logged (⟨.open a, (e.perform (.open a)).1⟩ :: past) (e.perform (.open a)).2 := by
  rcases perform_open e a with ⟨why, hcase⟩ | ⟨e', hcase, hchannels, hholder⟩
  all_goals simp only [hcase]
  · exact logged_of_quiet h (quiet_failed ..)
  have hsize : e'.channels.size = e.channels.size + 1 := by rw [hchannels, Array.size_push]
  have hmem : ∀ {b channel}, (⟨.open b, .opened channel⟩ : Entry) ∈
      ⟨.open a, .opened e.channels.size⟩ :: past →
      (b = a ∧ channel = e.channels.size) ∨ ⟨.open b, .opened channel⟩ ∈ past := by
    intro b channel hmem
    simpa using hmem
  have hopens : Opens (⟨.open a, .opened e.channels.size⟩ :: past) e' := by
    constructor
    · intro b channel hopened
      rcases hmem hopened with ⟨-, rfl⟩ | hold
      · omega
      · have := h.opened b channel hold
        omega
    · intro b b' channel hb hb'
      rcases hmem hb with ⟨rfl, hnew⟩ | hold <;> rcases hmem hb' with ⟨rfl, hnew'⟩ | hold'
      · rfl
      · exact absurd hnew (Nat.ne_of_lt (h.opened b' channel hold'))
      · exact absurd hnew' (Nat.ne_of_lt (h.opened b channel hold))
      · exact h.unique b b' channel hold hold'
  constructor
  · exact hopens
  · intro b
    rw [hholder, h.holder]
    rfl
  · intro channel hin
    rw [held_of_push hchannels, left]
    by_cases hnew : channel = e.channels.size
    · rw [if_pos hnew, if_pos hnew.symm, Bool.not_false]
    · rw [if_neg hnew, if_neg (Ne.symm hnew), h.held channel (by omega)]
  · exact fun channel hout => h.vacant channel (by omega)
  · exact h.reads_prefix
  · intro channel hleft
    rw [left] at hleft
    split at hleft
    · cases hleft
    · rw [queue_of_push hchannels, h.lost channel hleft]
  · intro channel hleft
    rw [left] at hleft
    rw [queue_of_push hchannels]
    split at hleft
    case isTrue hnew =>
      have hout : e.channels.size ≤ channel := Nat.le_of_eq hnew
      rw [queue_of_size_le hout, List.append_nil]
      exact (h.vacant channel hout).trans (reads_of_vacant h hout).symm
    case isFalse => exact h.queued channel hleft

/-- Only the addresses change. -/
theorem logged_of_close (h : Logged past e) (a : Address) :
    Logged (⟨.close a, (e.perform (.close a)).1⟩ :: past) (e.perform (.close a)).2 := by
  obtain ⟨e', hcase, hchannels, hholder⟩ := perform_close e a
  simp only [hcase]
  have hheld : e'.held = e.held := by
    unfold held
    rw [hchannels]
  have hqueue : e'.queue = e.queue := by
    unfold queue
    rw [hchannels]
  constructor
  · exact opens_cons h.toOpens (by simp) (by rw [hchannels])
  · intro b
    rw [hholder, h.holder]
    rfl
  · rw [hchannels, hheld]
    exact h.held
  · rw [hchannels]
    exact h.vacant
  · exact h.reads_prefix
  · rw [hqueue]
    exact h.lost
  · rw [hqueue]
    exact h.queued

theorem logged_of_send (h : Logged past e) (hsized : m.Sized) :
    Logged (⟨.send m, (e.perform (.send m)).1⟩ :: past) (e.perform (.send m)).2 := by
  cases hholder : e.holder m.address with
  | none =>
    simp only [perform, send_of_astray hholder]
    exact logged_of_quiet h (quiet_failed ..)
  | some channel =>
    have hpast : holder? m.address past = some channel := by rw [← h.holder, hholder]
    have hin := h.opened _ _ (mem_of_holder hpast)
    by_cases hheld : e.held channel = true
    case neg =>
      simp only [perform, send_of_holder hsized hholder, if_neg hheld]
      exact logged_of_quiet h (quiet_failed ..)
    simp only [perform, send_of_holder hsized hholder, if_pos hheld]
    have hstays : left channel past = false := by
      have hleft := h.held channel hin
      rwa [hheld, eq_comm, Bool.not_eq_true'] at hleft
    have hsize : (e.setQueue channel (e.queue channel ++ [m])).channels.size = e.channels.size :=
      Array.size_modify
    have harrivals : ∀ other, arrivals other (⟨.send m, .done⟩ :: past) =
        if other = channel then arrivals other past ++ [m] else arrivals other past := by
      intro other
      rw [arrivals, hpast]
      exact if_congr (by rw [Option.some.injEq, eq_comm]) rfl rfl
    constructor
    · exact opens_cons h.toOpens (by simp) hsize
    · exact h.holder
    · intro other hother
      rw [held_setQueue]
      exact h.held other (hsize ▸ hother)
    · intro other hout
      rw [hsize] at hout
      rw [harrivals, if_neg (Nat.ne_of_gt (Nat.lt_of_lt_of_le hin hout)), h.vacant other hout]
    · intro other
      rw [harrivals]
      split
      · exact (h.reads_prefix other).trans (List.prefix_append ..)
      · exact h.reads_prefix other
    · intro other hleft
      have hne : other ≠ channel := by
        rintro rfl
        exact absurd (hstays.symm.trans hleft) (by simp)
      rw [queue_setQueue hin, if_neg hne]
      exact h.lost other hleft
    · intro other hleft
      rw [harrivals, queue_setQueue hin]
      split
      case isTrue heq =>
        rw [heq, h.queued channel hstays, List.append_assoc]
        rfl
      case isFalse => exact h.queued other hleft

theorem logged_of_receive (h : Logged past e) (channel : ChannelId) :
    Logged (⟨.receive channel, (e.perform (.receive channel)).1⟩ :: past)
      (e.perform (.receive channel)).2 := by
  cases hqueue : e.queue channel with
  | nil =>
    simp only [perform, receive, hqueue]
    exact logged_of_quiet h quiet_received_none
  | cons m rest =>
    simp only [perform, receive, hqueue]
    have hin := lt_size_of_queue_eq_cons hqueue
    have hstays : left channel past = false := by
      rw [← Bool.not_eq_true]
      intro hleft
      rw [h.lost channel hleft] at hqueue
      cases hqueue
    have harrivals : arrivals channel past = reads channel past ++ [m] ++ rest := by
      rw [h.queued channel hstays, hqueue, List.append_assoc]
      rfl
    have hsize : (e.setQueue channel rest).channels.size = e.channels.size := Array.size_modify
    have hreads : ∀ other, reads other (⟨.receive channel, .received (some m)⟩ :: past) =
        if channel = other then reads other past ++ [m] else reads other past := fun _ => rfl
    constructor
    · exact opens_cons h.toOpens (by simp) hsize
    · exact h.holder
    · intro other hother
      rw [held_setQueue]
      exact h.held other (hsize ▸ hother)
    · intro other hout
      exact h.vacant other (hsize ▸ hout)
    · intro other
      rw [hreads]
      split
      case isTrue heq =>
        subst heq
        exact ⟨rest, harrivals.symm⟩
      case isFalse => exact h.reads_prefix other
    · intro other hleft
      have hne : other ≠ channel := by
        rintro rfl
        exact absurd (hstays.symm.trans hleft) (by simp)
      rw [queue_setQueue hin, if_neg hne]
      exact h.lost other hleft
    · intro other hleft
      rw [hreads, queue_setQueue hin]
      by_cases heq : other = channel
      · rw [if_pos heq, if_pos heq.symm, heq]
        exact harrivals
      · rw [if_neg heq, if_neg (Ne.symm heq)]
        exact h.queued other hleft

theorem logged_of_hangUp (h : Logged past e) (channel : ChannelId) :
    Logged (⟨.hangUp channel, .done⟩ :: past) (e.hangUp channel) := by
  have hsize : (e.hangUp channel).channels.size = e.channels.size := Array.size_modify
  have hleft : ∀ other, left other (⟨.hangUp channel, .done⟩ :: past) =
      if channel = other then true else left other past := fun _ => rfl
  constructor
  · exact opens_cons h.toOpens (by simp) hsize
  · exact h.holder
  · intro other hother
    rw [held_hangUp, hleft]
    by_cases heq : other = channel
    · rw [if_pos heq, if_pos heq.symm, Bool.not_true]
    · rw [if_neg heq, if_neg (Ne.symm heq)]
      exact h.held other (hsize ▸ hother)
  · intro other hout
    exact h.vacant other (hsize ▸ hout)
  · exact h.reads_prefix
  · intro other hgone
    rw [queue_hangUp]
    rw [hleft] at hgone
    by_cases heq : other = channel
    · rw [if_pos heq]
    · rw [if_neg (Ne.symm heq)] at hgone
      rw [if_neg heq]
      exact h.lost other hgone
  · intro other hstays
    rw [hleft] at hstays
    split at hstays
    case isTrue => cases hstays
    case isFalse heq =>
      rw [queue_hangUp, if_neg (Ne.symm heq)]
      exact h.queued other hstays

/-- **One call.** -/
theorem logged_of_perform (h : Logged past e) {call : Call}
    (hsized : ∀ m, call = .send m → m.Sized) :
    Logged (⟨call, (e.perform call).1⟩ :: past) (e.perform call).2 := by
  cases call with
  | «open» a => exact logged_of_open h a
  | close a => exact logged_of_close h a
  | send m => exact logged_of_send h (hsized m rfl)
  | receive channel => exact logged_of_receive h channel
  | hangUp channel => exact logged_of_hangUp h channel

theorem logged_of_after (h : Logged past e) {calls : List Call}
    (hsized : ∀ m, .send m ∈ calls → m.Sized) :
    Logged (e.after past calls).1 (e.after past calls).2 := by
  induction calls generalizing past e with
  | nil => exact h
  | cons call rest ih =>
    have hone := logged_of_perform h fun m hcall => hsized m (hcall ▸ List.mem_cons_self)
    exact ih hone fun m hm => hsized m (List.mem_cons_of_mem _ hm)

theorem perform_send_eq_verdict (h : Logged past e) (hsized : m.Sized) :
    (e.perform (.send m)).1 = verdict past m := by
  unfold verdict
  rw [← h.holder]
  cases hholder : e.holder m.address with
  | none => simp only [perform, send_of_astray hholder]
  | some channel =>
    have hin := h.opened _ _ (mem_of_holder ((h.holder _).symm.trans hholder))
    have hheld := h.held channel hin
    cases hleft : left channel past <;> simp [perform, send_of_holder hsized hholder, hheld, hleft]

/-! ### With and without bytes -/

theorem perform_coded (e : Exchange) (coded : Bool) {call : Call}
    (hsized : ∀ m, call = .send m → m.Sized) :
    ({ e with coded } : Exchange).perform call =
      ((e.perform call).1, { (e.perform call).2 with coded }) := by
  cases call with
  | «open» a =>
    cases a with
    | shard id =>
      simp only [perform, openShard]
      cases e.shards.contains id <;> rfl
    | inbox thread table =>
      simp only [perform, openInbox]
      cases e.inboxes.contains (thread, table) <;> rfl
  | close a => cases a <;> rfl
  | send m =>
    have hsame : ({ e with coded } : Exchange).holder m.address = e.holder m.address := by
      cases m.address <;> rfl
    cases hholder : e.holder m.address with
    | none =>
      rw [hholder] at hsame
      simp only [perform, send_of_astray hholder, send_of_astray hsame]
    | some channel =>
      rw [hholder] at hsame
      have hheld : ({ e with coded } : Exchange).held channel = e.held channel := rfl
      simp only [perform, send_of_holder (hsized m rfl) hholder,
        send_of_holder (hsized m rfl) hsame, hheld]
      cases e.held channel <;> rfl
  | receive channel =>
    have hsame : ({ e with coded } : Exchange).queue channel = e.queue channel := rfl
    simp only [perform, receive, hsame]
    cases e.queue channel <;> rfl
  | hangUp channel => rfl

theorem after_coded (e : Exchange) (coded : Bool) (past : History) {calls : List Call}
    (hsized : ∀ m, .send m ∈ calls → m.Sized) :
    ({ e with coded } : Exchange).after past calls =
      ((e.after past calls).1, { (e.after past calls).2 with coded }) := by
  induction calls generalizing past e with
  | nil => rfl
  | cons call rest ih =>
    have hone := perform_coded e coded fun m hcall => hsized m (hcall ▸ List.mem_cons_self)
    simp only [after, hone]
    exact ih _ _ fun m hm => hsized m (List.mem_cons_of_mem _ hm)

/-- **What an exchange delivers.** Whatever is opened, closed, given up, sent and read, in any
order: what a reader has read and what is in its queue is, as long as it stays, what was accepted
while the address of the message led to its channel, in the order of the sends and each once; and a
reader that leaves has read a first part of that. The address of all these messages is the one that
the channel was opened for. A message is accepted if and only if its address leads to a channel
whose reader is there, and a call that fails changes nothing. Whether messages are turned into bytes
on their way makes no difference to any result or queue. -/
theorem delivers_what_it_accepts (coded : Bool) {calls : List Call}
    (hsized : ∀ m, .send m ∈ calls → m.Sized) :
    let past := ((new coded).after [] calls).1
    let e := ((new coded).after [] calls).2
    (∀ channel, reads channel past <+: arrivals channel past ∧
      (left channel past = false →
        arrivals channel past = reads channel past ++ e.queue channel)) ∧
    (∀ a channel, ⟨.open a, .opened channel⟩ ∈ past →
      ∀ m ∈ arrivals channel past, m.address = a) ∧
    (∀ m, m.Sized → (e.perform (.send m)).1 = verdict past m) ∧
    (∀ call why, (e.perform call).1 = .failed why → (e.perform call).2 = e) ∧
    (new !coded).after [] calls = (past, { e with coded := !coded }) := by
  intro past e
  have h : Logged past e := logged_of_after (logged_new coded) hsized
  refine ⟨fun channel => ⟨h.reads_prefix channel, h.queued channel⟩, ?_,
    fun m => perform_send_eq_verdict h, fun call why => eq_of_perform_failed,
    after_coded (new coded) (!coded) [] hsized⟩
  intro a channel hopened m hm
  exact h.unique _ _ channel (mem_of_arrival hm) hopened

/-- An answer to worker 15 at table 1. -/
def returned (request : RequestId) : Message :=
  ⟨.response, 2, 15, 1, 4, request, [.keys [5], .doubles [⟨0x7FF8000000000001⟩]]⟩

/-- An inbox is given up with an answer in it, and the next one is left before it is closed. -/
def reopening : List Call := [
  .open (.inbox 15 1), .send (returned 1), .close (.inbox 15 1), .send (returned 2),
  .open (.inbox 15 1), .send (returned 3), .receive 0, .receive 1, .send (returned 4), .hangUp 1,
  .send (returned 5), .open (.shard 15), .send ⟨.add, 3, 15, 1, 0, 0, []⟩]

theorem delivers_what_it_accepts_reopening :
    let past := ((new true).after [] reopening).1
    let e := ((new true).after [] reopening).2
    arrivals 0 past = [returned 1] ∧ reads 0 past = [returned 1] ∧
    arrivals 1 past = [returned 3, returned 4] ∧ reads 1 past = [returned 3] ∧
    arrivals 2 past = reads 2 past ++ e.queue 2 ∧ e.queue 2 = [⟨.add, 3, 15, 1, 0, 0, []⟩] ∧
    verdict past (returned 6) = .failed (.transport (.hungUp 15)) ∧
    ((new false).after [] reopening).1 = past := by
  have hsized : ∀ m, Call.send m ∈ reopening → m.Sized := by
    intro m hm
    simp only [reopening, List.mem_cons, Call.send.injEq, reduceCtorEq, false_or, or_false,
      List.not_mem_nil] at hm
    rcases hm with rfl | rfl | rfl | rfl | rfl | rfl <;> decide
  obtain ⟨hqueues, -, -, -, hplain⟩ := delivers_what_it_accepts true hsized
  have hsame := congrArg Prod.fst hplain
  exact ⟨rfl, rfl, rfl, rfl, (hqueues 2).2 rfl, rfl, rfl, hsame⟩

end Exchange

end ParamServer
