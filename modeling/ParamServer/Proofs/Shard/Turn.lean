import ParamServer.Proofs.Exchange.Delivery
import ParamServer.Proofs.Shard.Isolation

/-!
# A turn, as it looks from the queue

In a turn a shard takes a message and hands on the replies, or ends at an empty queue, or does
something that the exchange has nothing to do with (`Shard.turn_queue_cases`). What it asks of the
exchange is all that it does to it (`Shard.after_turn`), and what it hands on answers a message that
it has got, now or before (`Shard.origin_of_turn`).
-/

namespace ParamServer

/-! ### What a shard asks of the exchange -/

namespace Event

/-- The message that was taken from the queue. -/
def message? : Event → Option Message
  | .handled m _ | .refused m _ | .unknownTable m | .crashed m _ => some m
  | _ => none

/-- Whether the loop ended with it. -/
def ends : Event → Bool
  | .crashed .. | .ended => true
  | _ => false

/-- What a shard asks of the exchange in a turn: to read, to send each of the replies, and to be
done with its queue. -/
def calls (channel : ChannelId) (event : Event) : List Exchange.Call :=
  event.message?.toList.map (fun _ => .receive channel) ++ event.replies.map .send ++
    if event.ends then [.hangUp channel] else []

/-- All that a shard sends are its replies. -/
theorem mem_replies_of_calls {channel : ChannelId} {event : Event} {m : Message}
    (h : .send m ∈ event.calls channel) : m ∈ event.replies := by
  simp only [calls, List.mem_append, List.mem_map] at h
  rcases h with (⟨_, -, hreceive⟩ | ⟨r, hr, hsend⟩) | hleave
  · cases hreceive
  · rwa [Exchange.Call.send.inj hsend] at hr
  · split at hleave <;> simp at hleave

end Event

namespace Shard

variable {s : Shard} {e : Exchange} {m : Message} {channel : ChannelId}

/-- The messages that a shard has taken, in order. -/
def taken (events : List Event) : List Message := events.filterMap (·.message?)

open Exchange History

/-- A turn that takes a message. Every reply to it is handed on, unless it brings the shard down. -/
structure Takes (s : Shard) (e : Exchange) (m : Message) (r : Event × Shard × Exchange) : Prop where
  message : r.1.message? = some m
  id : r.2.1.id = s.id
  channel : r.2.1.channel = s.channel
  goes_on : r.1.ends = false → r.2.1.phase = s.phase ∧
    r.2.2 = r.1.replies.foldl Courier.trySend e
  crashes : r.1.ends = true → (∃ why, r.2.1.phase = .crashed why) ∧
    r.1.replies = [] ∧ r.2.2 = e.hangUp s.channel

theorem takes_handle (s : Shard) (e : Exchange) (m : Message) : s.Takes e m (s.handle e m) := by
  unfold handle
  cases s.tablets.get? m.table with
  | none => exact ⟨rfl, rfl, rfl, fun _ => ⟨rfl, rfl⟩, fun h => by cases h⟩
  | some hosted =>
    cases hcase : hosted.handle m with
    | ok replies next =>
      simp only [hcase]
      exact ⟨rfl, rfl, rfl, fun _ => ⟨rfl, rfl⟩, fun h => by cases h⟩
    | error why next =>
      simp only [hcase]
      exact ⟨rfl, rfl, rfl, fun _ => ⟨rfl, rfl⟩, fun h => by cases h⟩
    | fault why =>
      simp only [hcase]
      exact ⟨rfl, rfl, rfl, (fun h => by cases h), fun _ => ⟨⟨why, rfl⟩, rfl, rfl⟩⟩

/-- A turn that takes no message and ends nothing. -/
structure Quiet (s : Shard) (e : Exchange) (r : Event × Shard × Exchange) : Prop where
  message : r.1.message? = none
  replies : r.1.replies = []
  ends : r.1.ends = false
  exchange : r.2.2 = e
  id : r.2.1.id = s.id
  channel : r.2.1.channel = s.channel
  phase : r.2.1.phase = s.phase ∨ (s.phase = .serving ∧ r.2.1.phase = .draining)

theorem quiet_serve (s : Shard) (e : Exchange) (r : Request) (hserving : s.phase = .serving) :
    s.Quiet e ((s.serve r).1, (s.serve r).2, e) := by
  cases r with
  | install table hosted =>
    simp only [serve]
    split <;> exact ⟨rfl, rfl, rfl, rfl, rfl, rfl, Or.inl rfl⟩
  | report => exact ⟨rfl, rfl, rfl, rfl, rfl, rfl, Or.inl rfl⟩
  | stop => exact ⟨rfl, rfl, rfl, rfl, rfl, rfl, Or.inr ⟨hserving, rfl⟩⟩

/-- **One turn**, as it looks from the queue. -/
theorem turn_queue_cases (s : Shard) (e : Exchange) (which : Turn) :
    s.Quiet e (s.turn e which) ∨
    (∃ m e', e.receive s.channel = some (m, e') ∧ s.phase.runs = true ∧
      s.turn e which = s.handle e' m) ∨
    (e.receive s.channel = none ∧ s.phase = .draining ∧
      s.turn e which = (.ended, s.leave e .stopped)) := by
  rcases turn_cases s e which with
    hcase | ⟨r, rest, _, -, hserving, -, rfl, hcase⟩ | hhandled | ⟨hserving, hcase⟩ | hended
  · rw [hcase]
    exact Or.inl ⟨rfl, rfl, rfl, rfl, rfl, rfl, Or.inl rfl⟩
  · rw [hcase]
    have hquiet := quiet_serve { s with requests := rest } e r hserving
    exact Or.inl ⟨hquiet.message, hquiet.replies, hquiet.ends, rfl, hquiet.id, hquiet.channel,
      hquiet.phase⟩
  · exact Or.inr (Or.inl hhandled)
  · rw [hcase]
    exact Or.inl ⟨rfl, rfl, rfl, rfl, rfl, rfl, Or.inr ⟨hserving, rfl⟩⟩
  · exact Or.inr (Or.inr hended)

theorem calls_of_message {event : Event} (h : event.message? = some m) (channel : ChannelId) :
    event.calls channel = .receive channel :: (event.replies.map .send ++
      if event.ends then [.hangUp channel] else []) := by
  rw [Event.calls, h]
  rfl

/-- **What a turn asks of the exchange** is all that it does to it. -/
theorem after_turn (s : Shard) (e : Exchange) (which : Turn) (past : History) :
    (e.after past ((s.turn e which).1.calls s.channel)).2 = (s.turn e which).2.2 ∧
    reads s.channel (e.after past ((s.turn e which).1.calls s.channel)).1 =
      reads s.channel past ++ (s.turn e which).1.message?.toList ∧
    left s.channel (e.after past ((s.turn e which).1.calls s.channel)).1 =
      (left s.channel past || (s.turn e which).1.ends) := by
  rcases turn_queue_cases s e which with
    hquiet | ⟨m, e', hreceive, -, hcase⟩ | ⟨hreceive, -, hcase⟩
  · have hnone : (s.turn e which).1.calls s.channel = [] := by
      rw [Event.calls, hquiet.message, hquiet.replies, hquiet.ends]
      rfl
    rw [hnone, hquiet.message, hquiet.ends, Bool.or_false, Option.toList_none, List.append_nil]
    exact ⟨hquiet.exchange.symm, rfl, rfl⟩
  · rw [hcase]
    have htakes := takes_handle s e' m
    have hread : e.perform (.receive s.channel) = (.received (some m), e') := by
      rw [perform, hreceive]
    have hreads : reads s.channel (⟨.receive s.channel, .received (some m)⟩ :: past) =
        reads s.channel past ++ [m] := if_pos rfl
    rw [calls_of_message htakes.message, after, hread, htakes.message]
    simp only [after_append]
    obtain ⟨hexchange, hreads', hleft⟩ := after_sends s.channel e'
      (⟨.receive s.channel, .received (some m)⟩ :: past) (s.handle e' m).1.replies
    cases hends : (s.handle e' m).1.ends with
    | false =>
      rw [(htakes.goes_on hends).2, Bool.or_false]
      exact ⟨hexchange, hreads'.trans hreads, hleft⟩
    | true =>
      obtain ⟨-, hreplies, hgone⟩ := htakes.crashes hends
      rw [hreplies, hgone, Bool.or_true]
      exact ⟨rfl, hreads, if_pos rfl⟩
  · rw [hcase]
    exact ⟨rfl, (List.append_nil _).symm, by rw [Event.ends, Bool.or_true]; exact if_pos rfl⟩

theorem names_of_turn (s : Shard) (e : Exchange) (which : Turn) :
    (s.turn e which).2.1.id = s.id ∧ (s.turn e which).2.1.channel = s.channel := by
  rcases turn_queue_cases s e which with hquiet | ⟨m, e', -, -, hcase⟩ | ⟨-, -, hcase⟩
  · exact ⟨hquiet.id, hquiet.channel⟩
  · have htakes := takes_handle s e' m
    rw [hcase]
    exact ⟨htakes.id, htakes.channel⟩
  · rw [hcase]
    exact ⟨rfl, rfl⟩

theorem runs_of_turn (s : Shard) (e : Exchange) (which : Turn) :
    (s.turn e which).2.1.phase.runs = (s.phase.runs && !(s.turn e which).1.ends) := by
  rcases turn_queue_cases s e which with hquiet | ⟨m, e', -, hruns, hcase⟩ | ⟨-, hdraining, hcase⟩
  · rw [hquiet.ends, Bool.not_false, Bool.and_true]
    rcases hquiet.phase with hsame | ⟨hserving, hdraining⟩
    · rw [hsame]
    · rw [hserving, hdraining]
      rfl
  · have htakes := takes_handle s e' m
    rw [hcase, hruns, Bool.true_and]
    cases hends : (s.handle e' m).1.ends with
    | false => rw [(htakes.goes_on hends).1, hruns, Bool.not_false]
    | true =>
      obtain ⟨⟨why, hcrashed⟩, -⟩ := htakes.crashes hends
      rw [hcrashed]
      rfl
  · rw [hcase, hdraining]
    rfl

/-- A shard ends with nothing in its queue, and then it is still. -/
theorem stopped_of_turn {which : Turn} (h : (s.turn e which).2.1.phase = .stopped) :
    (s.phase = .stopped ∧ s.Quiet e (s.turn e which)) ∨
    (s.phase = .draining ∧ e.receive s.channel = none ∧ (s.turn e which).1 = .ended) := by
  rcases turn_queue_cases s e which with
    hquiet | ⟨m, e', -, hruns, hcase⟩ | ⟨hreceive, hdraining, hcase⟩
  · refine Or.inl ⟨?_, hquiet⟩
    rcases hquiet.phase with hsame | ⟨-, hdraining⟩
    · exact hsame.symm.trans h
    · cases hdraining.symm.trans h
  · have htakes := takes_handle s e' m
    rw [hcase] at h
    cases hends : (s.handle e' m).1.ends with
    | false =>
      rw [← (htakes.goes_on hends).1, h] at hruns
      cases hruns
    | true =>
      obtain ⟨⟨why, hcrashed⟩, -⟩ := htakes.crashes hends
      cases hcrashed.symm.trans h
  · exact Or.inr ⟨hdraining, hreceive, by rw [hcase]⟩

/-- Every reply is to a message that waited, or to the one that was taken. -/
theorem origin_of_turn (hlives : s.Lives) {which : Turn} {r : Message}
    (hr : r ∈ (s.turn e which).1.replies) :
    ∃ q, ((∃ table, s.Waits table q) ∨ ∃ e', e.receive s.channel = some (q, e')) ∧
      (r = q.reply ∨ ∃ (τ : ScalarType) (store : Store τ), r = q.answerFrom store) := by
  rcases turn_queue_cases s e which with hquiet | ⟨m, e', hreceive, -, hcase⟩ | ⟨-, -, hcase⟩
  · rw [hquiet.replies] at hr
    cases hr
  · rw [hcase] at hr
    obtain ⟨q, hq, horigin⟩ := (waits_of_handle (sound_of_lives hlives) e' m).2 r hr
    refine ⟨q, ?_, horigin⟩
    rcases hq with rfl | hwaits
    · exact Or.inr ⟨e', hreceive⟩
    · exact Or.inl ⟨m.table, hwaits⟩
  · rw [hcase] at hr
    cases hr

theorem taken_concat (events : List Event) (event : Event) :
    taken (events ++ [event]) = taken events ++ event.message?.toList := by
  rw [taken, taken, List.filterMap_append]
  cases hmessage : event.message? <;> simp [hmessage]

end Shard

namespace Message

variable {m r : Message}

theorem sized_answerFrom (h : m.Sized) {τ : ScalarType} (store : Store τ) :
    (m.answerFrom store).Sized := by
  have hkeys : m.keyList.length < UInt64.size := by
    unfold keyList keys
    split
    · next keys _ hblocks => exact h.2 (.keys keys) (hblocks ▸ List.mem_cons_self)
    all_goals decide
  refine ⟨by simp only [answerFrom, List.length_cons, List.length_nil]; decide, ?_⟩
  refine List.forall_mem_cons.mpr ⟨hkeys, List.forall_mem_singleton.mpr ?_⟩
  cases τ <;> simpa only [Block.ofValues, Block.length, List.length_map] using hkeys

/-- What a shard answers goes to an inbox. -/
theorem answers (h : m.Sized)
    (horigin : r = m.reply ∨ ∃ (τ : ScalarType) (store : Store τ), r = m.answerFrom store) :
    r.Sized ∧ r.address = .inbox m.sender m.table := by
  rcases horigin with rfl | ⟨τ, store, rfl⟩
  · exact ⟨⟨Nat.two_pow_pos 64, fun _ hb => by cases hb⟩, rfl⟩
  · exact ⟨sized_answerFrom h store, rfl⟩

end Message

end ParamServer
