import ParamServer.Proofs.Exchange

/-!
# Whom a message reaches

A message that is sent comes to the channel that holds its address, and if there is none or its
reader has left, to nobody (`delivers`). In a series of messages each one gets where it can,
whatever becomes of those before it (`queue_trySends`). What a channel has got stays with it
(`arrivals_after`), and once its reader has left nothing more comes (`arrivals_of_left`).
-/

namespace ParamServer

/-! ### Handing on -/

namespace Exchange

open History

variable {e : Exchange} {past : History} {m : Message} {channel other : ChannelId}

/-- Whether a message that is sent now comes to the channel. -/
def delivers (e : Exchange) (channel : ChannelId) (m : Message) : Bool :=
  decide (e.holder m.address = some channel) && e.held channel

theorem lt_size_of_held (h : e.held channel = true) : channel < e.channels.size := by
  by_contra hout
  rw [held, Array.getElem?_eq_none (Nat.le_of_not_lt hout)] at h
  cases h

theorem trySend_of_sized (hsized : m.Sized) :
    (∃ channel, e.delivers channel m = true ∧
      Courier.trySend e m = e.setQueue channel (e.queue channel ++ [m])) ∨
    (∀ channel, e.delivers channel m = false) ∧ Courier.trySend e m = e := by
  have htry : Courier.trySend e m = (e.send m).toOption.getD e := by
    unfold Courier.trySend
    cases hsend : e.send m <;> simp only [Courier.send, hsend] <;> rfl
  rw [htry]
  cases hholder : e.holder m.address with
  | none => exact Or.inr ⟨by simp [delivers, hholder], by rw [send_of_astray hholder]; rfl⟩
  | some channel =>
    rw [send_of_holder hsized hholder]
    cases hheld : e.held channel with
    | true => exact Or.inl ⟨channel, by simp [delivers, hholder, hheld], rfl⟩
    | false =>
      refine Or.inr ⟨fun other => ?_, rfl⟩
      by_cases heq : channel = other
      · simp [delivers, ← heq, hheld]
      · simp [delivers, hholder, heq]

theorem delivers_setQueue (e : Exchange) (channel other : ChannelId) (ms : List Message) :
    (e.setQueue channel ms).delivers other = e.delivers other := by
  funext m
  rw [delivers, held_setQueue]
  rfl

/-- A message changes the queue that it comes to, if any, and nobody's address. -/
theorem queue_trySend (hsized : m.Sized) :
    (Courier.trySend e m).queue channel =
      e.queue channel ++ (if e.delivers channel m then [m] else []) := by
  rcases trySend_of_sized (e := e) hsized with ⟨found, hfound, hcase⟩ | ⟨hnone, hcase⟩
  · rw [hcase, queue_setQueue (lt_size_of_held (Bool.and_eq_true_iff.mp hfound).2)]
    by_cases heq : channel = found
    · rw [if_pos heq, heq, if_pos hfound]
    · have hholder := of_decide_eq_true (Bool.and_eq_true_iff.mp hfound).1
      simp [delivers, hholder, heq, Ne.symm heq]
  · simp [hcase, hnone]

theorem delivers_trySend (hsized : m.Sized) :
    (Courier.trySend e m).delivers channel = e.delivers channel := by
  funext other
  rcases trySend_of_sized (e := e) hsized with ⟨found, -, hcase⟩ | ⟨-, hcase⟩
  · rw [hcase, delivers, held_setQueue]
    rfl
  · rw [hcase]

/-- **A series of messages.** Each one gets where it can, whatever becomes of those before it. -/
theorem queue_trySends {ms : List Message} (hsized : ∀ m ∈ ms, m.Sized) :
    (ms.foldl Courier.trySend e).queue channel =
      e.queue channel ++ ms.filter (e.delivers channel) := by
  induction ms generalizing e with
  | nil => simp
  | cons m rest ih =>
    obtain ⟨hm, hrest⟩ := List.forall_mem_cons.mp hsized
    rw [List.foldl_cons, ih hrest, queue_trySend hm, delivers_trySend hm, List.append_assoc]
    cases hdelivers : e.delivers channel m <;> simp [hdelivers]

theorem receive_eq_none (h : e.receive channel = none) : e.queue channel = [] := by
  unfold receive at h
  split at h
  · next hqueue => exact hqueue
  · cases h

theorem receive_eq_some {e' : Exchange} (h : e.receive channel = some (m, e')) :
    ∃ rest, e.queue channel = m :: rest ∧ e' = e.setQueue channel rest := by
  unfold receive at h
  split at h
  · cases h
  · next first rest hqueue =>
    obtain ⟨rfl, rfl⟩ := Prod.mk.inj (Option.some.inj h)
    exact ⟨rest, hqueue, rfl⟩

theorem reads_cons_of_ne {call : Call} (h : call ≠ .receive channel) (result : Result) :
    reads channel (⟨call, result⟩ :: past) = reads channel past := by
  cases call with
  | receive other =>
    have hne : other ≠ channel := fun hsame => h (by rw [hsame])
    rcases result with _ | _ | (_ | m) | _
    case received.some => exact if_neg hne
    all_goals rfl
  | _ => rfl

theorem left_cons_of_ne {call : Call} {result : Result} (hleaves : call ≠ .hangUp channel)
    (hopens : result ≠ .opened channel) :
    left channel (⟨call, result⟩ :: past) = left channel past := by
  cases call with
  | «open» a =>
    cases result with
    | opened other => exact if_neg fun hsame => hopens (by rw [hsame])
    | _ => rfl
  | hangUp other =>
    cases result with
    | done => exact if_neg fun hsame => hleaves (by rw [hsame])
    | _ => rfl
  | _ => rfl

/-- A channel that is there is not opened a second time. -/
theorem perform_ne_opened (e : Exchange) (call : Call) (h : channel < e.channels.size) :
    (e.perform call).1 ≠ .opened channel := by
  cases call with
  | «open» a =>
    rcases perform_open e a with ⟨why, hcase⟩ | ⟨e', hcase, -⟩
    · rw [hcase]
      simp
    · rw [hcase]
      simpa using Nat.ne_of_gt h
  | close a =>
    obtain ⟨e', hcase, -⟩ := perform_close e a
    rw [hcase]
    simp
  | send m => cases hsend : e.send m <;> simp [perform, hsend]
  | receive other => cases hreceive : e.receive other <;> simp [perform, hreceive]
  | hangUp other => simp [perform]

theorem after_append (e : Exchange) (past : History) (front back : List Call) :
    e.after past (front ++ back) = (e.after past front).2.after (e.after past front).1 back := by
  induction front generalizing e past with
  | nil => rfl
  | cons call rest ih => exact ih ..

theorem perform_send (e : Exchange) (m : Message) :
    (e.perform (.send m)).2 = Courier.trySend e m := by
  cases hsend : e.send m <;> simp only [perform, Courier.trySend, Courier.send, hsend]

/-- What a channel has got is there for good. -/
theorem arrivals_cons (entry : Entry) (past : History) (channel : ChannelId) :
    arrivals channel (entry :: past) = arrivals channel past ∨
      ∃ m, entry = ⟨.send m, .done⟩ ∧ holder? m.address past = some channel ∧
        arrivals channel (entry :: past) = arrivals channel past ++ [m] := by
  obtain ⟨call, result⟩ := entry
  cases call with
  | send m =>
    cases result with
    | done =>
      rw [arrivals]
      split
      case isTrue hholder => exact Or.inr ⟨m, rfl, hholder, rfl⟩
      case isFalse => exact Or.inl rfl
    | _ => exact Or.inl rfl
  | _ => exact Or.inl rfl

/-- Nothing comes to a channel whose reader has left. -/
theorem arrivals_of_left (h : Logged past e) (hleft : left channel past = true) {call : Call}
    (hsized : ∀ m, call = .send m → m.Sized) :
    arrivals channel (⟨call, (e.perform call).1⟩ :: past) = arrivals channel past := by
  refine (arrivals_cons _ past channel).resolve_right ?_
  rintro ⟨m, hsent, hholder, -⟩
  obtain ⟨rfl, hdone⟩ := Entry.mk.inj hsent
  rw [perform_send_eq_verdict h (hsized m rfl)] at hdone
  simp [verdict, hholder, hleft] at hdone

theorem arrivals_after (e : Exchange) (past : History) (calls : List Call) (channel : ChannelId) :
    arrivals channel past <+: arrivals channel (e.after past calls).1 ∧
      ∀ m ∈ arrivals channel (e.after past calls).1,
        m ∈ arrivals channel past ∨ .send m ∈ calls := by
  induction calls generalizing e past with
  | nil => exact ⟨List.prefix_rfl, fun m hm => Or.inl hm⟩
  | cons call rest ih =>
    obtain ⟨hkept, hmem⟩ := ih (e.perform call).2 (⟨call, (e.perform call).1⟩ :: past)
    rcases arrivals_cons ⟨call, (e.perform call).1⟩ past channel with hsame | ⟨m, hsent, -, hmore⟩
    · rw [hsame] at hkept
      refine ⟨hkept, fun m hm => ?_⟩
      rcases hmem m hm with hold | hcall
      · exact Or.inl (hsame ▸ hold)
      · exact Or.inr (List.mem_cons_of_mem _ hcall)
    · obtain rfl : call = .send m := congrArg Entry.call hsent
      constructor
      · rw [hmore] at hkept
        exact (List.prefix_append ..).trans hkept
      · intro q hq
        rcases hmem q hq with hold | hcall
        · rw [hmore] at hold
          rcases List.mem_append.mp hold with hold | hnew
          · exact Or.inl hold
          · rw [List.mem_singleton.mp hnew]
            exact Or.inr List.mem_cons_self
        · exact Or.inr (List.mem_cons_of_mem _ hcall)

theorem mem_after (e : Exchange) (calls : List Call) {past : History} {entry : Entry}
    (h : entry ∈ past) : entry ∈ (e.after past calls).1 := by
  induction calls generalizing e past with
  | nil => exact h
  | cons call rest ih => exact ih _ (List.mem_cons_of_mem _ h)

/-- Sending reads nothing and leaves no channel. -/
theorem after_sends (channel : ChannelId) (e : Exchange) (past : History) (ms : List Message) :
    (e.after past (ms.map .send)).2 = ms.foldl Courier.trySend e ∧
    reads channel (e.after past (ms.map .send)).1 = reads channel past ∧
    left channel (e.after past (ms.map .send)).1 = left channel past := by
  induction ms generalizing e past with
  | nil => exact ⟨rfl, rfl, rfl⟩
  | cons m rest ih =>
    rw [List.map_cons, List.foldl_cons, ← perform_send]
    exact ih ..

end Exchange

end ParamServer
