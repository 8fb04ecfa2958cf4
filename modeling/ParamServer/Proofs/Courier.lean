import ParamServer.Courier

/-!
# What was sent

A series of messages is sent up to the first that fails, so what has arrived is a prefix of it
(`sendAll_recorded`). Any courier can be made to keep a record of what it took.
-/

namespace ParamServer

theorem Courier.sent_eq {σ : Type} [Courier σ] {c : σ} {ms : List Message}
    (h : (sendAll c ms).failure = none) : (sendAll c ms).sent = ms.length := by
  induction ms generalizing c with
  | nil => rfl
  | cons m rest ih =>
    rw [sendAll] at h ⊢
    cases hsend : send c m with
    | error why =>
      rw [hsend] at h
      cases h
    | ok next =>
      rw [hsend] at h
      rw [List.length_cons, ← ih h]

/-- A courier and what it has taken, in order. -/
structure Recorded (σ : Type) where
  inner : σ
  taken : List Message := []

namespace Recorded

variable {σ : Type} [Courier σ]

instance : Courier (Recorded σ) where
  send c m :=
    match Courier.send c.inner m with
    | .ok inner => .ok ⟨inner, c.taken ++ [m]⟩
    | .error why => .error why
  closeInbox c thread table := { c with inner := Courier.closeInbox c.inner thread table }

theorem send_eq_ok_iff {c c' : Recorded σ} {m : Message} :
    Courier.send c m = .ok c' ↔
      ∃ inner, Courier.send c.inner m = .ok inner ∧ c' = ⟨inner, c.taken ++ [m]⟩ := by
  simp only [Courier.send]
  cases Courier.send c.inner m with
  | error why => simp
  | ok inner => simp [eq_comm]

theorem send_eq_error_iff {c : Recorded σ} {m : Message} {why : Error} :
    Courier.send c m = .error why ↔ Courier.send c.inner m = .error why := by
  simp only [Courier.send]
  cases Courier.send c.inner m <;> simp

/-- **A series of messages.** The record grows by those that were sent, which are the first ones,
and all of them unless the courier refused one. -/
theorem sendAll_recorded (c : Recorded σ) (ms : List Message) :
    (Courier.sendAll c ms).courier.taken = c.taken ++ ms.take (Courier.sendAll c ms).sent ∧
      ((Courier.sendAll c ms).failure = none → (Courier.sendAll c ms).sent = ms.length) ∧
      ∀ why, (Courier.sendAll c ms).failure = some why →
        ∃ inner m, Courier.send (σ := σ) inner m = .error why := by
  induction ms generalizing c with
  | nil => exact ⟨(List.append_nil _).symm, fun _ => rfl, fun why hwhy => by cases hwhy⟩
  | cons m rest ih =>
    cases hsend : Courier.send c m with
    | error why =>
      have hall : Courier.sendAll c (m :: rest) = ⟨c, 0, some why⟩ := by
        rw [Courier.sendAll, hsend]
      rw [hall]
      refine ⟨(List.append_nil _).symm, (fun hnone => by cases hnone), ?_⟩
      intro why' hwhy'
      obtain rfl := Option.some.inj hwhy'
      exact ⟨c.inner, m, send_eq_error_iff.mp hsend⟩
    | ok next =>
      have hall : Courier.sendAll c (m :: rest) =
          { Courier.sendAll next rest with sent := (Courier.sendAll next rest).sent + 1 } := by
        rw [Courier.sendAll, hsend]
      obtain ⟨htaken, hcomplete, hfailure⟩ := ih next
      obtain ⟨inner, -, rfl⟩ := send_eq_ok_iff.mp hsend
      rw [hall]
      refine ⟨?_, ?_, hfailure⟩
      · simp only
        rw [htaken, List.take_succ_cons, List.append_assoc]
        rfl
      · intro hnone
        rw [List.length_cons, ← hcomplete hnone]

theorem taken_sendAll (inner : σ) (ms : List Message) :
    (Courier.sendAll (⟨inner, []⟩ : Recorded σ) ms).courier.taken =
      ms.take (Courier.sendAll (⟨inner, []⟩ : Recorded σ) ms).sent := by
  rw [(sendAll_recorded ⟨inner, []⟩ ms).1, List.nil_append]

theorem mem_of_taken {inner : σ} {ms : List Message} {m : Message}
    (h : m ∈ (Courier.sendAll (⟨inner, []⟩ : Recorded σ) ms).courier.taken) : m ∈ ms := by
  rw [taken_sendAll] at h
  exact List.mem_of_mem_take h

end Recorded

theorem Outbox.sendAll_eq {o : Outbox} (hcut : o.cut = []) (ms : List Message) :
    Courier.sendAll o ms = ⟨{ o with sent := o.sent ++ ms }, ms.length, none⟩ := by
  induction ms generalizing o with
  | nil => simp [Courier.sendAll]
  | cons m rest ih =>
    have hsend : Courier.send o m = .ok { o with sent := o.sent ++ [m] } := by
      simp [Courier.send, hcut]
    have hrest := ih (o := { o with sent := o.sent ++ [m] }) hcut
    rw [Courier.sendAll, hsend]
    simp only [hrest, List.append_assoc, List.length_cons, List.singleton_append]

end ParamServer
