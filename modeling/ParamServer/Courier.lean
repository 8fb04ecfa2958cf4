import ParamServer.Message

/-!
# Couriers

What a worker needs of a network: to send messages, and to give up its inbox.
-/

namespace ParamServer

class Courier (σ : Type) where
  /-- A message that cannot be sent changes nothing. -/
  send : σ → Message → Except Error σ
  closeInbox : σ → ThreadId → TableId → σ

/-- How far a series of messages got. -/
structure Dispatch (σ : Type) where
  courier : σ
  sent : Nat
  failure : Option Error

namespace Courier

variable {σ : Type} [Courier σ]

/-- Sends the messages in order up to the first that fails. -/
def sendAll (c : σ) : List Message → Dispatch σ
  | [] => ⟨c, 0, none⟩
  | m :: ms =>
    match send c m with
    | .error why => ⟨c, 0, some why⟩
    | .ok c =>
      let d := sendAll c ms
      { d with sent := d.sent + 1 }

/-- Sends a message, or loses it. -/
def trySend (c : σ) (m : Message) : σ :=
  match send c m with
  | .ok c => c
  | .error _ => c

end Courier

/-- A courier that keeps what it is given. Links to the shards in `cut` are down. -/
structure Outbox where
  sent : List Message := []
  cut : List ThreadId := []
  closed : List (ThreadId × TableId) := []

instance : Courier Outbox where
  send o m :=
    if m.receiver ∈ o.cut then .error (.transport (.unreachable m.receiver))
    else .ok { o with sent := o.sent ++ [m] }
  closeInbox o thread table := { o with closed := o.closed ++ [(thread, table)] }

end ParamServer
