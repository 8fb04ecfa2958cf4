import ParamServer.Proofs.Courier
import ParamServer.Proofs.Outcome
import ParamServer.Proofs.Session.Owes

/-!
# What a call comes to

One lemma for each call that a worker makes and each way it ends. What was sent is always
`Courier.sendAll` of the messages of the call, and a call that fails on the way has sent the first
ones of them.
-/

namespace ParamServer.Session

variable {τ : ScalarType} {σ : Type} [Courier σ] {s s' : Session τ} {courier courier' : σ}
  {keys : List Key} {why : Error}

def moved (s : Session τ) : Session τ := { s with clock := s.clock + 1 }

/-- The messages that tell every shard of the clock. -/
def ticks (s : Session τ) : List Message := s.layout.shards.map (s.message .clock · [])

theorem clock_le_moved (h : s.clock.toNat + 1 ≠ UInt64.size) : s.clock ≤ s.moved.clock :=
  UInt64.le_of_lt (lt_add_one h)

theorem op_of_requests {runs : List Run} : ∀ m ∈ s.requests runs, m.op = .get := by
  intro m hm
  obtain ⟨run, -, rfl⟩ := List.mem_map.mp hm
  rfl

theorem adds_of_updates {values : List τ.Value} {runs : List Run} :
    ∀ m ∈ s.updates values runs, m.op = .add := by
  intro m hm
  obtain ⟨run, -, rfl⟩ := List.mem_map.mp hm
  rfl

theorem op_of_updates {values : List τ.Value} {runs : List Run} :
    ∀ m ∈ s.updates values runs, m.op ≠ .get := by
  intro m hm
  rw [adds_of_updates m hm]
  exact fun h => by cases h

theorem clocks_of_ticks : ∀ m ∈ s.ticks, m.op = .clock := by
  intro m hm
  obtain ⟨shard, -, rfl⟩ := List.mem_map.mp hm
  rfl

theorem op_of_ticks : ∀ m ∈ s.ticks, m.op ≠ .get := by
  intro m hm
  rw [clocks_of_ticks m hm]
  exact fun h => by cases h

/-- Each shard is told once. -/
theorem filter_ticks {q : Piece} (hq : q ∈ s.layout.pieces) :
    (s.ticks.filter fun m => decide (m.receiver = q.shard)) = [s.message .clock q.shard []] := by
  have hreceivers : s.ticks.map (·.receiver) = s.layout.shards := by
    rw [ticks, List.map_map]
    exact List.map_id _
  have hmem : s.message .clock q.shard [] ∈ s.ticks :=
    List.mem_map.mpr ⟨q.shard, List.mem_map_of_mem hq, rfl⟩
  exact filter_of_nodup (f := Message.receiver)
    (hreceivers ▸ s.layout.wellFormed.distinct) hmem

theorem zip_of_runs {α : Type} {values : List α} {runs : List Run} {start : Nat}
    (hstarts : ∀ front r back, runs = front ++ r :: back →
      r.start = start + (front.flatMap (·.keys)).length)
    (hlength : start + (runs.flatMap (·.keys)).length = values.length) :
    (runs.flatMap fun r => r.keys.zip ((values.drop r.start).take r.keys.length)) =
      (runs.flatMap (·.keys)).zip (values.drop start) := by
  induction runs generalizing start with
  | nil => rfl
  | cons r rest ih =>
    have hstart := hstarts [] r rest rfl
    simp only [List.flatMap_nil, List.length_nil, Nat.add_zero] at hstart
    simp only [List.flatMap_cons, List.length_append] at hlength ⊢
    have hrest : (rest.flatMap fun r => r.keys.zip ((values.drop r.start).take r.keys.length)) =
        (rest.flatMap (·.keys)).zip (values.drop (start + r.keys.length)) := by
      refine ih ?_ (by omega)
      intro front q back hsplit
      rw [hstarts (r :: front) q back (by rw [hsplit]; rfl)]
      simp only [List.flatMap_cons, List.length_append]
      omega
    rw [hrest, hstart]
    conv_rhs => rw [← List.take_append_drop r.keys.length (values.drop start)]
    rw [List.zip_append (by rw [List.length_take, List.length_drop]; omega), List.drop_drop]

/-- Side by side, the messages of an update are the batch. -/
theorem pairs_of_updates {runs : List Run} (hcut : s.layout.Cut 0 keys runs)
    {values : List τ.Value} (hlength : keys.length = values.length) :
    (s.updates values runs).flatMap (·.updates τ) = keys.zip values := by
  have hmessage : ∀ r : Run, (s.message .add r.shard
      [.keys r.keys, .ofValues τ ((values.drop r.start).take r.keys.length)]).updates τ =
        r.keys.zip ((values.drop r.start).take r.keys.length) := by
    intro r
    rw [Message.updates, Message.values_eq_ok rfl]
    rfl
  simp only [updates, List.flatMap_map, hmessage]
  rw [zip_of_runs hcut.starts (by rw [hcut.whole]; omega), hcut.whole, List.drop_zero]

theorem push_eq_ok {values : List τ.Value} (h : s.push courier keys values = .ok () courier') :
    keys.length = values.length ∧ ∃ runs, s.layout.runs keys = .ok runs ∧
      (Courier.sendAll courier (s.updates values runs)).failure = none ∧
      courier' = (Courier.sendAll courier (s.updates values runs)).courier := by
  unfold push at h
  split at h
  case isTrue => cases h
  case isFalse hlength =>
    cases hruns : s.layout.runs keys with
    | error why =>
      rw [hruns] at h
      cases why <;> cases h
    | ok runs =>
      rw [hruns] at h
      simp only at h
      split at h
      case h_1 => cases h
      case h_2 hnone =>
        obtain ⟨-, rfl⟩ := Outcome.ok.inj h
        exact ⟨Decidable.not_not.mp hlength, runs, rfl, hnone, rfl⟩

theorem push_eq_error {values : List τ.Value}
    (h : s.push courier keys values = .error why courier') :
    (courier' = courier ∧ ((∃ m, why = .malformed m) ∨ ∃ key, why = .keyOutOfRange key)) ∨
      ∃ runs, s.layout.runs keys = .ok runs ∧ keys.length = values.length ∧
        (Courier.sendAll courier (s.updates values runs)).failure = some why ∧
        courier' = (Courier.sendAll courier (s.updates values runs)).courier := by
  unfold push at h
  split at h
  case isTrue =>
    obtain ⟨rfl, rfl⟩ := Outcome.error.inj h
    exact Or.inl ⟨rfl, Or.inl ⟨_, rfl⟩⟩
  case isFalse hlength =>
    cases hruns : s.layout.runs keys with
    | error failure =>
      rw [hruns] at h
      cases failure with
      | error why =>
        obtain ⟨rfl, rfl⟩ := Outcome.error.inj h
        exact Or.inl ⟨rfl, Or.inr (Layout.error_of_runs hruns)⟩
      | fault why => cases h
    | ok runs =>
      rw [hruns] at h
      simp only at h
      split at h
      case h_1 why hsome =>
        obtain ⟨rfl, rfl⟩ := Outcome.error.inj h
        exact Or.inr ⟨runs, rfl, Decidable.not_not.mp hlength, hsome, rfl⟩
      case h_2 => cases h

theorem tick_eq_ok (h : s.tick courier = .ok () (s', courier')) :
    s.clock.toNat + 1 ≠ UInt64.size ∧ s' = s.moved ∧
      (Courier.sendAll courier s.moved.ticks).failure = none ∧
      courier' = (Courier.sendAll courier s.moved.ticks).courier := by
  unfold tick at h
  split at h
  case isTrue => cases h
  case isFalse hroom =>
    simp only at h
    split at h
    case h_1 => cases h
    case h_2 hnone =>
      obtain ⟨-, hstate⟩ := Outcome.ok.inj h
      obtain ⟨rfl, rfl⟩ := Prod.mk.inj hstate
      exact ⟨hroom, rfl, hnone, rfl⟩

theorem tick_eq_error (h : s.tick courier = .error why (s', courier')) :
    s' = s ∧ (Courier.sendAll courier s.moved.ticks).failure = some why ∧
      courier' = (Courier.sendAll courier s.moved.ticks).courier := by
  unfold tick at h
  split at h
  case isTrue => cases h
  case isFalse =>
    simp only at h
    split at h
    case h_1 why hsome =>
      obtain ⟨rfl, hstate⟩ := Outcome.error.inj h
      obtain ⟨rfl, rfl⟩ := Prod.mk.inj hstate
      exact ⟨rfl, hsome, rfl⟩
    case h_2 => cases h

/-- The shards are told of the next clock, unless there is none. -/
theorem toNat_moved {left : Session τ × σ} (h : (s.tick courier).Leaves left) :
    s.moved.clock.toNat = s.clock.toNat + 1 := by
  refine toNat_add_one fun hfull => ?_
  rw [tick, if_pos hfull, Outcome.leaves_fault] at h
  exact h

theorem exists_tick_leaves (hroom : s.clock.toNat + 1 ≠ UInt64.size) (courier : σ) :
    ∃ left, (s.tick courier).Leaves left := by
  rw [tick, if_neg hroom]
  dsimp only
  split
  · exact ⟨_, Outcome.leaves_error.mpr rfl⟩
  · exact ⟨_, Outcome.leaves_ok.mpr rfl⟩

/-- Where nothing fails, every shard concerned is asked. -/
theorem take_sent {runs : List Run}
    (h : (Courier.sendAll courier (s.requests runs)).failure = none) :
    runs.take (Courier.sendAll courier (s.requests runs)).sent = runs := by
  rw [Courier.sent_eq h, requests, List.length_map, List.take_length]

theorem startPull_of_sent {runs : List Run} (hruns : s.layout.runs keys = .ok runs)
    (hkeys : keys ≠ []) (hroom : s.lastRequest.toNat + 1 ≠ UInt64.size)
    (hsent : (Courier.sendAll courier (s.numbered.requests runs)).failure = none) :
    s.startPull courier keys = .ok (asking s.numbered.lastRequest runs)
      (s.numbered, (Courier.sendAll courier (s.numbered.requests runs)).courier) := by
  have hall := take_sent hsent
  unfold numbered at hsent hall
  rw [startPull, if_neg (by simpa using hkeys), hruns]
  simp only [if_neg hroom, hsent, hall]
  rfl

theorem startPull_eq_ok {p : Pull τ} (h : s.startPull courier keys = .ok p (s', courier')) :
    (keys = [] ∧ p = ⟨s.lastRequest, []⟩ ∧ s' = s ∧ courier' = courier) ∨
      ∃ runs, s.layout.runs keys = .ok runs ∧ s.lastRequest.toNat + 1 ≠ UInt64.size ∧
        (Courier.sendAll courier (s.numbered.requests runs)).failure = none ∧
        p = asking s.numbered.lastRequest runs ∧ s' = s.numbered ∧
        courier' = (Courier.sendAll courier (s.numbered.requests runs)).courier := by
  unfold startPull at h
  split at h
  case isTrue hempty =>
    obtain ⟨rfl, hstate⟩ := Outcome.ok.inj h
    obtain ⟨rfl, rfl⟩ := Prod.mk.inj hstate
    exact Or.inl ⟨List.isEmpty_iff.mp hempty, rfl, rfl, rfl⟩
  case isFalse =>
    cases hruns : s.layout.runs keys with
    | error failure =>
      rw [hruns] at h
      cases failure <;> cases h
    | ok runs =>
      rw [hruns] at h
      simp only at h
      split at h
      case isTrue => cases h
      case isFalse hroom =>
        split at h
        case h_1 => cases h
        case h_2 hnone =>
          obtain ⟨rfl, hstate⟩ := Outcome.ok.inj h
          obtain ⟨rfl, rfl⟩ := Prod.mk.inj hstate
          refine Or.inr ⟨runs, rfl, hroom, hnone, ?_, rfl, rfl⟩
          exact congrArg (asking s.numbered.lastRequest) (take_sent (s := s.numbered) hnone)

/-- A read uses up one number, or none if it asks nobody. -/
theorem lastRequest_of_startPull {p : Pull τ}
    (h : s.startPull courier keys = .ok p (s', courier')) :
    s'.lastRequest.toNat ≤ s.lastRequest.toNat + 1 := by
  rcases startPull_eq_ok h with ⟨-, -, rfl, -⟩ | ⟨runs, -, hroom, -, -, rfl, -⟩
  · exact Nat.le_add_right ..
  · exact Nat.le_of_eq (toNat_add_one hroom)

theorem startPull_eq_error (h : s.startPull courier keys = .error why (s', courier')) :
    (s' = s ∧ courier' = courier ∧ ∃ key, why = .keyOutOfRange key) ∨
      ∃ runs, s.layout.runs keys = .ok runs ∧ s.lastRequest.toNat + 1 ≠ UInt64.size ∧
        (Courier.sendAll courier (s.numbered.requests runs)).failure = some why ∧
        s' = s.numbered.abandon (asking s.numbered.lastRequest
          (runs.take (Courier.sendAll courier (s.numbered.requests runs)).sent)) ∧
        courier' = (Courier.sendAll courier (s.numbered.requests runs)).courier := by
  unfold startPull at h
  split at h
  case isTrue => cases h
  case isFalse =>
    cases hruns : s.layout.runs keys with
    | error failure =>
      rw [hruns] at h
      cases failure with
      | error why =>
        obtain ⟨rfl, hstate⟩ := Outcome.error.inj h
        obtain ⟨rfl, rfl⟩ := Prod.mk.inj hstate
        exact Or.inl ⟨rfl, rfl, Layout.error_of_runs hruns⟩
      | fault why => cases h
    | ok runs =>
      rw [hruns] at h
      simp only at h
      split at h
      case isTrue => cases h
      case isFalse hroom =>
        split at h
        case h_1 why hsome =>
          obtain ⟨rfl, hstate⟩ := Outcome.error.inj h
          obtain ⟨rfl, rfl⟩ := Prod.mk.inj hstate
          exact Or.inr ⟨runs, rfl, hroom, hsome, rfl, rfl⟩
        case h_2 => cases h

end ParamServer.Session
