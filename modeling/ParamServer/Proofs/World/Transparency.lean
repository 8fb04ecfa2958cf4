import ParamServer.Proofs.World.Orderly

/-!
# Many shards look like one map

A table that keeps no reader waiting, laid out over shards that each handle their messages in the
order in which they were sent. A `Mirror` is such a world next to one map from keys to sums, to
which every batch is added the moment it is pushed. A shard lags behind the map by the updates in
its own queue and by nothing else (`Faithful.due`), so a read finds at its turn what the map held
when it was begun (`Faithful.promised`): the updates ahead of it in the queue are the ones pushed
before.
-/

namespace ParamServer

variable {τ : ScalarType}

/-- A table that is one map. -/
abbrev Ledger (τ : ScalarType) := Key → τ.Value

namespace Ledger

/-- Adds a batch, pair by pair. -/
def credit (ledger : Ledger τ) : List (Key × τ.Value) → Except Fault (Ledger τ)
  | [] => .ok ledger
  | (key, delta) :: rest =>
    match τ.add (ledger key) delta with
    | .ok sum => credit (Function.update ledger key sum) rest
    | .error why => .error why

/-- What an answer says of a key is what the map holds. -/
def Agrees (ledger : Ledger τ) (a : Message) : Prop :=
  ∀ run, a.keys = .ok run → a.values τ = .ok (run.map ledger)

theorem foldlM_of_credit {ledger ledger' : Ledger τ} {pairs : List (Key × τ.Value)}
    (h : ledger.credit pairs = .ok ledger') (key : Key) :
    (deltasAt key pairs).foldlM τ.add (ledger key) = .ok (ledger' key) := by
  induction pairs generalizing ledger with
  | nil =>
    cases h
    rfl
  | cons head rest ih =>
    obtain ⟨k, delta⟩ := head
    rw [credit] at h
    cases hsum : τ.add (ledger k) delta with
    | error why =>
      rw [hsum] at h
      cases h
    | ok sum =>
      rw [hsum] at h
      have hrest := ih h
      by_cases hkey : k = key
      · subst hkey
        rw [deltasAt_cons_self, List.foldlM_cons, hsum]
        rwa [Function.update_self] at hrest
      · rw [deltasAt_cons_of_ne hkey]
        rwa [Function.update_of_ne (Ne.symm hkey)] at hrest

end Ledger

/-- The tablets turn none of the workers away, and keep no reader waiting. -/
def Site.Open (site : Site τ) : Prop := site.Welcomes fun spec => spec.model = .asp

/-- A world, the one map it is like, and what that held when each worker began its read. -/
structure Mirror (τ : ScalarType) where
  world : World τ
  ledger : Ledger τ
  seen : ThreadId → Ledger τ

namespace Mirror

open World

def start (site : Site τ) : Mirror τ := ⟨site.start, fun _ => τ.zero, fun _ _ => τ.zero⟩

/-- Workers push and read, and shards handle what comes first in their queues. No sum leaves its
type. -/
inductive Next (site : Site τ) (M : Mirror τ) : Mirror τ → Prop
  | push {w : ThreadId} {keys : List Key} {values : List τ.Value} {out : Outbox} {ledger : Ledger τ}
      (hw : w ∈ site.workers) (hidle : (M.world.workers w).call = none)
      (h : (M.world.workers w).session.push line keys values = .ok () out)
      (hcredit : M.ledger.credit (keys.zip values) = .ok ledger) :
      Next site M { M with world := M.world.post out.sent, ledger }
  | ask {w : ThreadId} {keys : List Key} {pull : Pull τ} {session : Session τ} {out : Outbox}
      (hw : w ∈ site.workers) (hidle : (M.world.workers w).call = none)
      (h : (M.world.workers w).session.startPull line keys = .ok pull (session, out)) :
      Next site M
        { M with
          world := (M.world.post out.sent).seat w
            { M.world.workers w with
              session, call := some { clock := (M.world.workers w).session.clock, keys, pull } }
          seen := Function.update M.seen w M.ledger }
  | serve {p : ThreadId} {m : Message} {rest : List Message} {s : Step τ}
      (hqueue : (M.world.shards p).queue = m :: rest)
      (h : (M.world.shards p).tablet.step m = .ok s) :
      Next site M { M with world := M.world.served p rest s }
  | wait {w : ThreadId} {call : Call τ} {front rest : List Message} {pull : Pull τ}
      {session : Session τ} (hw : w ∈ site.workers) (hcall : (M.world.workers w).call = some call)
      (hinbox : (M.world.workers w).inbox.Perm (front ++ rest))
      (h : (M.world.workers w).session.collect call.pull front = .pending pull session) :
      Next site M
        { M with
          world := M.world.seat w
            ⟨session, rest, some { call with pull, answers := call.answers ++ front }⟩ }
  | finish {w : ThreadId} {call : Call τ} {used unread rest : List Message}
      {values : List τ.Value} {session : Session τ} (hw : w ∈ site.workers)
      (hcall : (M.world.workers w).call = some call)
      (hinbox : (M.world.workers w).inbox.Perm (used ++ unread ++ rest))
      (h : (M.world.workers w).session.collect call.pull (used ++ unread) =
        .done values session unread) :
      Next site M { M with world := M.world.seat w ⟨session, unread ++ rest, none⟩ }

inductive Reachable (site : Site τ) : Mirror τ → Prop
  | start : Reachable site (start site)
  | next {M M' : Mirror τ} (h : Reachable site M) (hnext : Next site M M') : Reachable site M'

/-! ### What holds all the time -/

end Mirror

/-- What messages add to a key, in order. -/
def Message.addsAt (τ : ScalarType) (key : Key) (ms : List Message) : List τ.Value :=
  deltasAt key ((ms.filter fun m => decide (m.op = .add)).flatMap (·.updates τ))

theorem Message.addsAt_append (key : Key) (front back : List Message) :
    addsAt τ key (front ++ back) = addsAt τ key front ++ addsAt τ key back := by
  rw [addsAt, List.filter_append, List.flatMap_append, deltasAt_append]
  rfl

theorem Message.addsAt_of_gets {ms : List Message} (h : ∀ m ∈ ms, m.op = .get) (key : Key) :
    addsAt τ key ms = [] := by
  rw [addsAt, List.filter_eq_nil_iff.mpr]
  · rfl
  · intro m hm
    simp [h m hm]

/-- What a shard will hold at a key once it has handled `ms`. -/
def Host.later (h : Host τ) (ms : List Message) (key : Key) : Except Fault τ.Value :=
  (Message.addsAt τ key ms).foldlM τ.add (h.tablet.slice.store.value key)

theorem Host.later_append (h : Host τ) (front back : List Message) (key : Key) :
    h.later (front ++ back) key =
      h.later front key >>= (Message.addsAt τ key back).foldlM τ.add := by
  rw [later, Message.addsAt_append, List.foldlM_append]
  rfl

namespace Mirror

open World

structure Faithful (site : Site τ) (M : Mirror τ) : Prop extends Manned site M.world where
  serves : ∀ q ∈ site.layout.pieces, ∃ spec, spec.model = .asp ∧
    (M.world.shards q.shard).tablet.Serves spec q.range
  admits : ∀ q ∈ site.layout.pieces, ∀ w ∈ site.workers,
    (M.world.shards q.shard).tablet.slice.roster.check w = .ok ()
  plain : ∀ p, ∀ m ∈ (M.world.shards p).queue, m.op = .add ∨ m.op = .get
  due : ∀ q ∈ site.layout.pieces, ∀ key ∈ q.range,
    (M.world.shards q.shard).later (M.world.shards q.shard).queue key = .ok (M.ledger key)
  promised : ∀ q ∈ site.layout.pieces, ∀ n g, (M.world.shards q.shard).queue[n]? = some g →
    g.op = .get → ∀ key ∈ q.range,
      (M.world.shards q.shard).later ((M.world.shards q.shard).queue.take n) key =
        .ok (M.seen g.sender key)
  heard : ∀ w ∈ site.workers, ∀ a ∈ (M.world.workers w).inbox, (M.seen w).Agrees a
  read : ∀ w ∈ site.workers, ∀ call, (M.world.workers w).call = some call →
    ∀ a ∈ call.answers, (M.seen w).Agrees a

variable {site : Site τ} {M M' : Mirror τ}

theorem opened (hopen : site.Open) {q : Piece} (hq : q ∈ site.layout.pieces) :
    ∃ spec, spec.model = .asp ∧ (site.tablet q.shard).Serves spec q.range ∧
      (∀ w ∈ site.workers, (site.tablet q.shard).slice.roster.check w = .ok ()) ∧
      ∀ key, (site.tablet q.shard).slice.store.value key = τ.zero := by
  obtain ⟨spec, fresh, hmodel, hnew, hstart⟩ := hopen q hq
  have hserves := Tablet.serves_new hnew
  obtain ⟨store, gate, hstore, -, rfl⟩ := Tablet.eq_of_new hnew
  refine ⟨spec, hmodel, ?_⟩
  rcases hstart with hfresh | ⟨reset, keys, listed, ack, hop, hkeys, hlisted, hall, hpin⟩
  · rw [hfresh]
    exact ⟨hserves, fun w _ => Roster.check_empty w, Store.value_new hstore⟩
  · have hmove := Tablet.move_of_handle hserves.toSound reset hpin
    refine ⟨Tablet.serves_of_move hserves hmove, ?_⟩
    rw [Tablet.eq_of_reset hserves.toSound hop hkeys hlisted hpin]
    exact ⟨fun w hw => Roster.check_reset .empty (hall w hw), Store.value_new hstore⟩

theorem asking_of_serves {spec : TableSpec} (hmodel : spec.model = .asp) {q : Piece} {t : Tablet τ}
    (hs : t.Serves spec q.range) : t.slice.waiting.asking .get = [] :=
  Tablet.asking_of_open hs.toSound (Gate.eq_open_of_follows hs.follows hmodel) .get

theorem faithful_start (hopen : site.Open) : Faithful site (start site) where
  toManned := manned_start site fun q hq => by
    obtain ⟨spec, hmodel, hserves, -⟩ := opened hopen hq
    exact asking_of_serves hmodel hserves
  serves q hq := by
    obtain ⟨spec, hmodel, hserves, -⟩ := opened hopen hq
    exact ⟨spec, hmodel, hserves⟩
  admits q hq := by
    obtain ⟨-, -, -, hadmits, -⟩ := opened hopen hq
    exact hadmits
  plain _ _ hm := by cases hm
  due q hq key _ := by
    obtain ⟨-, -, -, -, hzero⟩ := opened hopen hq
    exact congrArg Except.ok (hzero key)
  promised q hq n g hg := by cases hg
  heard _ _ _ ha := by cases ha
  read _ _ _ hcall := by cases hcall

/-! ### A worker's turn -/

/-- What is posted to the shard of a piece is all that is posted for a key of it. -/
theorem addsAt_posted {w : ThreadId} {clock : Clock} {ms : List Message}
    (hsends : site.Sends w clock ms) (hadds : ∀ m ∈ ms, m.op = .add) {q : Piece}
    (hq : q ∈ site.layout.pieces) {key : Key} (hkey : key ∈ q.range) :
    Message.addsAt τ key (ms.filter fun m => decide (m.receiver = q.shard)) =
      deltasAt key (ms.flatMap (·.updates τ)) := by
  have hall : ((ms.filter fun m => decide (m.receiver = q.shard)).filter
      fun m => decide (m.op = .add)) = ms.filter fun m => decide (m.receiver = q.shard) :=
    filter_of_forall_eq fun m hm => hadds m (List.mem_filter.mp hm).1
  rw [Message.addsAt, hall]
  apply Message.deltasAt_filter
  intro m hm hkeys
  obtain ⟨-, -, r, hr, hfit⟩ := hsends m hm
  exact decide_eq_true (hfit.receiver_of_mem hr (hadds m hm) hq hkey hkeys)

theorem faithful_of_push (h : Faithful site M) {w : ThreadId} {keys : List Key}
    {values : List τ.Value} {out : Outbox} {ledger : Ledger τ} (hw : w ∈ site.workers)
    (hidle : (M.world.workers w).call = none)
    (hpush : (M.world.workers w).session.push line keys values = .ok () out)
    (hcredit : M.ledger.credit (keys.zip values) = .ok ledger) :
    Faithful site { M with world := M.world.post out.sent, ledger } := by
  have hworker := h.attended w hw
  obtain ⟨hturn, hlength, runs, hruns, hsent⟩ := turn_of_push hworker hw hidle hpush
  have hadds : ∀ m ∈ out.sent, m.op = .add := by
    rw [hsent]
    exact Session.adds_of_updates
  have hmanned := manned_of_turn h.toManned hidle hturn
  refine ⟨?_, h.serves, h.admits, ?_, ?_, ?_, h.heard, h.read⟩
  · rw [← seat_self (M.world.post out.sent) w]
    exact hmanned
  · intro p m hm
    rcases List.mem_append.mp hm with hold | hnew
    · exact h.plain p m hold
    · exact Or.inl (hadds m (List.mem_filter.mp hnew).1)
  · intro q hq key hkey
    change (M.world.shards q.shard).later ((M.world.shards q.shard).queue ++ _) key = _
    have hcut := (Layout.cut_of_runs hruns).1
    rw [Host.later_append, h.due q hq key hkey, addsAt_posted hturn.sends hadds hq hkey, hsent,
      Session.pairs_of_updates hcut hlength]
    exact Ledger.foldlM_of_credit hcredit key
  · intro q hq n g hg hget key hkey
    change ((M.world.shards q.shard).queue ++ _)[n]? = some g at hg
    change (M.world.shards q.shard).later (((M.world.shards q.shard).queue ++ _).take n) key = _
    rcases lt_or_ge n (M.world.shards q.shard).queue.length with hlt | hge
    · rw [List.getElem?_append_left hlt] at hg
      rw [List.take_append_of_le_length (Nat.le_of_lt hlt)]
      exact h.promised q hq n g hg hget key hkey
    · rw [List.getElem?_append_right hge] at hg
      have hop := hadds g (List.mem_filter.mp (List.mem_of_getElem? hg)).1
      rw [hget] at hop
      cases hop

/-- One worker has begun a read, or taken some answers in, and what it has seen is `view`. -/
theorem agrees_of_seat (h : Faithful site M) {W : World τ} (hsame : W.workers = M.world.workers)
    (w : ThreadId) (worker : Client τ) (view : Ledger τ)
    (hheard : ∀ a ∈ worker.inbox, view.Agrees a)
    (hread : ∀ call, worker.call = some call → ∀ a ∈ call.answers, view.Agrees a) :
    (∀ v ∈ site.workers, ∀ a ∈ ((W.seat w worker).workers v).inbox,
      (Function.update M.seen w view v).Agrees a) ∧
    ∀ v ∈ site.workers, ∀ call, ((W.seat w worker).workers v).call = some call →
      ∀ a ∈ call.answers, (Function.update M.seen w view v).Agrees a := by
  constructor
  · refine forall_seat (P := fun v client => ∀ a ∈ client.inbox,
      (Function.update M.seen w view v).Agrees a) (fun _ => ?_) fun v hv hvw => ?_
    · rwa [Function.update_self]
    · rw [Function.update_of_ne hvw, hsame]
      exact h.heard v hv
  · refine forall_seat (P := fun v client => ∀ call, client.call = some call →
      ∀ a ∈ call.answers, (Function.update M.seen w view v).Agrees a) (fun _ => ?_)
        fun v hv hvw => ?_
    · rwa [Function.update_self]
    · rw [Function.update_of_ne hvw, hsame]
      exact h.read v hv

theorem faithful_of_ask (h : Faithful site M) {w : ThreadId} {keys : List Key} {pull : Pull τ}
    {session : Session τ} {out : Outbox} (hw : w ∈ site.workers)
    (hidle : (M.world.workers w).call = none)
    (hask : (M.world.workers w).session.startPull line keys = .ok pull (session, out)) :
    Faithful site
      { M with
        world := (M.world.post out.sent).seat w
          { M.world.workers w with
            session, call := some { clock := (M.world.workers w).session.clock, keys, pull } }
        seen := Function.update M.seen w M.ledger } := by
  have hworker := h.attended w hw
  obtain ⟨hturn, -, hgets⟩ := turn_of_ask hworker hw hidle hask
  obtain ⟨-, hinbox, hpending⟩ := hworker.idle hidle
  have hnew : ∀ (p : ThreadId) (n : Nat), ∀ m ∈
      (out.sent.filter fun m => decide (m.receiver = p)).take n, m.op = .get := fun p n m hm =>
    hgets m (List.mem_filter.mp (List.mem_of_mem_take hm)).1
  obtain ⟨hheard, hread⟩ := agrees_of_seat h (W := M.world.post out.sent) rfl w
    { M.world.workers w with
      session, call := some { clock := (M.world.workers w).session.clock, keys, pull } }
    M.ledger (by simp [hinbox]) (by rintro _ ⟨⟩ a ⟨⟩)
  refine ⟨manned_of_turn h.toManned hidle hturn, h.serves, h.admits, ?_, ?_, ?_, hheard, hread⟩
  · intro p m hm
    rcases List.mem_append.mp hm with hold | hnew
    · exact h.plain p m hold
    · exact Or.inr (hgets m (List.mem_filter.mp hnew).1)
  · intro q hq key hkey
    change (M.world.shards q.shard).later ((M.world.shards q.shard).queue ++ _) key = _
    rw [Host.later_append, h.due q hq key hkey,
      Message.addsAt_of_gets fun m hm => hgets m (List.mem_filter.mp hm).1]
    rfl
  · intro q hq n g hg hget key hkey
    let new := out.sent.filter fun m => decide (m.receiver = q.shard)
    change ((M.world.shards q.shard).queue ++ new)[n]? = some g at hg
    change (M.world.shards q.shard).later (((M.world.shards q.shard).queue ++ new).take n) key =
      .ok (Function.update M.seen w M.ledger g.sender key)
    rcases lt_or_ge n (M.world.shards q.shard).queue.length with hlt | hge
    · rw [List.getElem?_append_left hlt] at hg
      have hother : g.sender ≠ w := by
        rintro rfl
        have hmem : g ∈ (M.world.shards q.shard).pending g.sender := by
          refine List.mem_filter.mpr ⟨List.mem_append_left _ ?_, decide_eq_true rfl⟩
          exact List.mem_filter.mpr ⟨List.mem_of_getElem? hg, decide_eq_true hget⟩
        rw [hpending q hq] at hmem
        cases hmem
      rw [List.take_append_of_le_length (Nat.le_of_lt hlt), Function.update_of_ne hother]
      exact h.promised q hq n g hg hget key hkey
    · rw [List.getElem?_append_right hge] at hg
      have hsender : g.sender = w :=
        (hturn.sends g (List.mem_filter.mp (List.mem_of_getElem? hg)).1).1
      rw [List.take_append, List.take_of_length_le hge, Host.later_append, h.due q hq key hkey,
        Message.addsAt_of_gets (hnew q.shard _), hsender, Function.update_self]
      rfl

theorem faithful_of_wait (h : Faithful site M) {w : ThreadId} (hw : w ∈ site.workers)
    {call : Call τ} (hcall : (M.world.workers w).call = some call) {front rest : List Message}
    (hinbox : (M.world.workers w).inbox.Perm (front ++ rest)) {pull : Pull τ}
    {session : Session τ}
    (hcollect : (M.world.workers w).session.collect call.pull front = .pending pull session) :
    Faithful site
      { M with
        world := M.world.seat w
          ⟨session, rest, some { call with pull, answers := call.answers ++ front }⟩ } := by
  have hagrees : ∀ a ∈ front ++ rest, (M.seen w).Agrees a := fun a ha =>
    h.heard w hw a (hinbox.mem_iff.mpr ha)
  obtain ⟨hheard, hread⟩ := agrees_of_seat h (W := M.world) rfl w
    ⟨session, rest, some { call with pull, answers := call.answers ++ front }⟩ (M.seen w)
    (fun a ha => hagrees a (List.mem_append_right _ ha)) (by
      rintro _ ⟨⟩ a ha
      rcases List.mem_append.mp ha with hold | hnew
      · exact h.read w hw call hcall a hold
      · exact hagrees a (List.mem_append_left _ hnew))
  rw [Function.update_eq_self] at hheard hread
  exact ⟨manned_of_seat h.toManned ((h.attended w hw).wait hcall hinbox hcollect).2, h.serves,
    h.admits, h.plain, h.due, h.promised, hheard, hread⟩

/-- **A read that ends** has the values that the map held when it began. -/
theorem faithful_of_finish (h : Faithful site M) {w : ThreadId} (hw : w ∈ site.workers)
    {call : Call τ} (hcall : (M.world.workers w).call = some call)
    {used unread rest : List Message}
    (hinbox : (M.world.workers w).inbox.Perm (used ++ unread ++ rest)) {values : List τ.Value}
    {session : Session τ}
    (hcollect : (M.world.workers w).session.collect call.pull (used ++ unread) =
      .done values session unread) :
    Faithful site { M with world := M.world.seat w ⟨session, unread ++ rest, none⟩ } ∧
      values = call.keys.map (M.seen w) := by
  obtain ⟨-, hattended, hsourced, -⟩ := (h.attended w hw).finish hcall hinbox hcollect
  have hagrees : ∀ a ∈ used ++ unread ++ rest, (M.seen w).Agrees a := fun a ha =>
    h.heard w hw a (hinbox.mem_iff.mpr ha)
  have hkept : ∀ a ∈ unread ++ rest, (M.seen w).Agrees a := by
    intro a ha
    refine hagrees a ?_
    rw [List.append_assoc]
    exact List.mem_append_right _ ha
  constructor
  · obtain ⟨hheard, hread⟩ := agrees_of_seat h (W := M.world) rfl w
      ⟨session, unread ++ rest, none⟩ (M.seen w) hkept (by rintro _ ⟨⟩)
    rw [Function.update_eq_self] at hheard hread
    exact ⟨manned_of_seat h.toManned hattended, h.serves, h.admits, h.plain, h.due, h.promised,
      hheard, hread⟩
  · refine hsourced.values_eq ?_
    intro a ha
    rcases List.mem_append.mp ha with hold | hnew
    · exact h.read w hw call hcall a hold
    · exact hagrees a (by simp [hnew])

/-! ### A shard's turn -/

/-- **What comes first in a queue is accepted.** An update lands at once, a read is answered. -/
theorem step_of_faithful (h : Faithful site M) {p : ThreadId} {m : Message} {rest : List Message}
    (hqueue : (M.world.shards p).queue = m :: rest) :
    ∃ q ∈ site.layout.pieces, q.shard = p ∧ site.Fit q m ∧
      ∃ spec, spec.model = .asp ∧ (M.world.shards p).tablet.Serves spec q.range ∧
      ∃ roster, (M.world.shards p).tablet.slice.roster.enrol m.sender = .ok roster ∧
      ((m.op = .add ∧ ∃ store,
          (M.world.shards p).tablet.slice.store.addAll (m.updates τ) = .ok () store ∧
          (M.world.shards p).tablet.step m = .ok ⟨m, .ok [],
            ⟨{ (M.world.shards p).tablet.slice with roster, store },
              (M.world.shards p).tablet.gate⟩⟩) ∨
        (m.op = .get ∧ (M.world.shards p).tablet.step m =
          .ok ⟨m, .ok [m.answerFrom (M.world.shards p).tablet.slice.store],
            ⟨{ (M.world.shards p).tablet.slice with roster },
              (M.world.shards p).tablet.gate⟩⟩)) := by
  obtain ⟨q, hq, rfl, hfit⟩ := h.fit p m (by rw [hqueue]; simp)
  obtain ⟨spec, hmodel, hserves⟩ := h.serves q hq
  obtain ⟨roster, henrol⟩ := Roster.enrol_of_check (h.admits q hq m.sender hfit.listed)
  have hgate := Gate.eq_open_of_follows hserves.follows hmodel
  refine ⟨q, hq, rfl, hfit, spec, hmodel, hserves, roster, henrol, ?_⟩
  rcases h.plain q.shard m (by rw [hqueue]; simp) with hop | hop
  · left
    have hadds := hfit.adds hop
    have hcovers := hserves.store
    rw [hserves.range_eq] at hcovers
    -- The sums that the map comes to pass through the sums of this update.
    have hsums : ∀ key ∈ q.range, ∃ v, (deltasAt key (m.updates τ)).foldlM τ.add
        ((M.world.shards q.shard).tablet.slice.store.value key) = .ok v := by
      intro key hkey
      have hdue := h.due q hq key hkey
      rw [hqueue, ← List.singleton_append, Host.later_append] at hdue
      have hfirst : (M.world.shards q.shard).later [m] key =
          (deltasAt key (m.updates τ)).foldlM τ.add
            ((M.world.shards q.shard).tablet.slice.store.value key) := by
        simp [Host.later, Message.addsAt, hop]
      rw [← hfirst]
      cases hlater : (M.world.shards q.shard).later [m] key with
      | ok v => exact ⟨v, rfl⟩
      | error why =>
        rw [hlater] at hdue
        cases hdue
    obtain ⟨store, hstore⟩ := Store.addAll_of_sums hcovers hadds.inside_updates hsums
    refine ⟨hop, store, hstore, ?_⟩
    rw [Tablet.step, Tablet.handle_eq_apply hop hgate (hserves.range_eq ▸ hadds) henrol hstore]
  · right
    have hpasses : (M.world.shards q.shard).tablet.gate.passes roster.minClock m = true := by
      rw [hgate]
      simp [Gate.passes, Gate.due]
    refine ⟨hop, ?_⟩
    rw [Tablet.step, Tablet.handle_eq_answer hserves.toSound hop
      (hserves.range_eq ▸ hfit.reads hop) henrol hpasses]

/-- What a served message leaves to be done: the store has moved on by it, and its reader has been
answered. -/
theorem served_of_faithful (h : Faithful site M) {p : ThreadId} {m : Message} {rest : List Message}
    (hqueue : (M.world.shards p).queue = m :: rest) {s : Step τ}
    (hstep : (M.world.shards p).tablet.step m = .ok s) :
    ∃ q ∈ site.layout.pieces, q.shard = p ∧ site.Fit q m ∧
      (∃ spec, spec.model = .asp ∧ s.after.Serves spec q.range) ∧
      (∀ w ∈ site.workers, s.after.slice.roster.check w = .ok ()) ∧
      (∀ queue log ms, ∀ key ∈ q.range,
        Host.later ⟨s.after, queue, log⟩ ms key = (M.world.shards p).later (m :: ms) key) ∧
      s.answers = ([m].filter fun m => decide (m.op = .get)).map
        (·.answerFrom s.after.slice.store) ∧
      (m.op = .get → s.after.slice.store = (M.world.shards p).tablet.slice.store) := by
  obtain ⟨q, hq, rfl, hfit, spec, hmodel, hserves, roster, henrol, hcases⟩ :=
    step_of_faithful h hqueue
  have hadmits : ∀ w ∈ site.workers, roster.check w = .ok () := fun w hw =>
    Roster.check_enrol henrol (h.admits q hq w hw)
  have hafter := Tablet.serves_of_step hserves hstep
  refine ⟨q, hq, rfl, hfit, ⟨spec, hmodel, hafter⟩, ?_⟩
  rcases hcases with ⟨hop, store, hstore, hdone⟩ | ⟨hop, hdone⟩
  · rw [hdone] at hstep
    obtain rfl := Except.ok.inj hstep
    refine ⟨hadmits, ?_, by simp [Step.answers_of_ne, hop], by simp [hop]⟩
    intro queue log ms key hkey
    have hcovers := hserves.store
    rw [hserves.range_eq] at hcovers
    have hsum := (Store.addAll_ok hcovers (hfit.adds hop).inside_updates hstore).2 key hkey
    have hfirst : (M.world.shards q.shard).later [m] key = .ok (store.value key) := by
      rw [← hsum]
      simp [Host.later, Message.addsAt, hop]
    rw [← List.singleton_append, Host.later_append, hfirst]
    rfl
  · rw [hdone] at hstep
    obtain rfl := Except.ok.inj hstep
    refine ⟨hadmits, ?_, by simp [Step.answers_of_ne, hop], fun _ => rfl⟩
    intro queue log ms key _
    have hnone : Message.addsAt τ key (m :: ms) = Message.addsAt τ key ms := by
      simp [Message.addsAt, hop]
    rw [Host.later, Host.later, hnone]

theorem faithful_of_serve (h : Faithful site M) {p : ThreadId} {m : Message} {rest : List Message}
    (hqueue : (M.world.shards p).queue = m :: rest) {s : Step τ}
    (hstep : (M.world.shards p).tablet.step m = .ok s) :
    Faithful site { M with world := M.world.served p rest s } := by
  obtain ⟨q, hq, rfl, hfit, hserves, hadmits, hlater, hanswers, hstore⟩ :=
    served_of_faithful h hqueue hstep
  have hmanned : Manned site (M.world.served q.shard rest s) := by
    have hsplit : (M.world.shards q.shard).queue = [] ++ m :: rest := hqueue
    refine manned_of_serve h.toManned hq hsplit ?_
    intro w _
    refine ⟨([m].filter fun m => decide (m.op = .get)).filter fun m => decide (m.sender = w),
      ?_, ?_, ?_⟩
    · intro g hg
      obtain ⟨hg, hop⟩ := List.mem_filter.mp (List.mem_filter.mp hg).1
      obtain rfl := List.mem_singleton.mp hg
      exact ⟨hfit, of_decide_eq_true hop⟩
    · obtain ⟨spec, hmodel, hafter⟩ := hserves
      obtain ⟨spec', hmodel', hbefore⟩ := h.serves q hq
      rw [Host.pending, Host.pending, hqueue, asking_of_serves hmodel' hbefore,
        asking_of_serves hmodel hafter, List.append_nil, List.append_nil, ← List.filter_append,
        ← List.filter_append]
      exact List.Perm.refl _
    · rw [hanswers, List.filter_map]
      exact List.Perm.refl _
  have hdue : ∀ key ∈ q.range, Host.later
      ⟨s.after, rest, (M.world.shards q.shard).log ++ [s]⟩ rest key = .ok (M.ledger key) := by
    intro key hkey
    rw [hlater _ _ _ key hkey, ← hqueue]
    exact h.due q hq key hkey
  refine ⟨hmanned, ?_, ?_, ?_, ?_, ?_, ?_, h.read⟩
  · exact forall_served hq (P := fun r host => ∃ spec, spec.model = .asp ∧
      host.tablet.Serves spec r.range) hserves h.serves
  · exact forall_served hq (P := fun _ host => ∀ w ∈ site.workers,
      host.tablet.slice.roster.check w = .ok ()) hadmits h.admits
  · intro p k hk
    by_cases hp : p = q.shard
    · subst hp
      rw [shards_served_self] at hk
      exact h.plain q.shard k (by rw [hqueue]; exact List.mem_cons_of_mem m hk)
    · rw [shards_served_of_ne _ hp] at hk
      exact h.plain p k hk
  · exact forall_served hq (P := fun r host => ∀ key ∈ r.range,
      host.later host.queue key = .ok (M.ledger key)) hdue h.due
  · refine forall_served hq (P := fun r host => ∀ n g, host.queue[n]? = some g → g.op = .get →
      ∀ key ∈ r.range, host.later (host.queue.take n) key = .ok (M.seen g.sender key)) ?_ h.promised
    intro n g hg hget key hkey
    rw [hlater _ _ _ key hkey]
    have hpromised := h.promised q hq (n + 1) g (by rw [hqueue]; exact hg) hget key hkey
    rwa [hqueue] at hpromised
  · intro w hw a ha
    rcases List.mem_append.mp ha with hold | hnew
    · exact h.heard w hw a hold
    · obtain ⟨hmem, hreceiver⟩ := List.mem_filter.mp hnew
      rw [hanswers] at hmem
      obtain ⟨g, hg, rfl⟩ := List.mem_map.mp hmem
      obtain ⟨hg, hop⟩ := List.mem_filter.mp hg
      obtain rfl := List.mem_singleton.mp hg
      obtain rfl : g.sender = w := of_decide_eq_true hreceiver
      have hget := of_decide_eq_true hop
      intro run hrun
      obtain rfl : g.keyList = run := Except.ok.inj hrun
      rw [Message.values_eq_ok rfl, hstore hget]
      congr 1
      apply List.map_congr_left
      intro key hkey
      have hpromised := h.promised q hq 0 g (by rw [hqueue]; rfl) hget key
        ((hfit.reads hget).inside key hkey)
      exact Except.ok.inj hpromised

/-! ### Whatever happens -/

theorem faithful_of_next (h : Faithful site M) (hnext : Next site M M') : Faithful site M' := by
  cases hnext with
  | push hw hidle hpush hcredit => exact faithful_of_push h hw hidle hpush hcredit
  | ask hw hidle hask => exact faithful_of_ask h hw hidle hask
  | serve hqueue hstep => exact faithful_of_serve h hqueue hstep
  | wait hw hcall hinbox hcollect => exact faithful_of_wait h hw hcall hinbox hcollect
  | finish hw hcall hinbox hcollect => exact (faithful_of_finish h hw hcall hinbox hcollect).1

theorem faithful_of_reachable (hopen : site.Open) (h : Reachable site M) : Faithful site M := by
  induction h with
  | start => exact faithful_start hopen
  | next _ hnext ih => exact faithful_of_next ih hnext

/-! ### What a caller can rely on -/

/-- The table is like one map. -/
structure Transparent (site : Site τ) (M : Mirror τ) : Prop where
  /-- A batch of owned keys is sent on, one message to each shard concerned. -/
  pushed : ∀ w ∈ site.workers, ∀ keys : List Key, keys.Pairwise (· ≤ ·) →
    (∀ key ∈ keys, site.layout.Routes key) → ∀ values : List τ.Value, keys.length = values.length →
    ∃ out, (M.world.workers w).session.push line keys values = .ok () out ∧
      site.layout.OneEach keys out.sent
  asked : ∀ w ∈ site.workers, ∀ keys : List Key, keys.Pairwise (· ≤ ·) →
    (∀ key ∈ keys, site.layout.Routes key) →
    (M.world.workers w).session.lastRequest.toNat + 1 ≠ UInt64.size →
    ∃ pull session out,
      (M.world.workers w).session.startPull line keys = .ok pull (session, out) ∧
      site.layout.OneEach keys out.sent
  /-- A batch with a key that nobody owns is refused, and nothing is sent. -/
  strays : ∀ w ∈ site.workers, ∀ keys : List Key, keys.Pairwise (· ≤ ·) →
    ∀ key, site.layout.stray? keys = some key →
    (∀ values : List τ.Value, keys.length = values.length →
      (M.world.workers w).session.push line keys values = .error (.keyOutOfRange key) line) ∧
    (M.world.workers w).session.startPull line keys =
      .error (.keyOutOfRange key) ((M.world.workers w).session, line)
  /-- A shard accepts what is next in its queue. -/
  accepted : ∀ p m rest, (M.world.shards p).queue = m :: rest →
    ∃ s, (M.world.shards p).tablet.step m = .ok s ∧ s.verdict.isOk = true
  /-- An answer fits what its shard was asked for. -/
  fits : ∀ w ∈ site.workers, ∀ call, (M.world.workers w).call = some call →
    ∀ a ∈ (M.world.workers w).inbox, ∃ part ∈ call.pull.parts, part.run.shard = a.sender ∧
      ∃ values, Session.payload τ part.run a = .ok values
  /-- A read comes to what the map held when it was begun, or is not complete yet. -/
  read : ∀ w ∈ site.workers, ∀ call, (M.world.workers w).call = some call →
    ∀ front rest, (M.world.workers w).inbox.Perm (front ++ rest) →
      (∃ pull session,
        (M.world.workers w).session.collect call.pull front = .pending pull session) ∨
      ∃ session unread, (M.world.workers w).session.collect call.pull front =
        .done (call.keys.map (M.seen w)) session unread
  /-- It is complete once the shards have got to it. -/
  returns : ∀ w ∈ site.workers, ∀ call, (M.world.workers w).call = some call →
    (∀ p, ∀ m ∈ (M.world.shards p).queue, m.sender ≠ w) →
      ∃ session, (M.world.workers w).session.collect call.pull (M.world.workers w).inbox =
        .done (call.keys.map (M.seen w)) session []

theorem calls_of_routes (h : Faithful site M) {w : ThreadId} (hw : w ∈ site.workers)
    {keys : List Key} (hascending : keys.Pairwise (· ≤ ·))
    (hroutes : ∀ key ∈ keys, site.layout.Routes key) :
    (∀ values : List τ.Value, keys.length = values.length →
      ∃ out, (M.world.workers w).session.push line keys values = .ok () out ∧
        site.layout.OneEach keys out.sent) ∧
    ((M.world.workers w).session.lastRequest.toNat + 1 ≠ UInt64.size →
      ∃ pull session out,
        (M.world.workers w).session.startPull line keys = .ok pull (session, out) ∧
        site.layout.OneEach keys out.sent) := by
  rw [← (h.attended w hw).layout_eq] at hroutes ⊢
  exact ⟨fun _ hlength => push_of_routes hascending hroutes hlength,
    fun hroom => startPull_of_routes hascending hroutes fun _ => hroom⟩

theorem calls_of_stray (h : Faithful site M) {w : ThreadId} (hw : w ∈ site.workers)
    {keys : List Key} (hascending : keys.Pairwise (· ≤ ·)) {key : Key}
    (hstray : site.layout.stray? keys = some key) :
    (∀ values : List τ.Value, keys.length = values.length →
      (M.world.workers w).session.push line keys values = .error (.keyOutOfRange key) line) ∧
    (M.world.workers w).session.startPull line keys =
      .error (.keyOutOfRange key) ((M.world.workers w).session, line) := by
  have hruns := Layout.runs_of_stray hascending hstray
  rw [← (h.attended w hw).layout_eq] at hruns
  have hempty : ¬keys.isEmpty = true := by
    rintro hnil
    rw [List.isEmpty_iff.mp hnil] at hstray
    cases hstray
  constructor
  · intro values hlength
    rw [Session.push, if_neg (not_not_intro hlength), hruns]
  · rw [Session.startPull, if_neg hempty, hruns]

/-- An answer in the inbox is one of those that the read waits for. -/
theorem fits_of_faithful (h : Faithful site M) {w : ThreadId} (hw : w ∈ site.workers)
    {call : Call τ} (hcall : (M.world.workers w).call = some call) {a : Message}
    (ha : a ∈ (M.world.workers w).inbox) :
    ∃ part ∈ call.pull.parts, part.run.shard = a.sender ∧
      ∃ values, Session.payload τ part.run a = .ok values := by
  have hworker := h.attended w hw
  obtain ⟨out, howes, -⟩ := hworker.owed
  rw [hcall] at howes
  obtain ⟨hrequest, hcurrent⟩ := hworker.current_of_mem howes (List.mem_append_right out ha)
  obtain ⟨part, hpart, values, hanswered⟩ := hcurrent.honest a ha hrequest
  exact ⟨part, hpart, hanswered.sender_eq.symm, values, Session.payload_of_answeredBy hanswered⟩

theorem read_of_faithful (h : Faithful site M) {w : ThreadId} (hw : w ∈ site.workers)
    {call : Call τ} (hcall : (M.world.workers w).call = some call) {front rest : List Message}
    (hinbox : (M.world.workers w).inbox.Perm (front ++ rest)) :
    (∃ pull session,
      (M.world.workers w).session.collect call.pull front = .pending pull session) ∨
    ∃ session unread, (M.world.workers w).session.collect call.pull front =
      .done (call.keys.map (M.seen w)) session unread := by
  rcases (h.attended w hw).collect hcall hinbox with
    ⟨session, pull, used, unread, rfl, hdone, -⟩ | ⟨session, pull, hpending, -⟩
  · right
    have hvalues := (faithful_of_finish h hw hcall hinbox hdone).2
    exact ⟨session, unread, by rw [hdone, hvalues]⟩
  · left
    exact ⟨pull, session, hpending⟩

theorem returns_of_faithful (h : Faithful site M) {w : ThreadId} (hw : w ∈ site.workers)
    {call : Call τ} (hcall : (M.world.workers w).call = some call)
    (hserved : ∀ p, ∀ m ∈ (M.world.shards p).queue, m.sender ≠ w) :
    ∃ session, (M.world.workers w).session.collect call.pull (M.world.workers w).inbox =
      .done (call.keys.map (M.seen w)) session [] := by
  have hworker := h.attended w hw
  obtain ⟨-, hbacked, -⟩ := hworker.called call hcall
  have hquiet : ∀ q ∈ site.layout.pieces, (M.world.shards q.shard).pending w = [] := by
    intro q hq
    obtain ⟨spec, hmodel, hserves⟩ := h.serves q hq
    rw [Host.pending, asking_of_serves hmodel hserves, List.append_nil]
    exact filter_of_forall_ne fun m hm => hserved q.shard m (List.mem_filter.mp hm).1
  obtain ⟨session, pull, hdone, -⟩ :=
    Session.collect_of_answered (hworker.answered hcall hquiet) hworker.settled hbacked
  refine ⟨session, ?_⟩
  have hinbox : (M.world.workers w).inbox.Perm ((M.world.workers w).inbox ++ [] ++ []) := by simp
  have hvalues := (faithful_of_finish h hw hcall hinbox (by simpa using hdone)).2
  rw [hdone, hvalues]

/-- **Sharding is transparent.** -/
theorem transparent_of_reachable (hopen : site.Open) (h : Reachable site M) :
    M.Transparent site := by
  have hfaithful := faithful_of_reachable hopen h
  exact {
    pushed := fun w hw keys hascending hroutes =>
      (calls_of_routes hfaithful hw hascending hroutes).1
    asked := fun w hw keys hascending hroutes =>
      (calls_of_routes hfaithful hw hascending hroutes).2
    strays := fun w hw keys hascending key hstray => calls_of_stray hfaithful hw hascending hstray
    accepted := fun p m rest hqueue => by
      obtain ⟨q, -, rfl, -, spec, -, -, roster, -, ⟨-, store, -, hstep⟩ | ⟨-, hstep⟩⟩ :=
        step_of_faithful hfaithful hqueue
      · exact ⟨_, hstep, rfl⟩
      · exact ⟨_, hstep, rfl⟩
    fits := fun w hw call hcall a ha => fits_of_faithful hfaithful hw hcall ha
    read := fun w hw call hcall front rest hinbox => read_of_faithful hfaithful hw hcall hinbox
    returns := fun w hw call hcall hserved => returns_of_faithful hfaithful hw hcall hserved }

/-- Two shards: one takes in whoever turns up, the other has been told of the workers 8 and 9 and
has a slot for each of its keys. -/
def duo : Site .integer where
  table := 0
  layout := ⟨[⟨⟨0, 5⟩, 1⟩, ⟨⟨5, 10⟩, 2⟩], Layout.wellFormed_halves⟩
  workers := [8, 9]
  tablet p :=
    if p = 1 then ⟨Slice.new 0 1 ⟨0, 5⟩ (.sparse .empty), .open⟩
    else
      ⟨{ Slice.new 0 2 ⟨5, 10⟩ (.dense ⟨5, 10⟩ (Vector.replicate _ (0 : Int64))) with
        roster := Roster.empty.reset [8, 9] }, .open⟩

theorem duo_open : duo.Open := by
  intro q hq
  let reset : Message := ⟨.resetWorkers, controlThread, 2, 0, 0, 0, [.keys [8, 9]]⟩
  simp only [duo, List.mem_cons, List.not_mem_nil, or_false] at hq
  rcases hq with rfl | rfl
  · exact ⟨.asp .sparse, _, rfl, rfl, Or.inl rfl⟩
  · exact ⟨.asp .dense, _, rfl, rfl, Or.inr ⟨reset, [8, 9], [8, 9], _, rfl, rfl, rfl,
      fun _ hw => hw, rfl⟩⟩

/-- Worker 8 adds to two keys and worker 9 reads them. Worker 8 adds again before the shards get to
the read, which it does not see. -/
theorem transparent_of_reachable_duo :
    ∃ (M : Mirror .integer) (call : Call .integer), Reachable duo M ∧ M.Transparent duo ∧
      (M.world.workers 9).call = some call ∧ call.keys = [3, 7] ∧ M.ledger 3 = (6 : Int64) ∧
      ∃ session, (M.world.workers 9).session.collect call.pull (M.world.workers 9).inbox =
        .done [(5 : Int64), (6 : Int64)] session [] := by
  let eight := ((start duo).world.workers 8).session
  let nine := ((start duo).world.workers 9).session
  let first : Message := ⟨.add, 8, 1, 0, 0, 0, [.keys [3], .integers [5]]⟩
  let second : Message := ⟨.add, 8, 2, 0, 0, 0, [.keys [7], .integers [6]]⟩
  let again : Message := ⟨.add, 8, 1, 0, 0, 0, [.keys [3], .integers [1]]⟩
  let ask : ThreadId → Key → Message := fun p key => ⟨.get, 9, p, 0, 0, 1, [.keys [key]]⟩
  let answer : ThreadId → Key → Int64 → Message := fun p key v =>
    ⟨.response, p, 9, 0, 0, 1, [.keys [key], .integers [v]]⟩
  let call : Call .integer := ⟨0, [3, 7], Session.asking 1 [⟨1, 0, [3]⟩, ⟨2, 1, [7]⟩], []⟩
  have hpush : eight.push line [3, 7] [(5 : Int64), (6 : Int64)] = .ok () _ := rfl
  have hread : nine.startPull line [3, 7] = .ok call.pull (_, _) := rfl
  have hagain : eight.push line [3] [(1 : Int64)] = .ok () _ := rfl
  have hcollect : nine.numbered.collect call.pull [answer 1 3 5, answer 2 7 6] =
    .done [(5 : Int64), (6 : Int64)] _ [] := rfl
  let held : Ledger .integer :=
    Function.update (Function.update (fun _ => (0 : Int64)) 3 (5 : Int64)) 7 (6 : Int64)
  have hheld : (start duo).ledger.credit [(3, (5 : Int64)), (7, (6 : Int64))] = .ok held := rfl
  have hsum : ScalarType.integer.add (held 3) (1 : Int64) = .ok (6 : Int64) := by decide
  have hmore : held.credit [(3, (1 : Int64))] = .ok (Function.update held 3 (6 : Int64)) := by
    rw [Ledger.credit, hsum]
    rfl
  have h0 : Reachable duo (start duo) := .start
  have h1 := h0.next (.push (w := 8) (by decide) rfl hpush hheld)
  have h2 := h1.next (.ask (w := 9) (by decide) rfl hread)
  have h3 := h2.next (.push (w := 8) (by decide) rfl hagain hmore)
  have h4 := h3.next (@Next.serve _ _ _ 1 first [ask 1 3, again] _ rfl rfl)
  have h5 := h4.next (@Next.serve _ _ _ 1 (ask 1 3) [again] _ rfl rfl)
  have h6 := h5.next (@Next.serve _ _ _ 2 second [ask 2 7] _ rfl rfl)
  have h7 := h6.next (@Next.serve _ _ _ 2 (ask 2 7) [] _ rfl rfl)
  exact ⟨_, call, h7, transparent_of_reachable duo_open h7, rfl, rfl, rfl, _, hcollect⟩

end Mirror

end ParamServer
