import ParamServer.Proofs.Lists
import ParamServer.Proofs.Shard

/-!
# Tables apart

The tables of a shard have one queue and one thread between them. A message touches the tablet of
its own table, and every reply that it sets off carries that table's name, also the reply to a read
that has waited since long before (`Shard.apart_of_handle`). So what a table's messages come to can
be told from these messages alone (`Shard.tables_apart`): whatever is in between them, is refused or
has replies that nobody takes makes no difference.
-/

namespace ParamServer

namespace Tablet

variable {τ : ScalarType} {t t' : Tablet τ} {m : Message} {replies : List Message}

/-- All that waits is for one table. -/
def Keeps (t : Tablet τ) (table : TableId) : Prop :=
  ∀ e ∈ t.slice.waiting.entries, e.2.table = table

/-- **One message.** What waits after it has waited before or is the message itself, and every reply
is to one of these. -/
theorem origin_of_move (h : t.Move m replies t') :
    (∀ e ∈ t'.slice.waiting.entries, e ∈ t.slice.waiting.entries ∨ e.2 = m) ∧
    ∀ r ∈ replies, ∃ q, (q = m ∨ ∃ e ∈ t.slice.waiting.entries, e.2 = q) ∧
      (r = q.reply ∨ ∃ store : Store τ, r = q.answerFrom store) := by
  have hpark : ∀ due, ∀ e ∈ (t.slice.waiting.park due m).entries,
      e ∈ t.slice.waiting.entries ∨ e.2 = m := by
    intro due e he
    rcases List.mem_cons.mp ((Waitlist.entries_park_perm ..).mem_iff.mp he) with rfl | he
    · exact Or.inr rfl
    · exact Or.inl he
  cases h with
  | apply => exact ⟨fun e he => Or.inl he, by simp⟩
  | park => exact ⟨hpark _, by simp⟩
  | answer =>
    refine ⟨fun e he => Or.inl he, fun r hr => ?_⟩
    exact ⟨m, Or.inl rfl, Or.inr ⟨t.slice.store, List.mem_singleton.mp hr⟩⟩
  | wait => exact ⟨hpark _, by simp⟩
  | tick => exact ⟨fun e he => Or.inl he, by simp⟩
  | @release roster low _ _ _ _ hrelease =>
    constructor
    · intro e he
      rw [hrelease.kept] at he
      exact Or.inl (List.mem_filter.mp he).1
    · intro r hr
      obtain ⟨e, he, rfl⟩ := List.mem_map.mp (hrelease.answered.mem_iff.mp hr)
      exact ⟨e.2, Or.inr ⟨e, (List.mem_filter.mp (List.mem_filter.mp he).1).1, rfl⟩,
        Or.inr ⟨_, rfl⟩⟩
  | close =>
    refine ⟨fun e he => Or.inl he, fun r hr => ?_⟩
    exact ⟨m, Or.inl rfl, Or.inl (List.mem_singleton.mp hr)⟩

end Tablet

namespace Event

/-- What a shard hands to the exchange in one turn. -/
def replies : Event → List Message
  | .handled _ replies => replies
  | _ => []

def fault? : Event → Option Fault
  | .crashed _ why => some why
  | _ => none

end Event

/-- A message that has come to a shard, and the exchange as it is when the shard gets to it. -/
structure Arrival where
  message : Message
  exchange : Exchange

namespace Shard

/-- Handles one message after the other. A fault ends it. -/
def handleAll (s : Shard) : List Arrival → Except Fault (List Event × Shard)
  | [] => .ok ([], s)
  | a :: rest =>
    let (event, next, _) := s.handle a.exchange a.message
    match event.fault? with
    | some why => .error why
    | none => (next.handleAll rest).map fun (events, last) => (event :: events, last)

/-- All that is handed to the exchange, in order. -/
def handed (events : List Event) : List Message := events.flatMap (·.replies)

variable {s s' : Shard} {table : TableId} {m : Message}

/-! ### What waits in a shard -/

/-- A message that one of the tablets keeps for later. -/
def Waits (s : Shard) (table : TableId) (q : Message) : Prop :=
  ∃ hosted, s.tablets.get? table = some hosted ∧
    ∃ e ∈ hosted.tablet.slice.waiting.entries, e.2 = q

theorem waits_insert {hosted : Hosted} {other : TableId} {q : Message}
    (h : Waits { s with tablets := s.tablets.insert table hosted } other q) :
    s.Waits other q ∨ (other = table ∧ ∃ e ∈ hosted.tablet.slice.waiting.entries, e.2 = q) := by
  obtain ⟨found, hfound, hwaits⟩ := h
  simp only [SortedMap.get?_insert] at hfound
  split at hfound
  case isTrue hsame =>
    obtain rfl := Option.some.inj hfound
    exact Or.inr ⟨rank_inj hsame, hwaits⟩
  case isFalse => exact Or.inl ⟨found, hfound, hwaits⟩

/-- **One message.** Nothing but the message itself can start to wait, in its own table, and every
reply is to a message of that table. -/
theorem waits_of_handle (h : s.Sound) (e : Exchange) (m : Message) :
    (∀ table q, (s.handle e m).2.1.Waits table q → s.Waits table q ∨ (table = m.table ∧ q = m)) ∧
    ∀ r ∈ (s.handle e m).1.replies, ∃ q, (q = m ∨ s.Waits m.table q) ∧
      (r = q.reply ∨ ∃ (τ : ScalarType) (store : Store τ), r = q.answerFrom store) := by
  unfold handle
  cases hfind : s.tablets.get? m.table with
  | none => exact ⟨fun _ _ hwaits => Or.inl hwaits, by simp [Event.replies]⟩
  | some hosted =>
    obtain ⟨spec, range, hserves⟩ := h.hosted m.table hosted hfind
    obtain ⟨τ, t⟩ := hosted
    have hold : ∀ e ∈ t.slice.waiting.entries, s.Waits m.table e.2 := fun e he =>
      ⟨⟨τ, t⟩, hfind, e, he, rfl⟩
    cases hcase : t.handle m with
    | ok replies t' =>
      obtain ⟨hwaiting, hreplies⟩ :=
        Tablet.origin_of_move (Tablet.move_of_handle hserves.toSound m hcase)
      simp only [Hosted.handle, hcase, Outcome.mapState]
      constructor
      · intro table q hwaits
        rcases waits_insert hwaits with hwaits | ⟨rfl, e, he, rfl⟩
        · exact Or.inl hwaits
        · exact (hwaiting e he).imp (hold e) fun hsame => ⟨rfl, hsame⟩
      · intro r hr
        obtain ⟨q, hq, horigin⟩ := hreplies r hr
        refine ⟨q, hq.imp_right ?_, horigin.imp_right fun hanswer => ⟨τ, hanswer⟩⟩
        rintro ⟨e, he, rfl⟩
        exact hold e he
    | error why t' =>
      obtain rfl := Tablet.eq_of_handle_error hserves.toSound m hcase
      simp only [Hosted.handle, hcase, Outcome.mapState]
      refine ⟨fun table q hwaits => Or.inl ?_, by simp [Event.replies]⟩
      rcases waits_insert hwaits with hwaits | ⟨rfl, e, he, rfl⟩
      · exact hwaits
      · exact hold e he
    | fault why =>
      simp only [Hosted.handle, hcase, Outcome.mapState]
      exact ⟨fun _ _ hwaits => Or.inl hwaits, by simp [Event.replies]⟩

theorem waits_of_serve {r : Request} (hfresh : r.Fresh) {q : Message}
    (h : (s.serve r).2.Waits table q) : s.Waits table q := by
  cases r with
  | install name hosted =>
    simp only [serve] at h
    split at h
    · exact h
    · obtain ⟨spec, named, id, range, hnew⟩ := hfresh
      obtain ⟨store, gate, -, -, heq⟩ := Tablet.eq_of_new hnew
      refine (waits_insert h).resolve_right ?_
      rintro ⟨-, e, he, -⟩
      rw [heq] at he
      cases he
  | report => exact h
  | stop => exact h

/-- **One turn.** -/
theorem waits_of_turn (hlives : s.Lives) {e : Exchange} {which : Turn} {q : Message}
    (h : (s.turn e which).2.1.Waits table q) :
    s.Waits table q ∨ ∃ e', e.receive s.channel = some (q, e') ∧ q.table = table := by
  rcases turn_cases s e which with
    hcase | ⟨r, rest, _, -, -, hrequests, rfl, hcase⟩ | ⟨m, e', hreceive, -, hcase⟩ | ⟨-, hcase⟩ |
      ⟨-, -, hcase⟩
  all_goals rw [hcase] at h
  · exact Or.inl h
  · have hfresh : r.Fresh :=
      (sound_of_lives hlives).asked r (hrequests ▸ List.mem_cons_self)
    exact Or.inl (waits_of_serve (s := { s with requests := rest }) hfresh h)
  · refine ((waits_of_handle (sound_of_lives hlives) e' m).1 table q h).imp_right ?_
    rintro ⟨rfl, rfl⟩
    exact ⟨e', hreceive, rfl⟩
  · exact Or.inl h
  · exact Or.inl h

/-! ### Every table keeps its own -/

/-- No tablet has a message of another table waiting. -/
structure Apart (s : Shard) : Prop extends s.Sound where
  keeps : ∀ table hosted, s.tablets.get? table = some hosted → hosted.tablet.Keeps table

theorem keeps_iff : (∀ table hosted, s.tablets.get? table = some hosted →
    hosted.tablet.Keeps table) ↔ ∀ table q, s.Waits table q → q.table = table := by
  constructor
  · rintro h table q ⟨hosted, hfind, e, he, rfl⟩
    exact h table hosted hfind e he
  · exact fun h table hosted hfind e he => h table e.2 ⟨hosted, hfind, e, he, rfl⟩

/-- **One message.** Every reply is in the name of the message's table. -/
theorem apart_of_handle (h : s.Apart) (e : Exchange) (m : Message) :
    (s.handle e m).2.1.Apart ∧ ∀ r ∈ (s.handle e m).1.replies, r.table = m.table := by
  obtain ⟨hwaits, hreplies⟩ := waits_of_handle h.toSound e m
  have hkeeps := keeps_iff.mp h.keeps
  refine ⟨⟨sound_of_handle h.toSound e m, keeps_iff.mpr fun table q hq => ?_⟩, fun r hr => ?_⟩
  · rcases hwaits table q hq with hold | ⟨rfl, rfl⟩
    · exact hkeeps table q hold
    · rfl
  · obtain ⟨q, hq, horigin⟩ := hreplies r hr
    have htable : q.table = m.table := by
      rcases hq with rfl | hq
      · rfl
      · exact hkeeps m.table q hq
    rcases horigin with rfl | ⟨τ, store, rfl⟩ <;> exact htable

theorem apart_of_lives (h : s.Lives) : s.Apart := by
  refine ⟨sound_of_lives h, keeps_iff.mpr ?_⟩
  induction h with
  | start id channel =>
    rintro table q ⟨hosted, hfind, -⟩
    cases hfind
  | asked _ _ ih => exact ih
  | turn h e which ih =>
    intro table q hwaits
    rcases waits_of_turn h hwaits with hold | ⟨-, -, htable⟩
    · exact ih table q hold
    · exact htable

/-! ### One message, seen from one table -/

/-- What a message comes to depends on the tablet that it is for, and on nothing else. -/
theorem handle_alike (hsame : s.tablets.get? m.table = s'.tablets.get? m.table) (e e' : Exchange) :
    (s.handle e m).1 = (s'.handle e' m).1 ∧
      (s.handle e m).2.1.tablets.get? m.table = (s'.handle e' m).2.1.tablets.get? m.table := by
  unfold handle
  rw [← hsame]
  cases hfind : s.tablets.get? m.table with
  | none => exact ⟨rfl, hsame⟩
  | some hosted =>
    cases hcase : hosted.handle m with
    | ok replies next => simp only [hcase, SortedMap.get?_insert, if_pos, and_self]
    | error why next => simp only [hcase, SortedMap.get?_insert, if_pos, and_self]
    | fault why => simp only [hcase, leave, hsame, and_self]

theorem handle_of_ne (h : m.table ≠ table) (e : Exchange) :
    (s.handle e m).2.1.tablets.get? table = s.tablets.get? table := by
  have hrank : rank table ≠ rank m.table := fun hsame => h (rank_inj hsame).symm
  unfold handle
  cases s.tablets.get? m.table with
  | none => rfl
  | some hosted =>
    cases hcase : hosted.handle m with
    | ok replies next => simp only [hcase, SortedMap.get?_insert, if_neg hrank]
    | error why next => simp only [hcase, SortedMap.get?_insert, if_neg hrank]
    | fault why => simp only [hcase, leave]

/-- Every reply is offered to the exchange, whatever became of those before it. -/
theorem exchange_of_handle {e : Exchange} (h : (s.handle e m).1.fault? = none) :
    (s.handle e m).2.2 = (s.handle e m).1.replies.foldl Courier.trySend e := by
  unfold handle at h ⊢
  cases hfind : s.tablets.get? m.table with
  | none => rfl
  | some hosted =>
    cases hcase : hosted.handle m with
    | ok replies next => simp only [hcase, Event.replies]
    | error why next => simp only [hcase, Event.replies, List.foldl_nil]
    | fault why =>
      simp only [hfind, hcase] at h
      cases h

/-! ### One message after the other -/

theorem handleAll_cons_eq_ok {a : Arrival} {rest : List Arrival} {events : List Event}
    {last : Shard} :
    s.handleAll (a :: rest) = .ok (events, last) ↔
      (s.handle a.exchange a.message).1.fault? = none ∧
      ∃ later, (s.handle a.exchange a.message).2.1.handleAll rest = .ok (later, last) ∧
        events = (s.handle a.exchange a.message).1 :: later := by
  simp only [handleAll]
  cases (s.handle a.exchange a.message).1.fault? with
  | some why => simp
  | none =>
    cases (s.handle a.exchange a.message).2.1.handleAll rest with
    | error why => simp [Except.map]
    | ok result => simp [Except.map, Prod.ext_iff, and_comm, eq_comm]

theorem handed_cons (event : Event) (events : List Event) :
    handed (event :: events) = event.replies ++ handed events :=
  List.flatMap_cons

/-- Two shards that agree on one table, one with all messages and the other with that table's. -/
theorem handleAll_alike {all own : List Arrival} {events : List Event} {last : Shard}
    (h : s.Apart) (hsame : s.tablets.get? table = s'.tablets.get? table)
    (hown : own.map (·.message) = (all.map (·.message)).filter (·.table = table))
    (hrun : s.handleAll all = .ok (events, last)) :
    ∃ events' last', s'.handleAll own = .ok (events', last') ∧
      handed events' = (handed events).filter (·.table = table) ∧
      last'.tablets.get? table = last.tablets.get? table := by
  induction all generalizing s s' own events with
  | nil =>
    obtain rfl := List.map_eq_nil_iff.mp hown
    obtain ⟨rfl, rfl⟩ := Prod.mk.inj (Except.ok.inj hrun)
    exact ⟨[], s', rfl, rfl, hsame.symm⟩
  | cons a rest ih =>
    obtain ⟨hgoes, later, hlater, rfl⟩ := handleAll_cons_eq_ok.mp hrun
    obtain ⟨hapart, hreplies⟩ := apart_of_handle h a.exchange a.message
    rw [handed_cons, List.filter_append]
    by_cases htable : a.message.table = table
    · subst htable
      rw [List.map_cons, List.filter_cons_of_pos (by simp)] at hown
      obtain ⟨⟨m, e'⟩, own, rfl, rfl, hrest⟩ := List.map_eq_cons_iff.mp hown
      obtain ⟨hevent, hnext⟩ := handle_alike hsame a.exchange e'
      obtain ⟨later', last', hlater', hhanded, hlast⟩ := ih hapart hnext hrest hlater
      rw [hevent] at hgoes
      refine ⟨_, last', handleAll_cons_eq_ok.mpr ⟨hgoes, later', hlater', rfl⟩, ?_, hlast⟩
      rw [handed_cons, hhanded, filter_of_forall_eq hreplies, hevent]
    · rw [List.map_cons, List.filter_cons_of_neg (by simpa using htable)] at hown
      rw [filter_of_forall_ne fun r hr => (hreplies r hr).trans_ne htable, List.nil_append]
      exact ih hapart ((handle_of_ne htable a.exchange).trans hsame) hown hlater

/-- **Tables apart.** Whatever else comes to a shard, for known tables and unknown ones, refused or
not, and whatever becomes of its replies: as long as it goes on, a table's messages come to what
they would come to if there were no others. The shard hands the same replies in the table's name to
the exchange, all of them and in the same order, and is left with the same tablet. -/
theorem tables_apart (h : s.Lives) {all : List Arrival} {events : List Event} {last : Shard}
    (hrun : s.handleAll all = .ok (events, last)) (table : TableId) {own : List Arrival}
    (hown : own.map (·.message) = (all.map (·.message)).filter (·.table = table)) :
    (∃ events' last', s.handleAll own = .ok (events', last') ∧
      handed events' = (handed events).filter (·.table = table) ∧
      last'.tablets.get? table = last.tablets.get? table) ∧
    ∀ (s : Shard) (e : Exchange) (m : Message), (s.handle e m).1.fault? = none →
      (s.handle e m).2.2 = (s.handle e m).1.replies.foldl Courier.trySend e :=
  ⟨handleAll_alike (apart_of_lives h) rfl hown hrun, fun _ _ _ => exchange_of_handle⟩

/-- A barrier table 0 and an unrestricted table 5. -/
def crossed : Shard := hosting
  ⟨.integer, ⟨.new 0 7 ⟨0, 10⟩ (.sparse .empty), .barrier⟩⟩
  ⟨.double, ⟨.new 5 7 ⟨0, 4⟩ (.sparse .empty), .open⟩⟩

theorem lives_crossed : crossed.Lives :=
  .turn (.asked (.turn (.asked (.start 7 0) (r := .install 0 _) ⟨.bsp .sparse, 0, 7, ⟨0, 10⟩, rfl⟩)
    (.new false) .request) (r := .install 5 _) ⟨.asp .sparse, 5, 7, ⟨0, 4⟩, rfl⟩)
    (.new false) .request

/-- A read of table 0 waits while another table is read, a third is not known, and a key of table 5
is out of range. -/
def crossing : List Message := [
  ⟨.add, 1, 7, 0, 0, 0, [.keys [3], .integers [4]]⟩,
  ⟨.get, 1, 7, 0, 1, 1, [.keys [3]]⟩,
  ⟨.clock, 1, 7, 9, 1, 0, []⟩,
  ⟨.add, 1, 7, 5, 0, 0, [.keys [6], .doubles [⟨0⟩]]⟩,
  ⟨.get, 1, 7, 5, 0, 2, [.keys [2]]⟩,
  ⟨.clock, 1, 7, 0, 1, 0, []⟩]

/-- Only the read of table 0 is answered in its name, by the last message. -/
theorem tables_apart_crossing :
    ∃ events last events' last',
      crossed.handleAll (crossing.map (⟨·, .new false⟩)) = .ok (events, last) ∧
      crossed.handleAll ((crossing.filter (·.table = 0)).map (⟨·, .new true⟩)) =
        .ok (events', last') ∧
      (handed events).map (·.table) = [5, 0] ∧
      handed events' = [⟨.response, 7, 1, 0, 1, 1, [.keys [3], .integers [4]]⟩] ∧
      handed events' = (handed events).filter (·.table = 0) ∧
      last'.tablets.get? 0 = last.tablets.get? 0 := by
  have hrun : crossed.handleAll (crossing.map (⟨·, .new false⟩)) = .ok (_, _) := rfl
  have hown : ((crossing.filter (·.table = 0)).map (Arrival.mk · (.new true))).map (·.message) =
      ((crossing.map (Arrival.mk · (.new false))).map (·.message)).filter (·.table = 0) := rfl
  obtain ⟨⟨events', last', hrun', hhanded, hlast⟩, -⟩ := tables_apart lives_crossed hrun 0 hown
  refine ⟨_, _, events', last', hrun, hrun', rfl, ?_, hhanded, hlast⟩
  rw [hhanded]
  rfl

end Shard

end ParamServer
