import ParamServer.Proofs.Roster
import ParamServer.Proofs.Store
import ParamServer.Slice

/-!
# Sound messages

What a slice looks over before it takes a message in: the keys of a read, and the keys and values
of an update, are as they should be (`ReadsIn`, `AddsIn`). A sound read of a covered range always
has an answer, which is the store's values key by key (`answerFrom`), and a sound update is refused
by nobody further down.
-/

namespace ParamServer

@[simp] theorem mapError_ok {ε ε' α : Type} (f : ε → ε') (a : α) :
    (Except.ok a : Except ε α).mapError f = .ok a := rfl

@[simp] theorem mapError_error {ε ε' α : Type} (f : ε → ε') (why : ε) :
    (Except.error why : Except ε α).mapError f = .error (f why) := rfl

/-- The keys of a message, none where it has no key block. -/
def Message.keyList (m : Message) : List Key := m.keys.toOption.getD []

/-- What a message adds, one pair for each of its keys. -/
def Message.updates (τ : ScalarType) (m : Message) : List (Key × τ.Value) :=
  m.keyList.zip ((m.values τ).toOption.getD [])

/-- The answer that a store gives to a read. -/
def Message.answerFrom {τ : ScalarType} (m : Message) (store : Store τ) : Message :=
  { m.reply with
    blocks := [.keys m.keyList, .ofValues τ (m.keyList.map store.value)] }

/-- Keys in ascending order and all of them in the range. -/
structure Message.ReadsIn (m : Message) (range : Interval) : Prop where
  keys_eq : m.keys = .ok m.keyList
  ascending : ascending m.keyList = true
  inside : ∀ key ∈ m.keyList, key ∈ range

structure Message.AddsIn (m : Message) (τ : ScalarType) (range : Interval) : Prop
    extends m.ReadsIn range where
  values_eq : ∃ values, m.values τ = .ok values ∧ m.keyList.length = values.length

theorem Message.AddsIn.inside_updates {m : Message} {τ : ScalarType} {range : Interval}
    (h : m.AddsIn τ range) : ∀ e ∈ m.updates τ, e.1 ∈ range := by
  intro e he
  exact h.inside e.1 (List.of_mem_zip he).1

theorem Message.values_eq_ok {m : Message} {τ : ScalarType} {keys : List Key}
    {values : List τ.Value} (h : m.blocks = [.keys keys, .ofValues τ values]) :
    m.values τ = .ok values := by
  simp [Message.values, h]

theorem Message.deltasAt_perm {τ : ScalarType} (key : Key) {front back : List Message}
    (h : front.Perm back) :
    (deltasAt key (front.flatMap (·.updates τ))).Perm
      (deltasAt key (back.flatMap (·.updates τ))) :=
  ((h.flatMap_right _).filter _).map _

/-- Updates of other keys bring nothing for a key. -/
theorem Message.deltasAt_filter {τ : ScalarType} {key : Key} {p : Message → Bool}
    {ms : List Message} (h : ∀ m ∈ ms, key ∈ m.keyList → p m = true) :
    deltasAt key ((ms.filter p).flatMap (·.updates τ)) =
      deltasAt key (ms.flatMap (·.updates τ)) := by
  induction ms with
  | nil => rfl
  | cons m rest ih =>
    have hrest := ih fun k hk => h k (List.mem_cons_of_mem _ hk)
    rw [List.flatMap_cons, deltasAt_append]
    by_cases hm : p m = true
    · rw [List.filter_cons_of_pos hm, List.flatMap_cons, deltasAt_append, hrest]
    · have hnone : deltasAt key (m.updates τ) = [] := by
        rw [deltasAt, List.map_eq_nil_iff, List.filter_eq_nil_iff]
        intro e he hkey
        obtain rfl := of_decide_eq_true hkey
        exact hm (h m (List.mem_cons_self ..) (List.of_mem_zip he).1)
      rw [List.filter_cons_of_neg hm, hnone, List.nil_append, hrest]

namespace Slice

variable {τ : ScalarType}

theorem checkKeys_eq_ok_iff {s : Slice τ} {m : Message} :
    s.checkKeys m = .ok () ↔ m.ReadsIn s.range := by
  cases hkeys : m.keys with
  | error why =>
    have hcheck : s.checkKeys m = .error (.malformed why) := by
      unfold checkKeys keysOf
      rw [hkeys]
      rfl
    rw [hcheck]
    constructor
    · intro h
      cases h
    · intro h
      have hsound := h.keys_eq
      rw [hkeys] at hsound
      cases hsound
  | ok keys =>
    have hlist : m.keyList = keys := by rw [Message.keyList, hkeys]; rfl
    have hreads : m.ReadsIn s.range ↔
        ascending keys = true ∧ ∀ key ∈ keys, key ∈ s.range := by
      constructor
      · intro h
        exact ⟨hlist ▸ h.ascending, hlist ▸ h.inside⟩
      · intro h
        exact ⟨by rw [hlist, hkeys], hlist.symm ▸ h.1, hlist.symm ▸ h.2⟩
    rw [hreads]
    unfold checkKeys keysOf
    rw [hkeys]
    simp only [bind, Except.bind, mapError_ok]
    by_cases hsorted : ascending keys = true
    · rw [if_pos hsorted]
      cases hfind : keys.find? (· ∉ s.range) with
      | none =>
        rw [List.find?_eq_none] at hfind
        exact ⟨fun _ => ⟨hsorted, by simpa using hfind⟩, fun _ => rfl⟩
      | some key =>
        have hmem := List.mem_of_find?_eq_some hfind
        have hout : key ∉ s.range := by simpa using List.find?_some hfind
        constructor
        · intro h
          cases h
        · intro h
          exact absurd (h.2 key hmem) hout
    · rw [if_neg hsorted]
      constructor
      · intro h
        cases h
      · intro h
        exact absurd h.1 hsorted

theorem acceptGet_eq_ok_iff {s s' : Slice τ} {m : Message} :
    s.acceptGet m = .ok s' ↔
      m.ReadsIn s.range ∧ ∃ roster, s.roster.enrol m.sender = .ok roster ∧
        s' = { s with roster } := by
  unfold acceptGet
  rw [← checkKeys_eq_ok_iff]
  cases henrol : s.roster.enrol m.sender with
  | error why =>
    cases s.roster.check m.sender <;> cases s.checkKeys m <;>
      simp [bind, Except.bind]
  | ok roster =>
    rw [Roster.check_of_enrol henrol]
    cases s.checkKeys m <;> simp [bind, Except.bind, pure, Except.pure, eq_comm (a := s')]

theorem acceptAdd_eq_ok_iff {s s' : Slice τ} {m : Message} :
    s.acceptAdd m = .ok s' ↔
      m.AddsIn τ s.range ∧ ∃ roster, s.roster.enrol m.sender = .ok roster ∧
        s' = { s with roster } := by
  unfold acceptAdd
  have hadds : m.AddsIn τ s.range ↔ s.checkKeys m = .ok () ∧
      ∃ values, m.values τ = .ok values ∧ m.keyList.length = values.length := by
    rw [checkKeys_eq_ok_iff]
    exact ⟨fun h => ⟨h.toReadsIn, h.values_eq⟩, fun h => ⟨h.1, h.2⟩⟩
  rw [hadds]
  cases hcheck : s.checkKeys m with
  | error why =>
    cases s.roster.check m.sender <;> simp [bind, Except.bind]
  | ok _ =>
    have hkeys := (checkKeys_eq_ok_iff.mp hcheck).keys_eq
    cases henrol : s.roster.enrol m.sender with
    | error why =>
      cases s.roster.check m.sender with
      | error why => simp [bind, Except.bind]
      | ok _ =>
        simp only [deltas, keysOf, hkeys]
        cases m.values τ with
        | error why => simp [bind, Except.bind]
        | ok values =>
          by_cases hlength : m.keyList.length = values.length <;>
            simp [bind, Except.bind, pure, Except.pure, hlength, throw, throwThe,
              MonadExceptOf.throw]
    | ok roster =>
      simp only [Roster.check_of_enrol henrol, deltas, keysOf, hkeys]
      cases m.values τ with
      | error why => simp [bind, Except.bind]
      | ok values =>
        by_cases hlength : m.keyList.length = values.length <;>
          simp [bind, Except.bind, pure, Except.pure, hlength, throw, throwThe,
            MonadExceptOf.throw, eq_comm (a := s')]

section Refusals

variable {s s' : Slice τ} (hshard : s'.shard = s.shard) (hrange : s'.range = s.range)
  (hroster : s'.roster = s.roster) {m : Message} {why : Error}

include hshard hrange hroster

/-- A refusal has to do with the message, the place and the roster. -/
theorem acceptAdd_eq_error (h : s.acceptAdd m = .error why) : s'.acceptAdd m = .error why := by
  have hkeys : s'.checkKeys m = s.checkKeys m := by rw [checkKeys, checkKeys, hshard, hrange]
  unfold acceptAdd at h ⊢
  rw [hroster, hkeys]
  cases hcheck : s.roster.check m.sender with
  | error why => rwa [hcheck] at h
  | ok _ =>
    cases hread : s.checkKeys m with
    | error why => rwa [hcheck, hread] at h
    | ok _ =>
      cases hpairs : deltas τ m with
      | error why => rwa [hcheck, hread, hpairs] at h
      | ok pairs =>
        cases henrol : s.roster.enrol m.sender with
        | error why => rwa [hcheck, hread, hpairs, henrol] at h
        | ok roster =>
          rw [hcheck, hread, hpairs, henrol] at h
          by_cases hlength : pairs.1.length = pairs.2.length
          · simp [hlength, bind, Except.bind, pure, Except.pure] at h
          · simpa [hlength, bind, Except.bind, throw, throwThe, MonadExceptOf.throw] using h

theorem acceptGet_eq_error (h : s.acceptGet m = .error why) : s'.acceptGet m = .error why := by
  have hkeys : s'.checkKeys m = s.checkKeys m := by rw [checkKeys, checkKeys, hshard, hrange]
  unfold acceptGet at h ⊢
  rw [hroster, hkeys]
  cases hcheck : s.roster.check m.sender with
  | error why => rwa [hcheck] at h
  | ok _ =>
    cases hread : s.checkKeys m with
    | error why => rwa [hcheck, hread] at h
    | ok _ =>
      cases henrol : s.roster.enrol m.sender with
      | error why => rwa [hcheck, hread, henrol] at h
      | ok roster =>
        rw [hcheck, hread, henrol] at h
        cases h

end Refusals

theorem applyAdd_of_addsIn {s : Slice τ} {m : Message} (h : m.AddsIn τ s.range) :
    s.applyAdd m = (s.store.addAll (m.updates τ)).mapState ({ s with store := · }) := by
  obtain ⟨values, hvalues, -⟩ := h.values_eq
  have hdeltas : deltas τ m = .ok (m.keyList, values) := by
    simp only [deltas, keysOf, h.keys_eq, hvalues]
    rfl
  rw [applyAdd, hdeltas, Message.updates, hvalues]
  rfl

theorem answer_of_readsIn {s : Slice τ} (hcovers : s.store.Covers s.range) {m : Message}
    (h : m.ReadsIn s.range) : s.answer m = .ok (m.answerFrom s.store) := by
  have hkeys : keysOf m = .ok m.keyList := by rw [keysOf, h.keys_eq]; rfl
  rw [answer, hkeys]
  simp only [bind, Except.bind, Store.readAll_of_covers hcovers h.inside]
  rfl

theorem answerAll_of_readsIn {s : Slice τ} (hcovers : s.store.Covers s.range) {ms : List Message}
    (h : ∀ m ∈ ms, m.ReadsIn s.range) : s.answerAll ms = ms.map (·.answerFrom s.store) := by
  unfold answerAll
  induction ms with
  | nil => rfl
  | cons m rest ih =>
    have hanswer := answer_of_readsIn hcovers (h m (List.mem_cons_self ..))
    rw [List.filterMap_cons_some (by rw [hanswer]; rfl),
      ih fun m hm => h m (List.mem_cons_of_mem _ hm)]
    rfl

end Slice

end ParamServer
