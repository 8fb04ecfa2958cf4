import ParamServer.Cluster
import ParamServer.Proofs.Courier
import ParamServer.Proofs.Session.Calls

/-!
# One answer from each shard that was asked

What a read comes to is decided by the messages it has read, and nothing about the session or the
inbox is taken for granted here: messages may come from anyone, twice, too late, or with anything in
them. A read that returns has heard each shard it asked once and nobody else (`Heard`), and beyond
that has only thrown away answers to reads given up before. Conversely, an inbox with one right
answer for each shard and no more late ones than are counted on (`Awaited`) makes the read return
the same values in any order.
-/

namespace ParamServer

variable {τ : ScalarType}

namespace Session

theorem payload_eq_ok {r : Run} {a : Message} {values : List τ.Value}
    (h : payload τ r a = .ok values) :
    a.keys = .ok r.keys ∧ a.values τ = .ok values ∧ values.length = r.keys.length := by
  unfold payload at h
  cases hkeys : a.keys with
  | error why => rw [hkeys] at h; cases h
  | ok keys =>
    cases hvalues : a.values τ with
    | error why => rw [hkeys, hvalues] at h; cases h
    | ok vs =>
      rw [hkeys, hvalues] at h
      simp only [mapError_ok, bind, Except.bind] at h
      split at h
      case isTrue => cases h
      case isFalse hright =>
        cases h
        rw [not_or, Decidable.not_not, Decidable.not_not] at hright
        exact ⟨congrArg _ hright.1, rfl, hright.2⟩

/-! ### Whatever comes -/

section Accept

variable {s s' : Session τ} {p p' : Pull τ} {m : Message}

/-- A message with nothing wrong: late by an earlier read's number, or what one shard was asked. -/
theorem accept_cases (h : s.accept p m = (none, s', p')) :
    (m.request ≠ p.request ∧ p' = p ∧ s.discard m = .ok s') ∨
    (m.request = p.request ∧ s' = s ∧ ∃ part ∈ p.parts, part.answer = none ∧ ∃ values,
      part.run.AnsweredBy τ m values ∧ p' = p.fill part.run.shard values) := by
  unfold accept at h
  split at h
  case isTrue hother =>
    cases hdiscard : s.discard m with
    | error why => rw [hdiscard] at h; cases h
    | ok next =>
      rw [hdiscard] at h
      cases h
      exact Or.inl ⟨hother, rfl, rfl⟩
  case isFalse hsame =>
    split at h
    case h_1 => cases h
    case h_2 => cases h
    case h_3 run hfind =>
      cases hpayload : payload τ run m with
      | error why => rw [hpayload] at h; cases h
      | ok values =>
        rw [hpayload] at h
        cases h
        obtain ⟨hkeys, hvalues, hlength⟩ := payload_eq_ok hpayload
        have hshard : run.shard = m.sender := by simpa using List.find?_some hfind
        exact Or.inr ⟨Decidable.not_not.mp hsame, rfl, ⟨run, none⟩, List.mem_of_find?_eq_some hfind,
          rfl, values, ⟨hshard.symm, hkeys, hvalues, hlength⟩, by rw [hshard]⟩

theorem discard_eq_ok (h : s.discard m = .ok s') :
    (∃ n, s.abandoned.get? m.request = some n) ∧ Kept s s' p p := by
  unfold discard at h
  cases hget : s.abandoned.get? m.request with
  | none => rw [hget] at h; cases h
  | some n =>
    rw [hget] at h
    obtain rfl := Except.ok.inj h
    refine ⟨⟨n, rfl⟩, rfl, fun r hr => ?_, rfl, rfl⟩
    have hne : r ≠ m.request := by
      rintro rfl
      rw [hget] at hr
      cases hr
    rw [get?_alter_of_ne hne]
    exact hr

/-- Reads `ms` with nothing wrong, the read being incomplete before each of them. -/
inductive Heeds : Session τ → Pull τ → List Message → Session τ → Pull τ → Prop
  | nil (s : Session τ) (p : Pull τ) : Heeds s p [] s p
  | cons {s s' s'' : Session τ} {p p' p'' : Pull τ} {m : Message} {ms : List Message}
      (hmissing : p.missing ≠ 0) (haccept : s.accept p m = (none, s', p'))
      (hrest : Heeds s' p' ms s'' p'') : Heeds s p (m :: ms) s'' p''

theorem heeds_of_done {inbox unread : List Message} {values : List τ.Value}
    (h : s.collect p inbox = .done values s' unread) :
    ∃ used p', inbox = used ++ unread ∧ Heeds s p used s' p' ∧ p'.missing = 0 ∧
      values = p'.values := by
  induction inbox generalizing s p with
  | nil =>
    rw [collect] at h
    split at h
    case isTrue hmissing =>
      cases h
      exact ⟨[], p, rfl, .nil _ p, hmissing, rfl⟩
    case isFalse => cases h
  | cons m rest ih =>
    rw [collect] at h
    split at h
    case isTrue hmissing =>
      cases h
      exact ⟨[], p, rfl, .nil _ p, hmissing, rfl⟩
    case isFalse hmissing =>
      split at h
      case h_1 next filled haccept =>
        obtain ⟨used, p', rfl, hheeds, hdone⟩ := ih h
        exact ⟨m :: used, p', rfl, .cons hmissing haccept hheeds, hdone⟩
      case h_2 => cases h

theorem heeds_of_pending {front : List Message} (h : s.collect p front = .pending p' s') :
    Heeds s p front s' p' := by
  induction front generalizing s p with
  | nil =>
    rw [collect] at h
    split at h
    case isTrue => cases h
    case isFalse =>
      cases h
      exact .nil _ _
  | cons m rest ih =>
    rw [collect] at h
    split at h
    case isTrue => cases h
    case isFalse hmissing =>
      split at h
      case h_1 next filled haccept => exact .cons hmissing haccept (ih h)
      case h_2 => cases h

/-- Whatever is wrong with a message, the session loses no more than answers that it counted on. -/
theorem session_of_accept {bad : Option Error} (h : s.accept p m = (bad, s', p')) :
    s' = { s with abandoned := s'.abandoned } := by
  unfold accept at h
  split at h
  case isTrue =>
    cases hdiscard : s.discard m with
    | error why =>
      rw [hdiscard] at h
      cases h
      rfl
    | ok next =>
      rw [hdiscard] at h
      cases h
      exact (discard_eq_ok (p := p) hdiscard).2.session
  case isFalse =>
    split at h
    case h_1 => cases h; rfl
    case h_2 => cases h; rfl
    case h_3 run hfind =>
      cases hpayload : payload τ run m with
      | error why => rw [hpayload] at h; cases h; rfl
      | ok values => rw [hpayload] at h; cases h; rfl

theorem session_of_heeds {ms : List Message} (h : Heeds s p ms s' p') :
    s' = { s with abandoned := s'.abandoned } := by
  induction h with
  | nil => rfl
  | cons _ haccept _ ih => rw [ih, session_of_accept haccept]

theorem session_of_failed {inbox unread : List Message} {why : Error}
    (h : s.collect p inbox = .failed why s' unread) :
    s' = { s with abandoned := s'.abandoned } ∧ ∃ used, inbox = used ++ unread := by
  induction inbox generalizing s p with
  | nil =>
    rw [collect] at h
    split at h
    case isTrue => cases h
    case isFalse => cases h
  | cons m rest ih =>
    rw [collect] at h
    split at h
    case isTrue => cases h
    case isFalse =>
      split at h
      case h_1 next filled haccept =>
        obtain ⟨hsame, used, rfl⟩ := ih h
        exact ⟨by rw [hsame, session_of_accept haccept], m :: used, rfl⟩
      case h_2 bad next filled haccept =>
        cases h
        exact ⟨by rw [abandon_eq, session_of_accept haccept], [m], rfl⟩

/-- However a read ends, the worker is at the same table with the same clock. -/
theorem giveUp_leaves {silence : Silence} {p : Pull τ} {inbox unread : List Message}
    (h : (giveUp silence (s.collect p inbox)).Leaves (s', unread)) :
    s' = { s with abandoned := s'.abandoned } := by
  cases hread : s.collect p inbox with
  | done values next rest =>
    rw [hread, giveUp, Outcome.leaves_ok] at h
    obtain ⟨rfl, rfl⟩ := Prod.mk.inj h
    obtain ⟨used, p', -, hheeds, -⟩ := heeds_of_done hread
    exact session_of_heeds hheeds
  | failed bad next rest =>
    rw [hread, giveUp, Outcome.leaves_error] at h
    obtain ⟨rfl, rfl⟩ := Prod.mk.inj h
    exact (session_of_failed hread).1
  | pending pull next =>
    rw [hread, giveUp, Outcome.leaves_error] at h
    obtain ⟨rfl, rfl⟩ := Prod.mk.inj h
    rw [abandon_eq, session_of_heeds (heeds_of_pending hread)]

/-- A read that is given up has read some of the inbox, and the session is where it was. -/
theorem session_of_giveUp {silence : Silence} {front unread : List Message} {why : Error}
    (h : giveUp silence (s.collect p front) = .error why (s', unread)) :
    s' = { s with abandoned := s'.abandoned } ∧ ∃ used, front = used ++ unread := by
  refine ⟨giveUp_leaves (Or.inr ⟨why, h⟩), ?_⟩
  cases hread : s.collect p front with
  | done values next rest =>
    rw [hread] at h
    cases h
  | failed bad next rest =>
    rw [hread] at h
    cases h
    exact (session_of_failed hread).2
  | pending pull next =>
    rw [hread] at h
    cases h
    exact ⟨front, (List.append_nil _).symm⟩

/-- What the messages read so far have come to, in a read that asks the shards of `runs`. -/
structure Heard (runs : List Run) (p : Pull τ) (ms : List Message) : Prop where
  runs_eq : p.parts.map (·.run) = runs
  backed : p.Backed ms
  senders : ((ms.filter fun a => decide (a.request = p.request)).map (·.sender) ++
    p.unanswered).Perm (runs.map (·.shard))
  answers : ∀ a ∈ ms, a.request = p.request → ∃ r ∈ runs, ∃ values, r.AnsweredBy τ a values

theorem heard_asking (request : RequestId) (runs : List Run) :
    Heard runs (asking request runs : Pull τ) [] where
  runs_eq := runs_asking request runs
  backed := backed_asking request runs []
  senders := List.Perm.of_eq (unanswered_asking request runs)
  answers := by simp

theorem Heard.distinct {runs : List Run} {ms : List Message} (h : Heard runs p ms)
    (hdistinct : (runs.map (·.shard)).Nodup) : (p.parts.map (·.run.shard)).Nodup := by
  rw [← h.runs_eq, List.map_map] at hdistinct
  exact hdistinct

/-- Whatever a message that is in order fills in, it was said there. -/
theorem backed_of_accept (hdistinct : (p.parts.map (·.run.shard)).Nodup) {ms : List Message}
    (hbacked : p.Backed ms) (haccept : s.accept p m = (none, s', p')) :
    p'.Backed (ms ++ [m]) ∧ Kept s s' p p' := by
  have hmore := hbacked.mono fun k (hk : k ∈ ms) => List.mem_append_left [m] hk
  rcases accept_cases haccept with
    ⟨-, rfl, hdiscard⟩ | ⟨hsame, rfl, part, hpart, -, values, hanswered, rfl⟩
  · exact ⟨hmore, (discard_eq_ok hdiscard).2⟩
  · exact ⟨hmore.fill hdistinct hpart (by simp) hsame hanswered, rfl, fun _ hr => hr, rfl,
      Pull.runs_fill ..⟩

theorem backed_of_heeds (hdistinct : (p.parts.map (·.run.shard)).Nodup) {before ms : List Message}
    (hbacked : p.Backed before) (hheeds : Heeds s p ms s' p') :
    p'.Backed (before ++ ms) ∧ Kept s s' p p' := by
  induction hheeds generalizing before with
  | nil s p => exact ⟨by rwa [List.append_nil], Kept.refl s p⟩
  | @cons s s' s'' p p' p'' m ms _ haccept _ ih =>
    obtain ⟨hfilled, hkept⟩ := backed_of_accept hdistinct hbacked haccept
    obtain ⟨hfilled', hkept'⟩ := ih (hkept.shards ▸ hdistinct) hfilled
    rw [List.append_assoc] at hfilled'
    exact ⟨hfilled', hkept.trans hkept'⟩

theorem heard_of_accept {runs : List Run} (hdistinct : (runs.map (·.shard)).Nodup)
    {ms : List Message} (h : Heard runs p ms) (haccept : s.accept p m = (none, s', p')) :
    Heard runs p' (ms ++ [m]) ∧ Kept s s' p p' ∧
      (m.request ≠ p.request → ∃ n, s.abandoned.get? m.request = some n) := by
  have hparts := h.distinct hdistinct
  obtain ⟨hbacked, hkept⟩ := backed_of_accept hparts h.backed haccept
  refine ⟨⟨hkept.runs.trans h.runs_eq, hbacked, ?_, ?_⟩, hkept, ?_⟩
  all_goals rcases accept_cases haccept with
    ⟨hother, rfl, hdiscard⟩ | ⟨hsame, rfl, part, hpart, hnone, values, hanswered, rfl⟩
  · rw [List.filter_append, List.filter_cons_of_neg (by simpa using hother), List.filter_nil,
      List.append_nil]
    exact h.senders
  · have hunanswered := Pull.unanswered_perm_fill hparts hpart hnone values
    change ((((ms ++ [m]).filter fun a => decide (a.request = p.request)).map (·.sender)) ++
      _).Perm _
    rw [List.filter_append, List.filter_cons_of_pos (by simpa using hsame), List.filter_nil,
      List.map_append, List.map_singleton, hanswered.sender_eq, List.append_assoc]
    exact (hunanswered.symm.append_left _).trans h.senders
  · intro a ha hrequest
    rcases List.mem_append.mp ha with ha | ha
    · exact h.answers a ha hrequest
    · exact absurd (List.mem_singleton.mp ha ▸ hrequest) hother
  · intro a ha hrequest
    rcases List.mem_append.mp ha with ha | ha
    · exact h.answers a ha hrequest
    · obtain rfl := List.mem_singleton.mp ha
      exact ⟨part.run, h.runs_eq ▸ List.mem_map_of_mem hpart, values, hanswered⟩
  · exact fun _ => (discard_eq_ok (p := p') hdiscard).1
  · exact fun hother => absurd hsame hother

theorem heard_of_heeds {runs : List Run} (hdistinct : (runs.map (·.shard)).Nodup)
    {before ms : List Message} (h : Heard runs p before) (hheeds : Heeds s p ms s' p') :
    Heard runs p' (before ++ ms) ∧ Kept s s' p p' ∧
      ∀ a ∈ ms, a.request ≠ p.request → ∃ n, s.abandoned.get? a.request = some n := by
  induction hheeds generalizing before with
  | nil s p => exact ⟨by rwa [List.append_nil], Kept.refl s p, by simp⟩
  | @cons s s' s'' p p' p'' m ms _ haccept _ ih =>
    obtain ⟨hheard, hkept, hlate⟩ := heard_of_accept hdistinct h haccept
    obtain ⟨hheard', hkept', hlate'⟩ := ih hheard
    rw [List.append_assoc] at hheard'
    refine ⟨hheard', hkept.trans hkept', fun a ha hother => ?_⟩
    rcases List.mem_cons.mp ha with rfl | ha
    · exact hlate hother
    · obtain ⟨n, hn⟩ := hlate' a ha (by rwa [hkept.request])
      by_contra hnone
      rw [hkept.shrunk a.request (by simpa [← Option.ne_none_iff_exists'] using hnone)] at hn
      cases hn

end Accept

/-! ### One right answer for each shard -/

/-- The inbox holds what the read waits for, once, and late answers that are counted on. -/
structure Awaited (s : Session τ) (p : Pull τ) (inbox : List Message) : Prop where
  distinct : (p.parts.map (·.run.shard)).Nodup
  senders : ((inbox.filter fun a => decide (a.request = p.request)).map (·.sender)).Perm
    p.unanswered
  honest : ∀ a ∈ inbox, a.request = p.request →
    ∃ part ∈ p.parts, ∃ values, part.run.AnsweredBy τ a values
  late : ∀ r, r ≠ p.request →
    inbox.countP (fun a => decide (a.request = r)) ≤ (s.abandoned.get? r).getD 0

section Awaited

variable {s : Session τ} {p : Pull τ} {m : Message} {inbox : List Message}

theorem discard_of_awaited (h : Awaited s p (m :: inbox)) (hother : m.request ≠ p.request) :
    ∃ s', s.discard m = .ok s' ∧ Awaited s' p inbox := by
  have hcount := h.late m.request hother
  rw [List.countP_cons_of_pos (by simp)] at hcount
  cases hget : s.abandoned.get? m.request with
  | none =>
    rw [hget, Option.getD_none] at hcount
    omega
  | some n =>
    rw [hget, Option.getD_some] at hcount
    refine ⟨_, by rw [discard, hget], h.distinct, ?_,
      fun a ha => h.honest a (List.mem_cons_of_mem _ ha), fun r hr => ?_⟩
    · have hsenders := h.senders
      rwa [List.filter_cons_of_neg (by simpa using hother)] at hsenders
    · by_cases hsame : r = m.request
      · subst hsame
        rw [SortedMap.get?_alter, if_pos rfl]
        split
        · rw [Option.getD_none]
          omega
        · rw [Option.getD_some]
          omega
      · have hlate := h.late r hr
        rw [List.countP_cons_of_neg (by simpa using fun h => hsame h.symm)] at hlate
        rwa [get?_alter_of_ne hsame]

theorem fill_of_awaited (h : Awaited s p (m :: inbox)) (hsame : m.request = p.request) :
    ∃ p', s.accept p m = (none, s, p') ∧ Awaited s p' inbox := by
  obtain ⟨part, hpart, values, hanswered⟩ := h.honest m (List.mem_cons_self ..) hsame
  have hsenders := h.senders
  rw [List.filter_cons_of_pos (by simpa using hsame), List.map_cons, hanswered.sender_eq]
    at hsenders
  have hunanswered := hsenders.mem_iff.mp (List.mem_cons_self ..)
  have hnone := Pull.answer_eq_none h.distinct hpart hunanswered
  have hrest := (hsenders.trans (Pull.unanswered_perm_fill h.distinct hpart hnone values)).cons_inv
  refine ⟨p.fill part.run.shard values, ?_, by rw [Pull.shards_fill]; exact h.distinct, hrest, ?_,
    fun r hr => ?_⟩
  · have hfind := Pull.partOf?_of_mem h.distinct hpart
    obtain ⟨run, answer⟩ := part
    obtain rfl : answer = none := hnone
    rw [accept, if_neg (by simpa using hsame), hanswered.sender_eq, hfind]
    simp only [payload_of_answeredBy hanswered]
  · intro a ha hrequest
    obtain ⟨old, hold, vs, hvs⟩ := h.honest a (List.mem_cons_of_mem _ ha) hrequest
    obtain ⟨new, hnew, hrun⟩ := Pull.exists_part_fill hold part.run.shard values
    exact ⟨new, hnew, vs, by rw [hrun]; exact hvs⟩
  · have hlate := h.late r hr
    rwa [List.countP_cons_of_neg (by simpa [hsame] using fun h => hr h.symm)] at hlate

theorem accept_of_awaited (h : Awaited s p (m :: inbox)) :
    ∃ s' p', s.accept p m = (none, s', p') ∧ Awaited s' p' inbox := by
  by_cases hsame : m.request = p.request
  · obtain ⟨p', haccept, hrest⟩ := fill_of_awaited h hsame
    exact ⟨s, p', haccept, hrest⟩
  · obtain ⟨s', hdiscard, hrest⟩ := discard_of_awaited h hsame
    exact ⟨s', p, by rw [accept, if_pos hsame, hdiscard], hrest⟩

theorem collect_of_awaited (h : Awaited s p inbox) :
    ∃ values s' unread, s.collect p inbox = .done values s' unread := by
  induction inbox generalizing s p with
  | nil =>
    have hmissing : p.missing = 0 := by
      rw [Pull.missing_eq, ← h.senders.length_eq]
      rfl
    exact ⟨p.values, s, [], by rw [collect, if_pos hmissing]⟩
  | cons m rest ih =>
    rw [collect]
    split
    · exact ⟨_, _, _, rfl⟩
    · obtain ⟨s', p', haccept, hrest⟩ := accept_of_awaited h
      obtain ⟨values, s'', unread, hdone⟩ := ih hrest
      exact ⟨values, s'', unread, by simp only [haccept, hdone]⟩

end Awaited

section Fetch

variable {request : RequestId} {inbox : List Message} {r : Run}

/-- What the inbox has to say about a run. -/
def said (τ : ScalarType) (request : RequestId) (inbox : List Message) (r : Run) :
    List τ.Value :=
  match inbox.find? fun a => decide (a.request = request ∧ a.sender = r.shard) with
  | some a => (a.values τ).toOption.getD []
  | none => []

theorem said_of_answeredBy
    (hnodup : ((inbox.filter fun a => decide (a.request = request)).map (·.sender)).Nodup)
    {a : Message} (ha : a ∈ inbox) (hrequest : a.request = request) {values : List τ.Value}
    (hanswered : r.AnsweredBy τ a values) : said τ request inbox r = values := by
  rw [said]
  cases hfind : inbox.find? fun a => decide (a.request = request ∧ a.sender = r.shard) with
  | none =>
    have hnone := List.find?_eq_none.mp hfind a ha
    simp [hrequest, hanswered.sender_eq] at hnone
  | some other =>
    obtain ⟨hother, hsender⟩ : other.request = request ∧ other.sender = r.shard := by
      simpa using List.find?_some hfind
    have hmem {b : Message} (hb : b ∈ inbox) (hrequest : b.request = request) :
        b ∈ inbox.filter fun a => decide (a.request = request) :=
      List.mem_filter.mpr ⟨hb, decide_eq_true hrequest⟩
    obtain rfl := List.inj_on_of_nodup_map hnodup (hmem (List.mem_of_find?_eq_some hfind) hother)
      (hmem ha hrequest) (hsender.trans hanswered.sender_eq.symm)
    simp only [hanswered.values_eq]
    rfl

/-- A complete read says what the inbox says, run by run. -/
theorem values_of_backed {p : Pull τ} (hmissing : p.missing = 0) (hbacked : p.Backed inbox)
    (hnodup : ((inbox.filter fun a => decide (a.request = p.request)).map (·.sender)).Nodup) :
    p.values = (p.parts.map (·.run)).flatMap (said τ p.request inbox) := by
  rw [Pull.values, List.flatMap_map]
  refine List.flatMap_congr fun part hpart => ?_
  rw [Pull.missing, List.countP_eq_zero] at hmissing
  obtain ⟨values, hvalues⟩ := Option.ne_none_iff_exists'.mp (by simpa using hmissing part hpart)
  obtain ⟨a, ha, hrequest, hanswered⟩ := hbacked part hpart values hvalues
  rw [hvalues, Option.getD_some, said_of_answeredBy hnodup ha hrequest hanswered]

end Fetch

/-! ### The whole call -/

section Call

variable {σ : Type} [Courier σ] {s : Session τ} {courier : σ} {keys : List Key} {runs : List Run}
  {inbox : List Message}

/-- Asks the shards, then reads what lies in the inbox or comes in before the silence. -/
def fetch (s : Session τ) (courier : σ) (silence : Silence) (keys : List Key)
    (inbox : List Message) : Outcome (Session τ × σ × List Message) (List τ.Value) :=
  ((s.startPull courier keys).mapState fun (s, courier) => (s, courier, inbox)).bind
    fun p (s, courier, inbox) =>
      (giveUp silence (s.collect p inbox)).mapState fun (s, unread) => (s, courier, unread)

/-- What a read of `keys` that asked the shards of `runs` has made of the messages it used. -/
structure Fetched (s : Session τ) (keys : List Key) (runs : List Run) (used : List Message)
    (values : List τ.Value) : Prop where
  /-- One run for each shard that owns one of the keys. -/
  cut : s.layout.Cut 0 keys runs
  /-- One message with the number of this read from each of these shards, and from no one else. -/
  senders : ((used.filter fun a => decide (a.request = s.numbered.lastRequest)).map (·.sender)).Perm
    (runs.map (·.shard))
  answers : ∀ a ∈ used, a.request = s.numbered.lastRequest →
    ∃ r ∈ runs, ∃ vs, r.AnsweredBy τ a vs
  sourced : Sourced s.layout used s.numbered.lastRequest keys values
  late : ∀ a ∈ used, a.request ≠ s.numbered.lastRequest →
    ∃ n, s.abandoned.get? a.request = some n

/-- One right answer from each shard of `runs`, and no more late ones than are counted on. -/
structure Rightly (s : Session τ) (runs : List Run) (inbox : List Message) : Prop where
  senders : ((inbox.filter fun a => decide (a.request = s.numbered.lastRequest)).map
    (·.sender)).Perm (runs.map (·.shard))
  answers : ∀ a ∈ inbox, a.request = s.numbered.lastRequest →
    ∃ r ∈ runs, ∃ vs, r.AnsweredBy τ a vs
  late : ∀ r, r ≠ s.numbered.lastRequest →
    inbox.countP (fun a => decide (a.request = r)) ≤ (s.abandoned.get? r).getD 0

theorem Rightly.of_perm {inbox' : List Message} (h : s.Rightly runs inbox)
    (hperm : inbox'.Perm inbox) : s.Rightly runs inbox' where
  senders := ((hperm.filter _).map _).trans h.senders
  answers a ha := h.answers a (hperm.mem_iff.mp ha)
  late r hr := by rw [hperm.countP_eq]; exact h.late r hr

/-- The order of the inbox does not matter to what it says. -/
theorem said_of_perm {inbox' : List Message} (hdistinct : (runs.map (·.shard)).Nodup)
    (h : s.Rightly runs inbox) (hperm : inbox'.Perm inbox) {r : Run} (hr : r ∈ runs) :
    said τ s.numbered.lastRequest inbox' r = said τ s.numbered.lastRequest inbox r := by
  obtain ⟨a, ha, hsender⟩ :=
    List.mem_map.mp (h.senders.mem_iff.mpr (List.mem_map_of_mem (f := (·.shard)) hr))
  obtain ⟨hmem, hrequest⟩ := List.mem_filter.mp ha
  have hrequest := of_decide_eq_true hrequest
  obtain ⟨other, hother, values, hanswered⟩ := h.answers a hmem hrequest
  obtain rfl :=
    List.inj_on_of_nodup_map hdistinct hother hr (hanswered.sender_eq.symm.trans hsender)
  have hnodup := h.senders.nodup_iff.mpr hdistinct
  have hnodup' := (h.of_perm hperm).senders.nodup_iff.mpr hdistinct
  rw [said_of_answeredBy hnodup hmem hrequest hanswered,
    said_of_answeredBy hnodup' (hperm.mem_iff.mpr hmem) hrequest hanswered]

theorem fetch_eq_ok {silence : Silence} {values : List τ.Value} {s' : Session τ} {courier' : σ}
    {unread : List Message}
    (h : s.fetch courier silence keys inbox = .ok values (s', courier', unread)) :
    ∃ p asked, s.startPull courier keys = .ok p (asked, courier') ∧
      asked.collect p inbox = .done values s' unread := by
  unfold fetch at h
  cases hstart : s.startPull courier keys with
  | error why state => rw [hstart] at h; cases h
  | fault why => rw [hstart] at h; cases h
  | ok p state =>
    obtain ⟨asked, courier''⟩ := state
    rw [hstart] at h
    simp only [Outcome.mapState, Outcome.bind] at h
    cases hread : asked.collect p inbox with
    | done values' next rest =>
      rw [hread] at h
      cases h
      exact ⟨p, asked, rfl, hread⟩
    | failed why next rest => rw [hread] at h; cases h
    | pending p next => rw [hread] at h; cases h

theorem fetch_of_done {silence : Silence} {p : Pull τ} {asked s' : Session τ} {courier' : σ}
    {values : List τ.Value} {unread : List Message}
    (hstart : s.startPull courier keys = .ok p (asked, courier'))
    (hdone : asked.collect p inbox = .done values s' unread) :
    s.fetch courier silence keys inbox = .ok values (s', courier', unread) := by
  rw [fetch, hstart]
  simp only [Outcome.bind, hdone, giveUp, Outcome.mapState]

/-- A read in a cluster is such a call, on what the inbox holds when no shard moves any more. -/
theorem exists_fetch_of_pull {c c' : Cluster} {h h' : Handle τ} {values : List τ.Value}
    (hpull : c.pull h keys = .ok values (c', h')) :
    ∃ inbox courier' unread, h.session.fetch c.exchange .deadline keys inbox =
      .ok values (h'.session, courier', unread) := by
  unfold Cluster.pull Cluster.startPull at hpull
  cases hstart : h.session.startPull c.exchange keys with
  | error why state => rw [hstart] at hpull; cases hpull
  | fault why => rw [hstart] at hpull; cases hpull
  | ok p state =>
    obtain ⟨asked, exchange⟩ := state
    rw [hstart] at hpull
    simp only [Outcome.mapState, Outcome.bind, Cluster.collect] at hpull
    generalize ({ c with exchange }.settle : Cluster) = settled at hpull
    cases hread : asked.collect p (settled.exchange.queue h.inbox) with
    | done values' next rest =>
      rw [hread] at hpull
      cases hpull
      exact ⟨_, _, _, fetch_of_done hstart hread⟩
    | failed why next rest => rw [hread] at hpull; cases hpull
    | pending p next => rw [hread] at hpull; cases hpull

/-- Asking the shards for no keys asks none. -/
theorem asked_of_startPull {p : Pull τ} {asked : Session τ} {courier' : σ}
    (h : s.startPull courier keys = .ok p (asked, courier')) :
    ∃ runs, s.layout.runs keys = .ok runs ∧ p = asking p.request runs ∧
      asked.abandoned = s.abandoned ∧
      courier' = (Courier.sendAll courier (s.numbered.requests runs)).courier ∧
      (runs = [] ∨ p.request = s.numbered.lastRequest) := by
  rcases startPull_eq_ok h with
    ⟨rfl, rfl, rfl, rfl⟩ | ⟨runs, hruns, -, -, rfl, rfl, rfl⟩
  · exact ⟨[], rfl, rfl, rfl, rfl, Or.inl rfl⟩
  · exact ⟨runs, hruns, rfl, rfl, rfl, Or.inr rfl⟩

theorem fetched_of_fetch {silence : Silence} {values : List τ.Value} {s' : Session τ} {courier' : σ}
    {unread : List Message}
    (h : s.fetch courier silence keys inbox = .ok values (s', courier', unread)) :
    ∃ runs used, s.layout.runs keys = .ok runs ∧
      courier' = (Courier.sendAll courier (s.numbered.requests runs)).courier ∧
      inbox = used ++ unread ∧ s.Fetched keys runs used values := by
  obtain ⟨p, asked, hstart, hdone⟩ := fetch_eq_ok h
  obtain ⟨runs, hruns, hp, habandoned, hcourier, hrequest⟩ := asked_of_startPull hstart
  obtain ⟨used, p', rfl, hheeds, hmissing, rfl⟩ := heeds_of_done hdone
  have hcut := (Layout.cut_of_runs hruns).1
  refine ⟨runs, used, hruns, hcourier, rfl, ?_⟩
  have hstarted : Heard runs p [] := hp ▸ heard_asking p.request runs
  obtain ⟨hheard, hkept, hlate⟩ := heard_of_heeds hcut.distinct hstarted hheeds
  rw [List.nil_append] at hheard
  have hsourced := Pull.sourced_of_backed (hheard.runs_eq.symm ▸ hcut) hmissing hheard.backed
  have hnone : p'.unanswered = [] := List.eq_nil_of_length_eq_zero (p'.missing_eq ▸ hmissing)
  have hsenders := hheard.senders
  rw [hnone, List.append_nil] at hsenders
  rcases hrequest with rfl | hrequest
  · -- Nobody was asked, so nothing was read and the number does not matter.
    have hnothing : used = [] := by
      cases hheeds with
      | nil => rfl
      | cons hwaiting =>
        rw [hp] at hwaiting
        exact absurd rfl hwaiting
    subst hnothing
    obtain rfl : keys = [] := hcut.whole.symm
    have hvalues := List.eq_nil_of_length_eq_zero hsourced.length_eq
    rw [hvalues]
    exact ⟨hcut, List.Perm.nil, by simp, ⟨rfl, fun i hi => absurd hi (Nat.not_lt_zero i)⟩, by simp⟩
  · rw [hkept.request, hrequest] at hsourced hsenders
    have hanswers := hheard.answers
    rw [hkept.request, hrequest] at hanswers
    rw [hrequest, habandoned] at hlate
    exact ⟨hcut, hsenders, hanswers, hsourced, hlate⟩

theorem awaited_of_rightly (hdistinct : (runs.map (·.shard)).Nodup) (h : s.Rightly runs inbox) :
    s.numbered.Awaited (asking s.numbered.lastRequest runs) inbox where
  distinct := by simpa [asking, Function.comp_def] using hdistinct
  senders := by
    rw [unanswered_asking]
    exact h.senders
  honest a ha hrequest := by
    obtain ⟨r, hr, values, hanswered⟩ := h.answers a ha hrequest
    exact ⟨{ run := r }, List.mem_map_of_mem hr, values, hanswered⟩
  late := h.late

theorem fetch_of_rightly (silence : Silence) (hruns : s.layout.runs keys = .ok runs)
    (hroom : keys ≠ [] → s.lastRequest.toNat + 1 ≠ UInt64.size)
    (hsent : (Courier.sendAll courier (s.numbered.requests runs)).failure = none)
    (h : s.Rightly runs inbox) :
    ∃ s' courier' unread, s.fetch courier silence keys inbox =
      .ok (runs.flatMap (said τ s.numbered.lastRequest inbox)) (s', courier', unread) := by
  have hcut := (Layout.cut_of_runs hruns).1
  by_cases hkeys : keys = []
  · subst hkeys
    cases hruns
    exact ⟨s, courier, inbox, fetch_of_done rfl (by cases inbox <;> rfl)⟩
  · have hstart := startPull_of_sent hruns hkeys (hroom hkeys) hsent
    obtain ⟨values, s', unread, hdone⟩ := collect_of_awaited (awaited_of_rightly hcut.distinct h)
    obtain ⟨used, p', rfl, hheeds, hmissing, rfl⟩ := heeds_of_done hdone
    obtain ⟨hheard, hkept, -⟩ := heard_of_heeds hcut.distinct (heard_asking _ runs) hheeds
    have hrequest : p'.request = s.numbered.lastRequest := hkept.request
    have hbacked : p'.Backed (used ++ unread) :=
      hheard.backed.mono fun a ha => List.mem_append_left _ ha
    have hvalues := values_of_backed hmissing hbacked
      (hrequest ▸ h.senders.nodup_iff.mpr hcut.distinct)
    rw [hheard.runs_eq, hrequest] at hvalues
    exact ⟨s', _, unread, hvalues ▸ fetch_of_done hstart hdone⟩

/--
**One right answer from each shard.** A read that returns has used exactly one message with its own
number from each shard it asked and none from anyone else, each an answer to the keys that shard was
asked for; what it returns is what they say, and whatever else it took was late. Conversely, where
the inbox holds one right answer for each shard and no more late ones than are counted on, the read
returns, and the same values in whatever order the messages lie.
-/
theorem one_answer_each (s : Session τ) (courier : σ) (silence : Silence) (keys : List Key)
    (inbox : List Message) :
    (∀ values s' courier' unread,
      s.fetch courier silence keys inbox = .ok values (s', courier', unread) →
      ∃ runs used, s.layout.runs keys = .ok runs ∧
        courier' = (Courier.sendAll courier (s.numbered.requests runs)).courier ∧
        inbox = used ++ unread ∧ s.Fetched keys runs used values) ∧
    (∀ runs, s.layout.runs keys = .ok runs →
      (keys ≠ [] → s.lastRequest.toNat + 1 ≠ UInt64.size) →
      (Courier.sendAll courier (s.numbered.requests runs)).failure = none →
      s.Rightly runs inbox →
      ∃ values, ∀ inbox', inbox'.Perm inbox → ∃ s' courier' unread,
        s.fetch courier silence keys inbox' = .ok values (s', courier', unread)) := by
  refine ⟨fun _ _ _ _ => fetched_of_fetch, fun runs hruns hroom hsent h => ?_⟩
  have hdistinct := (Layout.cut_of_runs hruns).1.distinct
  refine ⟨runs.flatMap (said τ s.numbered.lastRequest inbox), fun inbox' hperm => ?_⟩
  obtain ⟨s', courier', unread, hfetch⟩ :=
    fetch_of_rightly silence hruns hroom hsent (h.of_perm hperm)
  rw [List.flatMap_congr fun r hr => said_of_perm hdistinct h hperm hr] at hfetch
  exact ⟨s', courier', unread, hfetch⟩

end Call

/-- Worker 8 at a table of two shards, still owed two answers to the second of its three reads. -/
def owed : Session .integer :=
  { worker := 8, table := 0, layout := ⟨_, Layout.wellFormed_halves⟩, lastRequest := 3
    abandoned := .insert .empty 2 2 }

/-- What shard 2 says, and two late answers, before what shard 1 says. -/
def jumbled : List Message :=
  [{ op := .response, sender := 1, receiver := 8, table := 0, request := 2 },
    { op := .response, sender := 2, receiver := 8, table := 0, request := 4
      blocks := [.keys [6], .integers [30]] },
    { op := .response, sender := 2, receiver := 8, table := 0, request := 2 },
    { op := .response, sender := 1, receiver := 8, table := 0, request := 4
      blocks := [.keys [1, 4], .integers [10, 20]] }]

theorem rightly_jumbled : owed.Rightly [⟨1, 0, [1, 4]⟩, ⟨2, 2, [6]⟩] jumbled where
  senders := by decide
  answers a ha hrequest := by
    simp only [jumbled, List.mem_cons, List.not_mem_nil, or_false] at ha
    rcases ha with rfl | rfl | rfl | rfl
    · cases hrequest
    · exact ⟨_, List.mem_cons_of_mem _ (List.mem_cons_self ..), [30], rfl, rfl, rfl, rfl⟩
    · cases hrequest
    · exact ⟨_, List.mem_cons_self .., [10, 20], rfl, rfl, rfl, rfl⟩
  late r hr := by
    by_cases htwo : r = 2
    · subst htwo
      decide
    · have hfour : r ≠ 4 := hr
      simp [jumbled, Ne.symm htwo, Ne.symm hfour]

/-- Two shards and two late answers: in every order the values are those of the batch. -/
theorem one_answer_each_jumbled :
    (∃ used unread, jumbled = used ++ unread ∧
      owed.Fetched [1, 4, 6] [⟨1, 0, [1, 4]⟩, ⟨2, 2, [6]⟩] used [10, 20, 30]) ∧
    ∀ inbox', inbox'.Perm jumbled → ∃ s' courier' unread,
      owed.fetch ({} : Outbox) .deadline [1, 4, 6] inbox' =
        .ok [10, 20, 30] (s', courier', unread) := by
  obtain ⟨hsound, hcomplete⟩ := one_answer_each owed ({} : Outbox) .deadline [1, 4, 6] jumbled
  have hruns : owed.layout.runs [1, 4, 6] = .ok [⟨1, 0, [1, 4]⟩, ⟨2, 2, [6]⟩] := rfl
  obtain ⟨values, hvalues⟩ := hcomplete _ hruns (fun _ => by decide) rfl rightly_jumbled
  obtain ⟨s', courier', unread, hfetch⟩ := hvalues jumbled (List.Perm.refl _)
  obtain ⟨runs, used, hsame, -, hused, hfetched⟩ := hsound _ _ _ _ hfetch
  obtain rfl := Except.ok.inj (hruns.symm.trans hsame)
  have hvalue : values = [10, 20, 30] := by
    have hrun := hfetch.symm
    rw [show owed.fetch ({} : Outbox) .deadline [1, 4, 6] jumbled =
      .ok [10, 20, 30] (_, _, _) from rfl] at hrun
    cases hrun
    rfl
  subst hvalue
  exact ⟨⟨used, unread, hused, hfetched⟩, hvalues⟩

end Session

end ParamServer
