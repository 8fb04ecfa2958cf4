import ParamServer.Proofs.Lists
import ParamServer.Proofs.Session.Pull
import ParamServer.Proofs.Slice
import ParamServer.Proofs.SortedMap

/-!
# What a session is owed

A session counts answers that are still to come: those to the read under way by its parts, those to
reads that were given up in `abandoned`. `Owes` says that it counts right. Each answer that is still
to come is a read that some shard has yet to answer, or lies in the inbox unread.

Honest shards then cannot be misjudged: whatever lies in the inbox is an answer that the session is
waiting for, or one that it counts down (`accept_of_owes`), and this is so for as much of the inbox
as it reads (`collect_of_owes`).
-/

namespace ParamServer

variable {τ : ScalarType}

namespace Session

/-- The answers to request `r` that a read under way waits for. -/
def due (pull : Option (Pull τ)) (r : RequestId) : Nat :=
  match pull with
  | none => 0
  | some p => if p.request = r then p.missing else 0

/-- The read under way, with what its shards have been asked and what they have answered. -/
structure Current (s : Session τ) (p : Pull τ) (out inbox : List Message) : Prop where
  request_eq : p.request = s.lastRequest
  fresh : s.abandoned.get? p.request = none
  distinct : (p.parts.map (·.run.shard)).Nodup
  shards : ((out.filter fun g => decide (g.request = p.request)).map (·.receiver) ++
    (inbox.filter fun a => decide (a.request = p.request)).map (·.sender)).Perm p.unanswered
  asked : ∀ g ∈ out, g.request = p.request →
    ∃ part ∈ p.parts, g.receiver = part.run.shard ∧ g.keys = .ok part.run.keys
  honest : ∀ a ∈ inbox, a.request = p.request →
    ∃ part ∈ p.parts, ∃ values, part.run.AnsweredBy τ a values

/-- The session counts right: `out` are its reads that no shard has answered yet, and `inbox` is
what it has not read. -/
structure Owes (s : Session τ) (pull : Option (Pull τ)) (out inbox : List Message) : Prop where
  positive : ∀ r, s.abandoned.get? r ≠ some 0
  counts : ∀ r, (s.abandoned.get? r).getD 0 + due pull r =
    out.countP (fun g => decide (g.request = r)) + inbox.countP fun a => decide (a.request = r)
  outBound : ∀ g ∈ out, g.request ≤ s.lastRequest
  inboxBound : ∀ a ∈ inbox, a.request ≤ s.lastRequest
  current : ∀ p, pull = some p → p.parts ≠ [] → s.Current p out inbox

/-- What reading a message leaves as it was. -/
structure Kept (s s' : Session τ) (p p' : Pull τ) : Prop where
  session : s' = { s with abandoned := s'.abandoned }
  shrunk : ∀ r, s.abandoned.get? r = none → s'.abandoned.get? r = none
  request : p'.request = p.request
  runs : p'.parts.map (·.run) = p.parts.map (·.run)

theorem Kept.refl (s : Session τ) (p : Pull τ) : Kept s s p p := ⟨rfl, fun _ h => h, rfl, rfl⟩

theorem Kept.trans {s s' s'' : Session τ} {p p' p'' : Pull τ} (h : Kept s s' p p')
    (h' : Kept s' s'' p' p'') : Kept s s'' p p'' where
  session := by rw [h'.session, h.session]
  shrunk r hr := h'.shrunk r (h.shrunk r hr)
  request := h'.request.trans h.request
  runs := h'.runs.trans h.runs

theorem Kept.shards {s s' : Session τ} {p p' : Pull τ} (h : Kept s s' p p') :
    p.parts.map (·.run.shard) = p'.parts.map (·.run.shard) := by
  have hruns := congrArg (List.map (·.shard)) h.runs
  simpa only [List.map_map, Function.comp_def] using hruns.symm

theorem payload_of_answeredBy {r : Run} {a : Message} {values : List τ.Value}
    (h : r.AnsweredBy τ a values) : payload τ r a = .ok values := by
  simp [payload, h.keys_eq, h.values_eq, h.length_eq, bind, Except.bind, pure, Except.pure]

/-! ### Reading one message -/

section Accept

variable {s : Session τ} {p : Pull τ} {out inbox : List Message} {m : Message}

theorem get?_alter_of_ne {α : Type} {abandoned : SortedMap RequestId α} {r other : RequestId}
    {f : Option α → Option α} (h : r ≠ other) :
    (abandoned.alter other f).get? r = abandoned.get? r := by
  rw [SortedMap.get?_alter, if_neg fun hrank => h (rank_inj hrank)]

/-- An answer to an earlier read is one that the session counts on throwing away. -/
theorem discard_of_owes (h : s.Owes (some p) out (m :: inbox)) (hother : m.request ≠ p.request) :
    ∃ s', s.discard m = .ok s' ∧ s'.Owes (some p) out inbox ∧ Kept s s' p p := by
  have hdue : due (some p) m.request = 0 := if_neg hother.symm
  have hcount := h.counts m.request
  rw [hdue, List.countP_cons_of_pos (by simp)] at hcount
  obtain ⟨n, hn⟩ : ∃ n, s.abandoned.get? m.request = some n := by
    cases hget : s.abandoned.get? m.request with
    | none =>
      rw [hget, Option.getD_none] at hcount
      omega
    | some n => exact ⟨n, rfl⟩
  rw [hn, Option.getD_some] at hcount
  let left : Option Nat := if n ≤ 1 then none else some (n - 1)
  have hleft : left.getD 0 = n - 1 ∧ left ≠ some 0 := by
    simp only [left]
    split
    · exact ⟨by rw [Option.getD_none]; omega, by simp⟩
    · exact ⟨rfl, by simp; omega⟩
  let s' : Session τ := { s with abandoned := s.abandoned.alter m.request fun _ => left }
  have hsame : ∀ r, r ≠ m.request → s'.abandoned.get? r = s.abandoned.get? r :=
    fun r hr => get?_alter_of_ne hr
  have hnow : s'.abandoned.get? m.request = left := by
    simp only [s', SortedMap.get?_alter, if_pos]
  refine ⟨s', by rw [discard, hn], ⟨?_, ?_, h.outBound, ?_, ?_⟩, ⟨rfl, ?_, rfl, rfl⟩⟩
  · intro r
    by_cases hr : r = m.request
    · rw [hr, hnow]
      exact hleft.2
    · rw [hsame r hr]
      exact h.positive r
  · intro r
    by_cases hr : r = m.request
    · rw [hr, hnow, hleft.1, hdue]
      omega
    · have hcounts := h.counts r
      rw [List.countP_cons_of_neg (by simpa using fun h => hr h.symm)] at hcounts
      rw [hsame r hr]
      exact hcounts
  · exact fun a ha => h.inboxBound a (List.mem_cons_of_mem _ ha)
  · intro q hq hparts
    obtain rfl := Option.some.inj hq
    have hcurrent := h.current p rfl hparts
    have hshards := hcurrent.shards
    rw [List.filter_cons_of_neg (by simpa using hother)] at hshards
    exact {
      request_eq := hcurrent.request_eq
      fresh := by rw [hsame _ hother.symm]; exact hcurrent.fresh
      distinct := hcurrent.distinct
      shards := hshards
      asked := hcurrent.asked
      honest := fun a ha => hcurrent.honest a (List.mem_cons_of_mem _ ha) }
  · intro r hr
    by_cases hrm : r = m.request
    · rw [hrm, hn] at hr
      cases hr
    · rw [hsame r hrm]
      exact hr

/-- An answer to the read under way is the one that its shard still owes. -/
theorem current_fill (h : s.Current p out (m :: inbox)) (hsame : m.request = p.request) :
    ∃ part ∈ p.parts, part.answer = none ∧ ∃ values, part.run.AnsweredBy τ m values ∧
      s.Current (p.fill part.run.shard values) out inbox := by
  obtain ⟨part, hpart, values, hanswered⟩ := h.honest m (List.mem_cons_self ..) hsame
  have hshards := h.shards
  rw [List.filter_cons_of_pos (by simpa using hsame), List.map_cons] at hshards
  have hperm := List.perm_middle.symm.trans hshards
  rw [hanswered.sender_eq] at hperm
  have hunanswered : part.run.shard ∈ p.unanswered := hperm.mem_iff.mp (List.mem_cons_self ..)
  have hnone := Pull.answer_eq_none h.distinct hpart hunanswered
  have hrest := (hperm.trans (Pull.unanswered_perm_fill h.distinct hpart hnone values)).cons_inv
  refine ⟨part, hpart, hnone, values, hanswered, h.request_eq, h.fresh,
    by rw [Pull.shards_fill]; exact h.distinct, hrest, ?_, ?_⟩
  · intro g hg hrequest
    obtain ⟨old, hold, hreceiver, hkeys⟩ := h.asked g hg hrequest
    obtain ⟨new, hnew, hrun⟩ := Pull.exists_part_fill hold part.run.shard values
    exact ⟨new, hnew, by rw [hrun]; exact hreceiver, by rw [hrun]; exact hkeys⟩
  · intro a ha hrequest
    obtain ⟨old, hold, vs, hvs⟩ := h.honest a (List.mem_cons_of_mem _ ha) hrequest
    obtain ⟨new, hnew, hrun⟩ := Pull.exists_part_fill hold part.run.shard values
    exact ⟨new, hnew, vs, by rw [hrun]; exact hvs⟩

theorem fill_of_owes (h : s.Owes (some p) out (m :: inbox)) (hsame : m.request = p.request)
    (hmissing : p.missing ≠ 0) :
    ∃ part ∈ p.parts, ∃ values, part.run.AnsweredBy τ m values ∧
      s.accept p m = (none, s, p.fill part.run.shard values) ∧
      s.Owes (some (p.fill part.run.shard values)) out inbox := by
  have hcurrent := h.current p rfl (Pull.parts_ne_nil hmissing)
  obtain ⟨part, hpart, hnone, values, hanswered, hfilled⟩ := current_fill hcurrent hsame
  have hfind := Pull.partOf?_of_mem hcurrent.distinct hpart
  refine ⟨part, hpart, values, hanswered, ?_, h.positive, ?_, h.outBound, ?_, ?_⟩
  · obtain ⟨run, answer⟩ := part
    obtain rfl : answer = none := hnone
    rw [accept, if_neg (by simpa using hsame), hanswered.sender_eq, hfind]
    simp only [payload_of_answeredBy hanswered]
  · intro r
    have hcounts := h.counts r
    by_cases hr : p.request = r
    · have hlength := hfilled.shards.length_eq
      simp only [List.length_append, List.length_map, ← List.countP_eq_length_filter] at hlength
      have hfresh := hcurrent.fresh
      rw [hr] at hfresh
      change _ + _ = (p.fill part.run.shard values).unanswered.length at hlength
      have hdue : due (some (p.fill part.run.shard values)) r =
          (p.fill part.run.shard values).unanswered.length := by
        rw [due, if_pos (by exact hr), Pull.missing_eq]
      rw [hfresh, Option.getD_none, hdue, ← hlength, ← hr]
      exact Nat.zero_add _
    · have hdue : due (some (p.fill part.run.shard values)) r = due (some p) r := by
        rw [due, due, if_neg hr, if_neg (by exact hr)]
      rw [List.countP_cons_of_neg (by simpa [hsame] using hr)] at hcounts
      rw [hdue]
      exact hcounts
  · exact fun a ha => h.inboxBound a (List.mem_cons_of_mem _ ha)
  · intro q hq _
    obtain rfl := Option.some.inj hq
    exact hfilled

/-- **One message.** Nothing is wrong with it. -/
theorem accept_of_owes (h : s.Owes (some p) out (m :: inbox)) (hmissing : p.missing ≠ 0)
    {ms : List Message} (hbacked : p.Backed ms) :
    ∃ s' p', s.accept p m = (none, s', p') ∧ s'.Owes (some p') out inbox ∧ Kept s s' p p' ∧
      p'.Backed (ms ++ [m]) := by
  have hmore := hbacked.mono fun k (hk : k ∈ ms) => List.mem_append_left [m] hk
  by_cases hsame : m.request = p.request
  · obtain ⟨part, hpart, values, hanswered, haccept, howes⟩ := fill_of_owes h hsame hmissing
    have hdistinct := (h.current p rfl (Pull.parts_ne_nil hmissing)).distinct
    exact ⟨s, _, haccept, howes, ⟨rfl, fun _ hr => hr, rfl, Pull.runs_fill ..⟩,
      hmore.fill hdistinct hpart (by simp) hsame hanswered⟩
  · obtain ⟨s', hdiscard, howes, hkept⟩ := discard_of_owes h hsame
    exact ⟨s', p, by rw [accept, if_pos hsame, hdiscard], howes, hkept, hmore⟩

end Accept

/-- **As much of the inbox as it likes.** The session reads `front`, and may stop before its end
when the read is complete. -/
theorem collect_of_owes {s : Session τ} {p : Pull τ} {out front rest : List Message}
    (h : s.Owes (some p) out (front ++ rest)) {ms : List Message} (hbacked : p.Backed ms) :
    (∃ s' p' used unread, front = used ++ unread ∧ s.collect p front = .done p'.values s' unread ∧
      p'.missing = 0 ∧ s'.Owes (some p') out (unread ++ rest) ∧ Kept s s' p p' ∧
      p'.Backed (ms ++ used)) ∨
    ∃ s' p', s.collect p front = .pending p' s' ∧ p'.missing ≠ 0 ∧
      s'.Owes (some p') out rest ∧ Kept s s' p p' ∧ p'.Backed (ms ++ front) := by
  induction front generalizing s p ms with
  | nil =>
    rw [collect]
    have hsame : p.Backed (ms ++ []) := by rwa [List.append_nil]
    by_cases hmissing : p.missing = 0
    · rw [if_pos hmissing]
      exact Or.inl ⟨s, p, [], [], rfl, rfl, hmissing, h, Kept.refl s p, hsame⟩
    · rw [if_neg hmissing]
      exact Or.inr ⟨s, p, rfl, hmissing, h, Kept.refl s p, hsame⟩
  | cons m front ih =>
    rw [collect]
    by_cases hmissing : p.missing = 0
    · rw [if_pos hmissing]
      exact Or.inl ⟨s, p, [], m :: front, rfl, rfl, hmissing, h, Kept.refl s p,
        by rwa [List.append_nil]⟩
    · rw [if_neg hmissing]
      obtain ⟨s', p', haccept, howes, hkept, hbacked'⟩ := accept_of_owes h hmissing hbacked
      simp only [haccept]
      rcases ih howes hbacked' with
        ⟨s'', p'', used, unread, rfl, hdone, hzero, howes', hkept', hbacked''⟩ |
        ⟨s'', p'', hpending, hleft, howes', hkept', hbacked''⟩
      · rw [List.append_assoc] at hbacked''
        exact Or.inl ⟨s'', p'', m :: used, unread, rfl, hdone, hzero, howes',
          hkept.trans hkept', hbacked''⟩
      · rw [List.append_assoc] at hbacked''
        exact Or.inr ⟨s'', p'', hpending, hleft, howes', hkept.trans hkept', hbacked''⟩

/-! ### Beginning and ending a read -/

/-- A read that ends, complete or not, leaves behind what it is still owed. -/
theorem owes_abandon {s : Session τ} {p : Pull τ} {out inbox : List Message}
    (h : s.Owes (some p) out inbox) : (s.abandon p).Owes none out inbox := by
  unfold abandon
  by_cases hmissing : p.missing = 0
  · rw [if_pos hmissing]
    refine ⟨h.positive, ?_, h.outBound, h.inboxBound, by simp⟩
    intro r
    rw [← h.counts r, due, due, hmissing, ite_self]
  · rw [if_neg hmissing]
    have hfresh := (h.current p rfl (Pull.parts_ne_nil hmissing)).fresh
    refine ⟨?_, ?_, h.outBound, h.inboxBound, by simp⟩
    · intro r
      rw [SortedMap.get?_insert]
      split
      · simpa using hmissing
      · exact h.positive r
    · intro r
      have hcounts := h.counts r
      rw [SortedMap.get?_insert]
      by_cases hr : p.request = r
      · subst hr
        rw [due, if_pos rfl, hfresh, Option.getD_none] at hcounts
        rw [if_pos rfl, Option.getD_some, due]
        omega
      · rw [due, if_neg hr] at hcounts
        rw [if_neg fun hrank => hr (rank_inj hrank).symm, due]
        exact hcounts

theorem get?_abandon {s : Session τ} {p : Pull τ} {r : RequestId} {n : Nat}
    (h : (s.abandon p).abandoned.get? r = some n) :
    r = p.request ∨ s.abandoned.get? r = some n := by
  unfold abandon at h
  split at h
  · exact Or.inr h
  · rw [SortedMap.get?_insert] at h
    split at h
    case isTrue hrank => exact Or.inl (rank_inj hrank)
    case isFalse => exact Or.inr h

theorem abandon_eq (s : Session τ) (p : Pull τ) :
    s.abandon p = { s with abandoned := (s.abandon p).abandoned } := by
  unfold abandon
  split <;> rfl

theorem owes_of_done {s : Session τ} {p : Pull τ} {out inbox : List Message}
    (h : s.Owes (some p) out inbox) (hmissing : p.missing = 0) : s.Owes none out inbox := by
  have habandon := owes_abandon h
  rwa [abandon, if_pos hmissing] at habandon

/-- A session that all shards have answered need only read what there is. -/
theorem collect_of_answered {s : Session τ} {p : Pull τ} {inbox : List Message}
    (h : s.Owes (some p) [] inbox) (hsettled : ∀ r, s.abandoned.get? r = none) {ms : List Message}
    (hbacked : p.Backed ms) :
    ∃ s' p', s.collect p inbox = .done p'.values s' [] ∧ p'.missing = 0 ∧ Kept s s' p p' ∧
      p'.Backed (ms ++ inbox) := by
  have hread : s.Owes (some p) [] (inbox ++ []) := by rwa [List.append_nil]
  rcases collect_of_owes hread hbacked with
    ⟨s', p', used, unread, rfl, hdone, hzero, howes, hkept, hbacked'⟩ |
    ⟨s', p', -, hmissing, howes, -, -⟩
  · -- Nothing is left unread, since nothing was owed but this.
    have hnil : unread = [] := by
      rw [List.append_nil] at howes
      cases unread with
      | nil => rfl
      | cons a rest =>
        have hcounts := (owes_of_done howes hzero).counts a.request
        rw [hkept.shrunk _ (hsettled _), List.countP_cons_of_pos (by simp)] at hcounts
        simp [due] at hcounts
    subst hnil
    rw [List.append_nil] at hdone ⊢
    exact ⟨s', p', hdone, hzero, hkept, hbacked'⟩
  · have hcounts := howes.counts p'.request
    rw [due, if_pos rfl] at hcounts
    simp only [List.countP_nil] at hcounts
    omega

def numbered (s : Session τ) : Session τ := { s with lastRequest := s.lastRequest + 1 }

theorem toNat_add_one {n : UInt64} (h : n.toNat + 1 ≠ UInt64.size) :
    (n + 1).toNat = n.toNat + 1 := by
  have hsize := n.toNat_lt_size
  rw [UInt64.toNat_add, UInt64.toNat_one]
  exact Nat.mod_eq_of_lt (by simp only [UInt64.size] at *; omega)

theorem lt_add_one {n : UInt64} (h : n.toNat + 1 ≠ UInt64.size) : n < n + 1 := by
  rw [UInt64.lt_iff_toNat_lt, toNat_add_one h]
  omega

theorem lt_numbered {s : Session τ} (h : s.lastRequest.toNat + 1 ≠ UInt64.size) :
    s.lastRequest < s.numbered.lastRequest :=
  lt_add_one h

/-- The read that has asked the shards of `runs`. -/
def asking (request : RequestId) (runs : List Run) : Pull τ :=
  ⟨request, runs.map ({ run := · })⟩

theorem unanswered_asking (request : RequestId) (runs : List Run) :
    (asking request runs : Pull τ).unanswered = runs.map (·.shard) := by
  simp [asking, Pull.unanswered, List.filter_map, Function.comp_def]

theorem runs_asking (request : RequestId) (runs : List Run) :
    (asking request runs : Pull τ).parts.map (·.run) = runs := by
  simp [asking, Function.comp_def]

theorem backed_asking (request : RequestId) (runs : List Run) (ms : List Message) :
    (asking request runs : Pull τ).Backed ms := by
  intro part hpart values hvalues
  obtain ⟨run, -, rfl⟩ := List.mem_map.mp hpart
  cases hvalues

theorem request_of_requests {s : Session τ} {runs : List Run} :
    ∀ g ∈ s.requests runs, g.request = s.lastRequest := by
  intro g hg
  obtain ⟨run, -, rfl⟩ := List.mem_map.mp hg
  rfl

/-- A read of nothing asks nobody. -/
theorem owes_nothing {s : Session τ} {out inbox : List Message} (h : s.Owes none out inbox)
    (request : RequestId) : s.Owes (some ⟨request, []⟩) out inbox where
  positive := h.positive
  counts r := by
    rw [← h.counts r, due, due]
    simp [Pull.missing]
  outBound := h.outBound
  inboxBound := h.inboxBound
  current p hp hparts := by
    obtain rfl := Option.some.inj hp
    exact absurd rfl hparts

section Ask

variable {s : Session τ} {out inbox : List Message} (h : s.Owes none out inbox)
  (hroom : s.lastRequest.toNat + 1 ≠ UInt64.size)

include h hroom

theorem lt_numbered_of_owes : ∀ m ∈ out ++ inbox, m.request < s.numbered.lastRequest := by
  intro m hm
  apply UInt64.lt_of_le_of_lt ?_ (lt_numbered hroom)
  rcases List.mem_append.mp hm with hm | hm
  · exact h.outBound m hm
  · exact h.inboxBound m hm

theorem unused_of_owes :
    out.countP (fun g => decide (g.request = s.numbered.lastRequest)) = 0 ∧
    inbox.countP (fun a => decide (a.request = s.numbered.lastRequest)) = 0 ∧
    s.numbered.abandoned.get? s.numbered.lastRequest = none := by
  have hnone :
      (out ++ inbox).countP (fun m => decide (m.request = s.numbered.lastRequest)) = 0 := by
    rw [List.countP_eq_zero]
    intro m hm
    simpa using UInt64.ne_of_lt (lt_numbered_of_owes h hroom m hm)
  rw [List.countP_append, Nat.add_eq_zero_iff] at hnone
  refine ⟨hnone.1, hnone.2, ?_⟩
  have hcounts := h.counts s.numbered.lastRequest
  rw [hnone.1, hnone.2, due] at hcounts
  cases hget : s.abandoned.get? s.numbered.lastRequest with
  | none => exact hget
  | some n =>
    rw [hget, Option.getD_some] at hcounts
    have hzero : n = 0 := by omega
    exact absurd (hget.trans (congrArg some hzero)) (h.positive s.numbered.lastRequest)

variable {runs : List Run} (hdistinct : (runs.map (·.shard)).Nodup)

include hdistinct

theorem current_of_ask : s.numbered.Current (asking s.numbered.lastRequest runs : Pull τ)
    (out ++ s.numbered.requests runs) inbox := by
  have hold := lt_numbered_of_owes h hroom
  refine ⟨rfl, (unused_of_owes h hroom).2.2,
    by simpa [asking, Function.comp_def] using hdistinct, ?_, ?_, ?_⟩
  · have hout : (out.filter fun g => decide (g.request = s.numbered.lastRequest)) = [] :=
      filter_of_forall_ne fun g hg => UInt64.ne_of_lt (hold g (List.mem_append_left _ hg))
    have hinbox : (inbox.filter fun a => decide (a.request = s.numbered.lastRequest)) = [] :=
      filter_of_forall_ne fun a ha => UInt64.ne_of_lt (hold a (List.mem_append_right _ ha))
    have hnew : ((s.numbered.requests runs).filter fun g =>
        decide (g.request = s.numbered.lastRequest)) = s.numbered.requests runs :=
      filter_of_forall_eq request_of_requests
    have hreceivers : (s.numbered.requests runs).map (·.receiver) = runs.map (·.shard) := by
      rw [requests, List.map_map]
      rfl
    change (((out ++ s.numbered.requests runs).filter fun g =>
        decide (g.request = s.numbered.lastRequest)).map (·.receiver) ++
      (inbox.filter fun a => decide (a.request = s.numbered.lastRequest)).map (·.sender)).Perm _
    rw [unanswered_asking, List.filter_append, hout, hinbox, hnew, List.nil_append, hreceivers,
      List.map_nil, List.append_nil]
  · intro g hg hrequest
    rcases List.mem_append.mp hg with hg | hg
    · exact absurd hrequest (UInt64.ne_of_lt (hold g (List.mem_append_left _ hg)))
    · obtain ⟨run, hrun, rfl⟩ := List.mem_map.mp hg
      exact ⟨{ run }, List.mem_map_of_mem hrun, rfl, rfl⟩
  · intro a ha hrequest
    exact absurd hrequest (UInt64.ne_of_lt (hold a (List.mem_append_right _ ha)))

theorem owes_ask : s.numbered.Owes (some (asking s.numbered.lastRequest runs))
    (out ++ s.numbered.requests runs) inbox := by
  have hold := lt_numbered_of_owes h hroom
  obtain ⟨hnoneOut, hnoneInbox, hfresh⟩ := unused_of_owes h hroom
  refine ⟨h.positive, ?_, ?_, ?_, ?_⟩
  · intro r
    rw [List.countP_append]
    by_cases hr : s.numbered.lastRequest = r
    · subst hr
      have hall : (s.numbered.requests runs).countP
          (fun g => decide (g.request = s.numbered.lastRequest)) = runs.length := by
        rw [List.countP_eq_length.mpr, requests, List.length_map]
        exact fun g hg => decide_eq_true (request_of_requests g hg)
      rw [hfresh, hnoneOut, hnoneInbox, hall, due, if_pos (by rfl), Pull.missing_eq,
        unanswered_asking, List.length_map]
      simp
    · have hzero : (s.numbered.requests runs).countP (fun g => decide (g.request = r)) = 0 := by
        rw [List.countP_eq_zero]
        intro g hg
        simpa [request_of_requests g hg] using hr
      rw [hzero, due, if_neg (by exact hr)]
      exact h.counts r
  · intro g hg
    rcases List.mem_append.mp hg with hg | hg
    · exact UInt64.le_of_lt (hold g (List.mem_append_left _ hg))
    · rw [request_of_requests g hg]
      exact UInt64.le_refl _
  · exact fun a ha => UInt64.le_of_lt (hold a (List.mem_append_right _ ha))
  · intro p hp _
    obtain rfl := Option.some.inj hp
    exact current_of_ask h hroom hdistinct

end Ask

/-! ### What the shards do -/

/-- An answer to what the read asks for, from the shard that was asked. -/
structure IsAnswer (τ : ScalarType) (g a : Message) : Prop where
  sender_eq : a.sender = g.receiver
  request_eq : a.request = g.request
  keys_eq : a.keys = g.keys
  fits : ∀ keys, g.keys = .ok keys → ∃ values, a.values τ = .ok values ∧
    values.length = keys.length

theorem isAnswer_answerFrom {g : Message} {range : Interval} (h : g.ReadsIn range)
    (store : Store τ) : IsAnswer τ g (g.answerFrom store) where
  sender_eq := rfl
  request_eq := rfl
  keys_eq := h.keys_eq.symm
  fits keys hkeys := by
    obtain rfl := Except.ok.inj (h.keys_eq.symm.trans hkeys)
    exact ⟨_, Message.values_eq_ok rfl, List.length_map ..⟩

theorem owes_congr {s s' : Session τ} {pull : Option (Pull τ)} {out inbox : List Message}
    (h : s.Owes pull out inbox) (habandoned : s'.abandoned = s.abandoned)
    (hlast : s'.lastRequest = s.lastRequest) : s'.Owes pull out inbox where
  positive := by rw [habandoned]; exact h.positive
  counts := by rw [habandoned]; exact h.counts
  outBound := by rw [hlast]; exact h.outBound
  inboxBound := by rw [hlast]; exact h.inboxBound
  current p hp hparts := by
    have hcurrent := h.current p hp hparts
    exact {
      request_eq := by rw [hlast]; exact hcurrent.request_eq
      fresh := by rw [habandoned]; exact hcurrent.fresh
      distinct := hcurrent.distinct
      shards := hcurrent.shards
      asked := hcurrent.asked
      honest := hcurrent.honest }

theorem owes_of_perm {s : Session τ} {pull : Option (Pull τ)} {out out' inbox inbox' : List Message}
    (h : s.Owes pull out inbox) (hout : out.Perm out') (hinbox : inbox.Perm inbox') :
    s.Owes pull out' inbox' where
  positive := h.positive
  counts r := by rw [h.counts r, hout.countP_eq, hinbox.countP_eq]
  outBound g hg := h.outBound g (hout.mem_iff.mpr hg)
  inboxBound a ha := h.inboxBound a (hinbox.mem_iff.mpr ha)
  current p hp hparts := by
    have hcurrent := h.current p hp hparts
    exact {
      request_eq := hcurrent.request_eq
      fresh := hcurrent.fresh
      distinct := hcurrent.distinct
      shards := (((hout.symm.filter _).map _).append ((hinbox.symm.filter _).map _)).trans
        hcurrent.shards
      asked := fun g hg => hcurrent.asked g (hout.mem_iff.mpr hg)
      honest := fun a ha => hcurrent.honest a (hinbox.mem_iff.mpr ha) }

theorem owes_answer {s : Session τ} {pull : Option (Pull τ)} {g a : Message}
    {out inbox : List Message} (h : s.Owes pull (g :: out) inbox) (ha : IsAnswer τ g a) :
    s.Owes pull out (inbox ++ [a]) where
  positive := h.positive
  counts r := by
    rw [h.counts r, List.countP_cons, List.countP_append, List.countP_singleton, ha.request_eq]
    omega
  outBound g hg := h.outBound g (List.mem_cons_of_mem _ hg)
  inboxBound b hb := by
    rcases List.mem_append.mp hb with hb | hb
    · exact h.inboxBound b hb
    · rw [List.mem_singleton.mp hb, ha.request_eq]
      exact h.outBound g (List.mem_cons_self ..)
  current p hp hparts := by
    have hcurrent := h.current p hp hparts
    refine ⟨hcurrent.request_eq, hcurrent.fresh, hcurrent.distinct, ?_,
      fun g hg => hcurrent.asked g (List.mem_cons_of_mem _ hg), ?_⟩
    · refine List.Perm.trans ?_ hcurrent.shards
      rw [List.filter_append, List.map_append]
      by_cases hrequest : g.request = p.request
      · have hanswer : a.request = p.request := ha.request_eq.trans hrequest
        simp only [List.filter_cons, hrequest, hanswer, decide_true, if_true, List.filter_nil,
          List.map_cons, List.map_nil, ha.sender_eq]
        rw [← List.append_assoc]
        exact List.perm_append_singleton ..
      · have hanswer : a.request ≠ p.request := fun h => hrequest (ha.request_eq.symm.trans h)
        simp [hrequest, hanswer]
    · intro b hb hrequest
      rcases List.mem_append.mp hb with hb | hb
      · exact hcurrent.honest b hb hrequest
      · obtain rfl := List.mem_singleton.mp hb
        obtain ⟨part, hpart, hreceiver, hkeys⟩ :=
          hcurrent.asked g (List.mem_cons_self ..) (ha.request_eq.symm.trans hrequest)
        obtain ⟨values, hvalues, hlength⟩ := ha.fits _ hkeys
        exact ⟨part, hpart, values, ha.sender_eq.trans hreceiver, ha.keys_eq.trans hkeys, hvalues,
          hlength⟩

theorem owes_answers {s : Session τ} {pull : Option (Pull τ)} {gs out inbox : List Message}
    {answer : Message → Message} (h : s.Owes pull (gs ++ out) inbox)
    (hanswer : ∀ g ∈ gs, IsAnswer τ g (answer g)) :
    s.Owes pull out (inbox ++ gs.map answer) := by
  induction gs generalizing inbox with
  | nil => simpa using h
  | cons g rest ih =>
    have hnext := ih (owes_answer h (hanswer g (List.mem_cons_self ..)))
      fun g hg => hanswer g (List.mem_cons_of_mem _ hg)
    rwa [List.append_assoc] at hnext

end Session

end ParamServer
