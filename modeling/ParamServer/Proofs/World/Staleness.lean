import Mathlib.Data.List.Perm.Subperm
import ParamServer.Proofs.World.Orderly

/-!
# How stale a read can be

Every part of an answer was read off a state of its shard that all updates from more than the
staleness before the reader's clock had reached. At the moment of the answer the minimum is near
enough to the reader's clock; the minimum is a lower bound for whatever the shard has yet to handle,
since each worker's messages come in the order of its clocks; so the updates that are not in the
store are all later than that (`Host.Ran.reflected`).
-/

namespace ParamServer

variable {τ : ScalarType}

/-- A table of bounded staleness, or of none. -/
def TableSpec.Bounded (spec : TableSpec) : Prop := spec.model = .ssp ∨ spec.model = .bsp

/-- How far the slowest worker may be behind a reader. -/
def TableSpec.slack (spec : TableSpec) : Nat :=
  match spec.model with
  | .ssp => spec.staleness.toNat
  | _ => 0

/-- The answer `a` to a read at `clock` was read off a store that `landed` have made. Those are
updates that were sent, among them each early one of each key in the answer; and behind a barrier
none is from beyond the reader's clock. -/
structure World.Reflects (spec : TableSpec) (W : World τ) (clock : Clock) (a : Message)
    (store : Store τ) (landed : List Message) : Prop where
  values : a.values τ = .ok (a.keyList.map store.value)
  sums : ∀ key ∈ a.keyList, (deltasAt key (landed.flatMap (·.updates τ))).foldlM τ.add τ.zero =
    .ok (store.value key)
  sent : landed.Subperm W.posted
  early : ∀ key ∈ a.keyList,
    (landed.filter fun m =>
      decide (m.clock.toNat < clock.toNat - spec.slack ∧ key ∈ m.keyList)).Perm
    (W.posted.filter fun m =>
      decide (m.clock.toNat < clock.toNat - spec.slack ∧ key ∈ m.keyList))
  late : spec.model = .bsp → ∀ m ∈ landed, m.clock ≤ clock

theorem Tablet.near_of_passes {spec : TableSpec} (hbounded : spec.Bounded) {t : Tablet τ}
    (hfollows : t.gate.Follows spec) {g : Message} (hkeys : g.keys = .ok g.keyList)
    (h : t.passes g = true) : g.clock.toNat - spec.slack ≤ t.slice.minClock.toNat := by
  rw [passes_eq_ready hfollows hkeys, TableSpec.ready] at h
  unfold TableSpec.slack
  rcases hbounded with hmodel | hmodel
  · rw [hmodel] at h ⊢
    exact of_decide_eq_true h
  · rw [hmodel] at h ⊢
    exact of_decide_eq_true h

/-- An answer is to a sound read which passed the gate that it came through. -/
theorem Host.Ran.exists_read {site : Site τ} {spec : TableSpec} (hclosed : site.Closed spec)
    {q : Piece} (hq : q ∈ site.layout.pieces) {h : Host τ} (hran : h.Ran site q) {s : Step τ}
    (hs : s ∈ h.log) {a : Message} (ha : a ∈ s.answers) :
    ∃ front back, h.log = front ++ s :: back ∧
      s.after.Pinned spec q.range (Step.taken .add (front ++ [s]))
        (Step.taken .get (front ++ [s])) ∧
      ∃ g : Message, g.ReadsIn q.range ∧ s.after.passes g = true ∧
        a = g.answerFrom s.after.slice.store := by
  obtain ⟨front, back, hlog⟩ := List.append_of_mem hs
  have hrun := hran.run
  rw [hlog] at hrun
  have hplain : ∀ m ∈ (front ++ s :: back).map (·.message), m.op ≠ .resetWorkers := by
    intro m hm
    obtain ⟨s', hs', rfl⟩ := List.mem_map.mp hm
    exact (hran.fit s' (hlog ▸ hs')).plain
  have hbefore := Tablet.pinned_of_append (pinned_of_closed hclosed hq).1 hplain hrun
  have hstep := Tablet.step_of_run hrun
  have hafter := Tablet.pinned_of_step hbefore (hran.fit s hs).plain hstep
  rw [← Step.taken_append, ← Step.taken_append] at hafter
  obtain ⟨g, hg, hpasses, rfl⟩ := Tablet.read_of_answer hbefore.toServes hstep ha
  refine ⟨front, back, hlog, hafter, g, hafter.fit g ?_, hpasses, rfl⟩
  rw [Step.taken_append]
  exact List.mem_append.mpr ((List.mem_append.mp hg).imp_left (hbefore.asked g))

/-- **One answer.** All that was ever sent to the shard has landed when it answers, or is late. -/
theorem Host.Ran.reflected {site : Site τ} {spec : TableSpec} (hclosed : site.Closed spec)
    (hbounded : spec.Bounded) {q : Piece} (hq : q ∈ site.layout.pieces) {h : Host τ}
    (hran : h.Ran site q) (hqueue : ∀ m ∈ h.queue, h.tablet.slice.minClock ≤ m.clock)
    {s : Step τ} (hs : s ∈ h.log) {a : Message} (ha : a ∈ s.answers) :
    ∃ g : Message, g.ReadsIn q.range ∧ a = g.answerFrom s.after.slice.store ∧
      ∃ landed late : List Message,
        (landed ++ late).Perm
          (Step.taken .add h.log ++ h.queue.filter fun m => decide (m.op = .add)) ∧
        (∀ key ∈ q.range, (deltasAt key (landed.flatMap (·.updates τ))).foldlM τ.add τ.zero =
          .ok (s.after.slice.store.value key)) ∧
        (∀ m ∈ late, a.clock.toNat - spec.slack ≤ m.clock.toNat) ∧
        (spec.model = .bsp → ∀ m ∈ landed, m.clock ≤ a.clock) := by
  obtain ⟨front, back, hlog, hafter, g, hreads, hpasses, rfl⟩ :=
    hran.exists_read hclosed hq hs ha
  have hnear := Tablet.near_of_passes hbounded hafter.follows hreads.keys_eq hpasses
  obtain ⟨landed, hbalance⟩ := hafter.balance
  let waits := s.after.slice.waiting.asking .add
  let later := Step.taken .add back
  let queued := h.queue.filter fun m => decide (m.op = .add)
  refine ⟨g, hreads, rfl, landed, waits ++ later ++ queued, ?_, hbalance.sums, ?_, ?_⟩
  · calc landed ++ (waits ++ later ++ queued)
        = landed ++ waits ++ (later ++ queued) := by simp only [List.append_assoc]
      _ |>.Perm (Step.taken .add (front ++ [s]) ++ (later ++ queued)) :=
        hbalance.all.append_right _
      _ = Step.taken .add h.log ++ queued := by
        rw [← List.append_assoc, ← Step.taken_append, hlog, ← List.append_cons]
  · -- Whatever has not landed is at the minimum or above it.
    suffices hlate : ∀ m ∈ waits ++ later ++ queued, s.after.slice.minClock ≤ m.clock by
      intro m hm
      exact Nat.le_trans hnear (UInt64.le_iff_toNat_le.mp (hlate m hm))
    intro m hm
    rcases List.mem_append.mp hm with hm | hm
    · rcases List.mem_append.mp hm with hm | hm
      · exact UInt64.le_of_lt (Tablet.late_of_asking hafter.toServes m hm)
      · obtain ⟨s', hs', -, rfl⟩ := Step.mem_taken_iff.mp hm
        have hrising := hran.rising
        rw [hlog] at hrising
        have hbehind := (List.pairwise_append.mp hrising).2.1
        exact (List.pairwise_cons.mp hbehind).1 s' hs'
    · exact UInt64.le_trans (hran.low s hs) (hqueue m (List.mem_filter.mp hm).1)
  · intro hmodel m hm
    have hgate := Gate.eq_barrier_of_follows hafter.follows hmodel
    exact UInt64.le_trans (hbalance.reached hgate m hm) (hran.reached s hs _ ha)

namespace World

variable {site : Site τ} {spec : TableSpec} {W : World τ}

theorem reflects_of_said (hclosed : site.Closed spec) (hbounded : spec.Bounded)
    (h : Orderly site W) {a : Message} (hsaid : site.Said W.shards a) :
    ∃ s ∈ (W.shards a.sender).log, a ∈ s.answers ∧
      ∃ landed, W.Reflects spec a.clock a s.after.slice.store landed := by
  obtain ⟨q, hq, hsender, s, hs, ha⟩ := hsaid
  have hran := h.ran q hq
  have hqueue : ∀ m ∈ (W.shards q.shard).queue,
      (W.shards q.shard).tablet.slice.minClock ≤ m.clock := by
    intro m hm
    obtain ⟨r, hr, hshard, hfit⟩ := h.fit q.shard m hm
    obtain rfl := Layout.eq_of_shard_eq hr hq hshard
    have htight := (hran.pinned hclosed hr).tight
    exact ((h.stream r hr m.sender hfit.listed).minClock_le htight).2 m hm rfl
  obtain ⟨g, hreads, rfl, landed, late, hall, hsums, hlate, hbarrier⟩ :=
    hran.reflected hclosed hbounded hq hqueue hs ha
  have hposted := hall.trans (h.books q.shard).symm
  refine ⟨s, hsender ▸ hs, ha, landed, Message.values_eq_ok rfl, ?_, ?_, ?_, hbarrier⟩
  · exact fun key hkey => hsums key (hreads.inside key hkey)
  · have hall : (landed ++ late).Subperm W.posted :=
      hposted.subperm.trans List.filter_sublist.subperm
    exact (List.sublist_append_left landed late).subperm.trans hall
  · intro key hkey
    let touches : Message → Bool := fun m =>
      decide (m.clock.toNat < g.clock.toNat - spec.slack ∧ key ∈ m.keyList)
    have hnone : late.filter touches = [] := by
      rw [List.filter_eq_nil_iff]
      intro m hm htouches
      exact absurd (of_decide_eq_true htouches).1 (Nat.not_lt.mpr (hlate m hm))
    calc landed.filter touches
        = (landed ++ late).filter touches := by rw [List.filter_append, hnone, List.append_nil]
      _ |>.Perm ((W.posted.filter fun m => decide (m.receiver = q.shard)).filter touches) :=
        hposted.filter touches
      _ = W.posted.filter touches := by
        rw [List.filter_filter]
        apply List.filter_congr
        intro m hm
        rw [Bool.and_eq_left_iff_imp]
        intro htouches
        obtain ⟨hop, r, hr, hfit⟩ := h.posted m hm
        exact decide_eq_true (hfit.receiver_of_mem hr hop hq (hreads.inside key hkey)
          (of_decide_eq_true htouches).2)

/-- **The staleness bound.** -/
theorem staleness_bounded (hclosed : site.Closed spec) (hbounded : spec.Bounded)
    (h : Reaches site W) {got : Got τ} (hgot : got ∈ W.gets) :
    Sourced site.layout got.answers got.request got.keys got.values ∧
    ∀ a ∈ got.answers, ∃ s ∈ (W.shards a.sender).log, a ∈ s.answers ∧
      ∃ landed, W.Reflects spec got.clock a s.after.slice.store landed := by
  have horderly := (timely_of_reaches hclosed h).toOrderly
  obtain ⟨hsourced, hsaid⟩ := horderly.gets got hgot
  refine ⟨hsourced, ?_⟩
  intro a ha
  rw [← (hsaid a ha).1]
  exact reflects_of_said hclosed hbounded horderly (hsaid a ha).2

/-- Worker 9 adds 5 to a key, and 7 two iterations later. When worker 8 reads it after its first, it
gets to see the one and not the other. -/
theorem staleness_bounded_pair :
    ∃ (W : World .integer) (got : Got .integer), Reaches pair W ∧ got ∈ W.gets ∧
      got.clock = 1 ∧ got.values = [(5 : Int64)] ∧
      Sourced pair.layout got.answers got.request got.keys got.values ∧
      ∀ a ∈ got.answers, ∃ s ∈ (W.shards a.sender).log, a ∈ s.answers ∧
        ∃ landed, W.Reflects (.bsp .sparse) got.clock a s.after.slice.store landed := by
  let nine := (pair.start.workers 9).session
  let eight := (pair.start.workers 8).session
  -- What is sent to shard 1, in this order.
  let five : Message := ⟨.add, 9, 1, 0, 0, 0, [.keys [3], .integers [5]]⟩
  let once : Message := ⟨.clock, 9, 1, 0, 1, 0, []⟩
  let twice : Message := ⟨.clock, 9, 1, 0, 2, 0, []⟩
  let seven : Message := ⟨.add, 9, 1, 0, 2, 0, [.keys [3], .integers [7]]⟩
  let meanwhile : Message := ⟨.clock, 8, 1, 0, 1, 0, []⟩
  let read : Message := ⟨.get, 8, 1, 0, 1, 1, [.keys [3]]⟩
  let answer : Message := ⟨.response, 1, 8, 0, 1, 1, [.keys [3], .integers [5]]⟩
  let call : Call .integer := ⟨1, [3], Session.asking 1 [⟨1, 0, [3]⟩], []⟩
  have hfive : nine.push line [3] [(5 : Int64)] = .ok () _ := rfl
  have honce : nine.tick line = .ok () (_, _) := rfl
  have htwice : nine.moved.tick line = .ok () (_, _) := rfl
  have hseven : nine.moved.moved.push line [3] [(7 : Int64)] = .ok () _ := rfl
  have hmeanwhile : eight.tick line = .ok () (_, _) := rfl
  have hread : eight.moved.startPull line [3] = .ok call.pull (_, _) := rfl
  have hcollect : eight.moved.numbered.collect call.pull [answer] =
    .done [(5 : Int64)] _ [] := rfl
  have h0 : Reaches pair pair.start := .start
  have h1 := h0.next (.act (w := 9) (by decide) (.push rfl (Or.inl ⟨_, hfive⟩)))
  have h2 := h1.next (.act (w := 9) (by decide) (.tick rfl (Or.inl ⟨_, honce⟩)))
  have h3 := h2.next (.act (w := 9) (by decide) (.tick rfl (Or.inl ⟨_, htwice⟩)))
  have h4 := h3.next (.act (w := 9) (by decide) (.push rfl (Or.inl ⟨_, hseven⟩)))
  have h5 := h4.next (.act (w := 8) (by decide) (.tick rfl (Or.inl ⟨_, hmeanwhile⟩)))
  have h6 := h5.next (.act (w := 8) (by decide) (.ask rfl hread))
  have h7 := h6.next (@Moves.serve _ _ _ 1 [] [once, twice, seven, meanwhile, read] five _ rfl
    (by decide) rfl)
  have h8 := h7.next (@Moves.serve _ _ _ 1 [] [twice, seven, meanwhile, read] once _ rfl
    (by decide) rfl)
  have h9 := h8.next (@Moves.serve _ _ _ 1 [] [seven, meanwhile, read] twice _ rfl (by decide) rfl)
  have h10 := h9.next (@Moves.serve _ _ _ 1 [] [meanwhile, read] seven _ rfl (by decide) rfl)
  have h11 := h10.next (@Moves.serve _ _ _ 1 [] [read] meanwhile _ rfl (by decide) rfl)
  have h12 := h11.next (@Moves.serve _ _ _ 1 [] [] read _ rfl (by decide) rfl)
  have h13 := h12.next (.act (w := 8) (by decide) (@Acts.finish _ _ _ call [answer] [] [] _ _ rfl
    (List.Perm.of_eq (by decide +kernel)) hcollect))
  obtain ⟨hsourced, hreflects⟩ :=
    staleness_bounded closed_pair (Or.inr rfl) h13 (List.mem_singleton.mpr rfl)
  exact ⟨_, _, h13, List.mem_singleton.mpr rfl, rfl, rfl, hsourced, hreflects⟩

end World

end ParamServer
