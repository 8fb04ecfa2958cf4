import Mathlib.Data.Finset.Max
import ParamServer.Proofs.World.Orderly

/-!
# Somebody can always go on

A read can wait at several shards at once, and each shard goes by clocks of its own. But once the
queues are empty all shards know the same clocks, those that the workers are at, so the minimum of
each is the clock of the slowest worker, and no gate is shut to a reader at the minimum. Whoever
waits then waits for somebody slower, and the slowest worker waits for nobody.
-/

namespace ParamServer

variable {τ : ScalarType} {site : Site τ} {spec : TableSpec}

/-- A worker in a read that is not complete even with all that is in the worker's inbox. -/
def Client.Blocked (worker : Client τ) : Prop :=
  ∃ call pull session, worker.call = some call ∧
    worker.session.collect call.pull worker.inbox = .pending pull session

theorem Client.Attended.exists_pending {shards : ThreadId → Host τ} {w : ThreadId}
    {worker : Client τ} (h : worker.Attended site shards w) (hblocked : worker.Blocked) :
    ∃ q ∈ site.layout.pieces, ∃ g, g ∈ (shards q.shard).pending w := by
  obtain ⟨call, pull, session, hcall, hpending⟩ := hblocked
  by_contra hnone
  have hquiet : ∀ q ∈ site.layout.pieces, (shards q.shard).pending w = [] := by
    intro q hq
    apply List.eq_nil_iff_forall_not_mem.mpr
    intro g hg
    exact hnone ⟨q, hq, g, hg⟩
  obtain ⟨-, hbacked, -⟩ := h.called call hcall
  obtain ⟨_, _, hdone, -⟩ :=
    Session.collect_of_answered (h.answered hcall hquiet) h.settled hbacked
  rw [hpending] at hdone
  cases hdone

namespace World

section Drained

variable {W : World τ} {w : ThreadId} (hclosed : site.Closed spec) (h : Timely site W) {q : Piece}
  (hq : q ∈ site.layout.pieces) (hqueue : (W.shards q.shard).queue = []) (hw : w ∈ site.workers)
  (hslowest : ∀ v ∈ site.workers, (W.workers w).session.clock ≤ (W.workers v).session.clock)

include hclosed h hq hqueue hw hslowest

theorem le_minClock_of_slowest :
    (W.workers w).session.clock ≤ (W.shards q.shard).tablet.slice.minClock := by
  refine (h.ran q hq).le_minClock hclosed hq (List.ne_nil_of_mem hw) ?_
  intro v hv seen hseen
  rw [(h.steady q hq v hv).clockOf?_of_nil hqueue] at hseen
  rw [← Option.some.inj hseen]
  exact hslowest v hv

/-- No shard keeps the slowest worker waiting. -/
theorem pending_of_slowest : (W.shards q.shard).pending w = [] := by
  apply List.eq_nil_iff_forall_not_mem.mpr
  intro g hg
  have hran := h.ran q hq
  have hpinned := hran.pinned hclosed hq
  have hwaits : g ∈ (W.shards q.shard).tablet.slice.waiting.asking .get := by
    have hmem := (List.mem_filter.mp hg).1
    rwa [hqueue, List.filter_nil, List.nil_append] at hmem
  obtain ⟨hfit, hget⟩ := hran.fit_of_waiting hclosed hq hwaits
  have hreached : g.clock ≤ (W.shards q.shard).tablet.slice.minClock := by
    rw [(h.attended w hw).clock_of_pending hq hg]
    exact le_minClock_of_slowest hclosed h hq hqueue hw hslowest
  have hpasses : (W.shards q.shard).tablet.passes g = true := by
    rw [Tablet.passes_eq_ready hpinned.follows (hfit.reads hget).keys_eq]
    exact spec.ready_of_le (UInt64.le_iff_toNat_le.mp hreached)
  rw [Tablet.passes_of_shut hpinned.shut .get g hwaits] at hpasses
  cases hpasses

end Drained

/-- **There is no deadlock.** Whatever the rule of the table is, however many shards it is laid out
over and whatever the workers have done, once no message is under way to a shard some worker is not
blocked, or would not be if it read its inbox. -/
theorem exists_not_blocked (hclosed : site.Closed spec) (hsome : site.workers ≠ []) {W : World τ}
    (h : Reaches site W) (hqueues : ∀ q ∈ site.layout.pieces, (W.shards q.shard).queue = []) :
    ∃ w ∈ site.workers, ¬(W.workers w).Blocked := by
  have htimely := timely_of_reaches hclosed h
  obtain ⟨w, hw, hslowest⟩ := site.workers.toFinset.exists_min_image
    (fun v => (W.workers v).session.clock.toNat) (List.toFinset_nonempty_iff _ |>.mpr hsome)
  have hw := List.mem_toFinset.mp hw
  refine ⟨w, hw, fun hblocked => ?_⟩
  obtain ⟨q, hq, g, hg⟩ := (htimely.attended w hw).exists_pending hblocked
  rw [pending_of_slowest hclosed htimely hq (hqueues q hq) hw fun v hv =>
    UInt64.le_iff_toNat_le.mpr (hslowest v (List.mem_toFinset.mpr hv))] at hg
  cases hg

/-- Two workers at a table where readers run ahead only of those who have not written their keys. -/
def wary : Site .integer := .duet (.speculative 0 1 (.sparse .empty))

theorem closed_wary : wary.Closed (.sparseSsp .sparse 0 1 .sparse) :=
  Site.closed_duet fun _ _ => rfl

/-- Worker 8 is an iteration ahead and reads a key of each shard. Worker 9 has written one of them,
so that shard makes worker 8 wait, and the other has answered. -/
theorem exists_not_blocked_wary :
    ∃ W : World .integer, Reaches wary W ∧
      (∀ q ∈ wary.layout.pieces, (W.shards q.shard).queue = []) ∧
      (∀ w ∈ wary.workers, (W.workers w).inbox = []) ∧ (W.workers 8).Blocked ∧
      ∃ w ∈ wary.workers, ¬(W.workers w).Blocked := by
  let eight := (wary.start.workers 8).session
  let nine := (wary.start.workers 9).session
  let add : Message := ⟨.add, 9, 1, 0, 0, 0, [.keys [3], .integers [5]]⟩
  let once : ThreadId → Message := fun p => ⟨.clock, 8, p, 0, 1, 0, []⟩
  let ask : ThreadId → Key → Message := fun p key => ⟨.get, 8, p, 0, 1, 1, [.keys [key]]⟩
  let answer : Message := ⟨.response, 2, 8, 0, 1, 1, [.keys [7], .integers [0]]⟩
  let call : Call .integer := ⟨1, [3, 7], Session.asking 1 [⟨1, 0, [3]⟩, ⟨2, 1, [7]⟩], []⟩
  have hadd : nine.push line [3] [(5 : Int64)] = .ok () _ := rfl
  have honce : eight.tick line = .ok () (_, _) := rfl
  have hask : eight.moved.startPull line [3, 7] = .ok call.pull (_, _) := rfl
  have hwait : eight.moved.numbered.collect call.pull [answer] = .pending _ _ := rfl
  -- What the shards make of their messages.
  obtain ⟨t1, t2, t3, hfirst, hsecond, hthird⟩ : ∃ t1 t2 t3 : Tablet .integer,
      (wary.tablet 1).step add = .ok ⟨add, .ok [], t1⟩ ∧
      t1.step (once 1) = .ok ⟨once 1, .ok [], t2⟩ ∧
      t2.step (ask 1 3) = .ok ⟨ask 1 3, .ok [], t3⟩ :=
    ⟨_, _, _, rfl, rfl, by with_unfolding_all rfl⟩
  obtain ⟨u1, u2, hearly, hlate⟩ : ∃ u1 u2 : Tablet .integer,
      (wary.tablet 2).step (once 2) = .ok ⟨once 2, .ok [], u1⟩ ∧
      u1.step (ask 2 7) = .ok ⟨ask 2 7, .ok [answer], u2⟩ :=
    ⟨_, _, rfl, by with_unfolding_all rfl⟩
  have h0 : Reaches wary wary.start := .start
  have h1 := h0.next (.act (w := 9) (by decide) (.push rfl (Or.inl ⟨_, hadd⟩)))
  have h2 := h1.next (.act (w := 8) (by decide) (.tick rfl (Or.inl ⟨_, honce⟩)))
  have h3 := h2.next (.act (w := 8) (by decide) (.ask rfl hask))
  have h4 := h3.next (@Moves.serve _ _ _ 1 [] [once 1, ask 1 3] add _ rfl (by decide) hfirst)
  have h5 := h4.next (@Moves.serve _ _ _ 1 [] [ask 1 3] (once 1) _ rfl (by decide) hsecond)
  have h6 := h5.next (@Moves.serve _ _ _ 1 [] [] (ask 1 3) _ rfl (by decide) hthird)
  have h7 := h6.next (@Moves.serve _ _ _ 2 [] [ask 2 7] (once 2) _ rfl (by decide) hearly)
  have h8 := h7.next (@Moves.serve _ _ _ 2 [] [] (ask 2 7) _ rfl (by decide) hlate)
  have h9 := h8.next (.act (w := 8) (by decide) (@Acts.wait _ _ _ call [answer] [] _ _ rfl
    (List.Perm.of_eq rfl) hwait))
  exact ⟨_, h9, Site.forall_pieces_duet rfl rfl, Site.forall_workers_duet rfl rfl,
    ⟨_, _, _, rfl, rfl⟩,
    exists_not_blocked closed_wary (by decide) h9 (Site.forall_pieces_duet rfl rfl)⟩

end World

end ParamServer
