import ParamServer.Proofs.World.Staleness

/-!
# How far ahead a worker can be

Nothing keeps a worker from moving its clock on, but a read does where the worker waits for it: the
shard answers when its minimum is within the staleness of the reader's clock, and from then on the
minimum does not fall. So if each worker reads from a shard once in every iteration, none is ever
further ahead of the shard's minimum than the staleness and the one iteration that follows the read.
-/

namespace ParamServer.World

variable {τ : ScalarType} {site : Site τ} {spec : TableSpec} {W W' : World τ} {w : ThreadId}

/-- At the clock that it is at, the worker has got an answer to a read that shard `p` had a part
in. -/
def HasRead (site : Site τ) (W : World τ) (w p : ThreadId) : Prop :=
  ∃ got ∈ W.gets, got.worker = w ∧ got.clock = (W.workers w).session.clock ∧
    ∃ key ∈ got.keys, site.layout.owner key = .ok p

/-- Where the world can get if nobody moves its clock on without such a read. -/
inductive Paced (site : Site τ) (p : ThreadId) : World τ → Prop
  | start : Paced site p site.start
  | next {W W' : World τ} (h : Paced site p W) (hmove : Moves site W W')
      (hread : ∀ w ∈ site.workers,
        (W'.workers w).session.clock ≠ (W.workers w).session.clock → HasRead site W w p) :
      Paced site p W'

theorem reaches_of_paced {p : ThreadId} (h : Paced site p W) : Reaches site W := by
  induction h with
  | start => exact .start
  | next _ hmove _ ih => exact ih.next hmove

/-! ### Clocks and minima -/

theorem clock_of_moves (h : Orderly site W) (hmove : Moves site W W') (hw : w ∈ site.workers) :
    (W'.workers w).session.clock = (W.workers w).session.clock ∨
      (W'.workers w).session.clock.toNat = (W.workers w).session.clock.toNat + 1 := by
  cases hmove with
  | serve => exact Or.inl rfl
  | @act v worker ms gots hv hact =>
    change ((((W.post ms).seat v worker).workers w).session.clock = _) ∨
      ((((W.post ms).seat v worker).workers w).session.clock.toNat = _)
    by_cases hwv : w = v
    · subst hwv
      rw [workers_seat_self]
      rcases acts_cases (h.attended w hw) hw hact with
        ⟨-, -, session, asked, rfl, -, ⟨hclock, -⟩ | ⟨hroom, rfl, -⟩⟩ | ⟨-, hclock, -⟩
      · exact Or.inl hclock
      · exact Or.inr (Session.toNat_add_one hroom)
      · exact Or.inl hclock
    · rw [workers_seat_of_ne _ hwv]
      exact Or.inl rfl

theorem minClock_le_of_moves (hclosed : site.Closed spec) (h : Orderly site W)
    (hmove : Moves site W W') {q : Piece} (hq : q ∈ site.layout.pieces) :
    (W.shards q.shard).tablet.slice.minClock ≤ (W'.shards q.shard).tablet.slice.minClock := by
  cases hmove with
  | act => exact UInt64.le_refl _
  | @serve p _ _ m _ hqueue _ hstep =>
    obtain ⟨r, hr, rfl, hfit⟩ := h.fit p m (by rw [hqueue]; simp)
    by_cases hshard : q.shard = r.shard
    · obtain rfl := Layout.eq_of_shard_eq hq hr hshard
      rw [shards_served_self]
      exact (Host.pinned_of_serve hclosed (h.ran q hq) hq hfit hstep).2.1
    · rw [shards_served_of_ne W hshard]
      exact UInt64.le_refl _

section Bounded

variable (hclosed : site.Closed spec) (hbounded : spec.Bounded) {q : Piece}
  (hq : q ∈ site.layout.pieces)

include hclosed hbounded hq

/-- A worker that has just read from a shard is near the minimum of the shard. -/
theorem near_of_hasRead (h : Orderly site W) (hread : HasRead site W w q.shard) :
    (W.workers w).session.clock.toNat ≤
      (W.shards q.shard).tablet.slice.minClock.toNat + spec.slack := by
  obtain ⟨got, hgot, -, hclock, key, hkey, howner⟩ := hread
  obtain ⟨hsourced, hsaid⟩ := h.gets got hgot
  obtain ⟨a, ha, hsender⟩ := hsourced.exists_answer hkey howner
  obtain ⟨hsame, r, hr, hfrom, s, hs, hanswer⟩ := hsaid a ha
  obtain rfl := Layout.eq_of_shard_eq hq hr (hsender.symm.trans hfrom)
  obtain ⟨_, _, _, hafter, g, hreads, hpasses, rfl⟩ :=
    (h.ran q hq).exists_read hclosed hq hs hanswer
  have hnear := Tablet.near_of_passes hbounded hafter.follows hreads.keys_eq hpasses
  have hlow := UInt64.le_iff_toNat_le.mp ((h.ran q hq).low s hs)
  have hread : g.clock = (W.workers w).session.clock := hsame.trans hclock
  rw [hread] at hnear
  omega

theorem lead_of_paced (h : Paced site q.shard W) (hw : w ∈ site.workers) :
    (W.workers w).session.clock.toNat ≤
      (W.shards q.shard).tablet.slice.minClock.toNat + spec.slack + 1 := by
  induction h with
  | start => exact Nat.zero_le _
  | @next W W' hpaced hmove hread ih =>
    have horderly := (timely_of_reaches hclosed (reaches_of_paced hpaced)).toOrderly
    have hmin := UInt64.le_iff_toNat_le.mp
      (minClock_le_of_moves hclosed horderly hmove hq)
    rcases clock_of_moves horderly hmove hw with hsame | hone
    · rw [hsame]
      omega
    · have hmoved : (W'.workers w).session.clock ≠ (W.workers w).session.clock := by
        intro hsame
        rw [hsame] at hone
        omega
      have hnear := near_of_hasRead hclosed hbounded hq horderly (hread w hw hmoved)
      omega

/-- **The bounded lead.** What a shard has seen of a worker's clock, and the clock itself, are no
further ahead of the shard's minimum than the staleness and one. -/
theorem lead_bounded (h : Paced site q.shard W) (hw : w ∈ site.workers) :
    (∃ seen, (W.shards q.shard).tablet.slice.roster.clockOf? w = some seen ∧
      seen.toNat ≤ (W.shards q.shard).tablet.slice.minClock.toNat + spec.slack + 1) ∧
    (W.workers w).session.clock.toNat ≤
      (W.shards q.shard).tablet.slice.minClock.toNat + spec.slack + 1 := by
  have hlead := lead_of_paced hclosed hbounded hq h hw
  have horderly := (timely_of_reaches hclosed (reaches_of_paced h)).toOrderly
  obtain ⟨seen, hseen, hpairs⟩ := horderly.stream q hq w hw
  rw [List.cons_append, List.pairwise_cons] at hpairs
  have hbehind := UInt64.le_iff_toNat_le.mp (hpairs.1 (W.workers w).session.clock (by simp))
  exact ⟨⟨seen, hseen, Nat.le_trans hbehind hlead⟩, hlead⟩

end Bounded

/-- Behind a barrier worker 8 reads, and moves its clock on before worker 9 has done anything. It is
then as far ahead as it can get. -/
theorem lead_bounded_pair :
    ∃ W : World .integer, Paced pair 1 W ∧ (W.workers 8).session.clock = 1 ∧
      (W.shards 1).tablet.slice.minClock = 0 ∧ (TableSpec.bsp .sparse).slack = 0 ∧
      (∃ seen, (W.shards 1).tablet.slice.roster.clockOf? 8 = some seen ∧
        seen.toNat ≤ (W.shards 1).tablet.slice.minClock.toNat + (TableSpec.bsp .sparse).slack + 1) ∧
      (W.workers 8).session.clock.toNat ≤
        (W.shards 1).tablet.slice.minClock.toNat + (TableSpec.bsp .sparse).slack + 1 := by
  let eight := (pair.start.workers 8).session
  let read : Message := ⟨.get, 8, 1, 0, 0, 1, [.keys [3]]⟩
  let answer : Message := ⟨.response, 1, 8, 0, 0, 1, [.keys [3], .integers [0]]⟩
  let once : Message := ⟨.clock, 8, 1, 0, 1, 0, []⟩
  let call : Call .integer := ⟨0, [3], Session.asking 1 [⟨1, 0, [3]⟩], []⟩
  have hread : eight.startPull line [3] = .ok call.pull (_, _) := rfl
  have hcollect : eight.numbered.collect call.pull [answer] = .done [(0 : Int64)] _ [] := rfl
  have honce : eight.numbered.tick line = .ok () (_, _) := rfl
  have hstill : ∀ {W W' : World .integer},
      (W'.workers 8).session.clock = (W.workers 8).session.clock →
      (W'.workers 9).session.clock = (W.workers 9).session.clock →
      ∀ w ∈ pair.workers, (W'.workers w).session.clock ≠ (W.workers w).session.clock →
        HasRead pair W w 1 := by
    intro W W' height hnine
    exact Site.forall_workers_duet (fun hmoved => absurd height hmoved)
      (fun hmoved => absurd hnine hmoved)
  have h0 : Paced pair 1 pair.start := .start
  have h1 := h0.next (.act (w := 8) (by decide) (.ask rfl hread)) (hstill rfl rfl)
  have h2 := h1.next (@Moves.serve _ _ _ 1 [] [] read _ rfl (by decide) rfl) (hstill rfl rfl)
  have h3 := h2.next (.act (w := 8) (by decide) (@Acts.finish _ _ _ call [answer] [] [] _ _ rfl
    (List.Perm.of_eq (by decide +kernel)) hcollect)) (hstill rfl rfl)
  have h4 := h3.next (.act (w := 8) (by decide) (.tick rfl (Or.inl ⟨_, honce⟩))) ?_
  · have h5 := h4.next (@Moves.serve _ _ _ 1 [] [] once _ rfl (by decide) rfl) (hstill rfl rfl)
    exact ⟨_, h5, rfl, rfl, rfl,
      lead_bounded closed_pair (Or.inr rfl) (q := ⟨⟨0, 5⟩, 1⟩) (by decide) h5 (by decide)⟩
  · exact Site.forall_workers_duet
      (fun _ => ⟨_, List.mem_singleton.mpr rfl, rfl, rfl, 3, by decide, rfl⟩)
      (fun hmoved => absurd rfl hmoved)

end ParamServer.World
