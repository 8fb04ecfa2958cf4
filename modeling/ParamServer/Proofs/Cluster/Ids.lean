import Mathlib.Data.List.Nodup
import ParamServer.Cluster
import ParamServer.Options.CommandLine
import ParamServer.Proofs.Outcome
import ParamServer.Proofs.SortedMap

/-!
# Who has which id

Shards have consecutive ids from the first one on, and workers those behind the shards. A cluster's
specification is accepted only if its shards stay below the control thread, and then none of the
numbers of 32 bits overflows that they are computed with; the sum by which this is found out has
64 bits, and overflows itself where the count is close to the largest there is
(`ClusterSpec.check_overflows`). Nobody looks whether the workers fit in behind the shards: they may
reach the control thread, and there the numbers end (`Options.workers_run_out`).
-/

namespace ParamServer

/-! ### Consecutive ids -/

section Consecutive

variable {first id : ThreadId} {count : Nat}

/-- So many ids, the first of them given. -/
def idsFrom (first : ThreadId) (count : Nat) : List ThreadId :=
  (List.range count).map fun i => first + UInt32.ofNat i

theorem toNat_idsFrom (h : first.toNat + count ≤ UInt32.size) :
    (idsFrom first count).map (·.toNat) = List.range' first.toNat count := by
  rw [idsFrom, List.map_map, List.range'_eq_map_range]
  refine List.map_congr_left fun i hi => ?_
  have hlt : i < count := List.mem_range.mp hi
  have hi : (UInt32.ofNat i).toNat = i := UInt32.toNat_ofNat_of_lt' (by omega)
  refine (UInt32.toNat_add first (UInt32.ofNat i)).trans ?_
  rw [hi]
  exact Nat.mod_eq_of_lt (Nat.lt_of_lt_of_le (Nat.add_lt_add_left hlt _) h)

theorem length_idsFrom (first : ThreadId) (count : Nat) : (idsFrom first count).length = count := by
  rw [idsFrom, List.length_map, List.length_range]

theorem nodup_idsFrom (h : first.toNat + count ≤ UInt32.size) : (idsFrom first count).Nodup := by
  refine List.Nodup.of_map (·.toNat) ?_
  rw [toNat_idsFrom h]
  exact List.nodup_range'

theorem mem_idsFrom_iff (h : first.toNat + count ≤ UInt32.size) :
    id ∈ idsFrom first count ↔ first.toNat ≤ id.toNat ∧ id.toNat < first.toNat + count := by
  rw [← List.mem_range'_1, ← toNat_idsFrom h, List.mem_map]
  constructor
  · exact fun hmem => ⟨id, hmem, rfl⟩
  · rintro ⟨other, hmem, hsame⟩
    exact UInt32.toNat_inj.mp hsame ▸ hmem

end Consecutive

/-! ### Shards -/

namespace ClusterSpec

variable {s : ClusterSpec}

/-- The number behind that of the last shard. -/
def stop (s : ClusterSpec) : Nat := s.firstShard.toNat + s.shards.toNat

theorem validate_of_none (h : s.shards.toNat = 0) :
    s.validate = .error (.error (.config .noShards)) := by
  have hnone : s.shards = 0 := UInt64.toNat_inj.mp h
  simp only [validate, if_pos hnone]
  rfl

theorem validate_of_some (h : 1 ≤ s.shards.toNat) :
    s.validate =
      if UInt64.size ≤ s.stop then .error (.fault .addOverflow)
      else if controlThread.toNat < s.stop then .error (.error (.config .shardIdsOverflow))
      else .ok () := by
  have hsome : ¬s.shards = 0 := by
    intro hnone
    rw [hnone] at h
    exact absurd h (by decide)
  have hlast : controlThread.toNat ≤ s.stop - 1 ↔ controlThread.toNat < s.stop := by
    unfold stop
    omega
  simp only [validate, if_neg hsome]
  rw [← stop]
  by_cases hsum : UInt64.size ≤ s.stop
  · simp only [if_pos hsum]
    rfl
  · by_cases hhigh : controlThread.toNat < s.stop
    · simp only [if_neg hsum, if_pos hhigh, if_pos (hlast.mpr hhigh)]
      rfl
    · simp only [if_neg hsum, if_neg hhigh, if_neg fun h => hhigh (hlast.mp h)]
      rfl

theorem validate_eq_ok_iff :
    s.validate = .ok () ↔ 1 ≤ s.shards.toNat ∧ s.stop ≤ controlThread.toNat := by
  by_cases hnone : s.shards.toNat = 0
  · rw [validate_of_none hnone]
    simp [hnone]
  · have hsome : 1 ≤ s.shards.toNat := Nat.one_le_iff_ne_zero.mpr hnone
    have hcontrol : controlThread.toNat < UInt64.size := by decide
    rw [validate_of_some hsome]
    split
    · simp only [reduceCtorEq, false_iff]
      omega
    · split
      · simp only [reduceCtorEq, false_iff]
        omega
      · simp only [true_iff]
        omega

theorem fits_of_validate (h : s.validate = .ok ()) :
    s.firstShard.toNat + s.shards.toNat ≤ UInt32.size :=
  Nat.le_trans (validate_eq_ok_iff.mp h).2 (by decide)

/-- What 32 bits say of the count is all of it. -/
theorem shardIds_of_validate (h : s.validate = .ok ()) :
    s.shardIds = .ok (idsFrom s.firstShard s.shards.toNat) := by
  have hstop : s.firstShard.toNat + s.shards.toNat ≤ controlThread.toNat :=
    (validate_eq_ok_iff.mp h).2
  have hcontrol : controlThread.toNat < UInt32.size := by decide
  have hcount : s.shards.toUInt32.toNat = s.shards.toNat := by
    rw [UInt64.toNat_toUInt32]
    exact Nat.mod_eq_of_lt (Nat.lt_of_le_of_lt (by omega) hcontrol)
  simp only [shardIds, hcount, if_pos (fits_of_validate h)]
  rfl

end ClusterSpec

namespace Cluster

theorem exists_openShards {ids : List ThreadId} (hnodup : ids.Nodup) {e : Exchange}
    (hfree : ∀ id ∈ ids, e.shards.contains id = false) :
    ∃ opened, openShards e ids = .ok opened ∧ opened.1.map (·.id) = ids := by
  induction ids generalizing e with
  | nil => exact ⟨_, rfl, rfl⟩
  | cons id rest ih =>
    obtain ⟨hid, hrest⟩ := List.forall_mem_cons.mp hfree
    obtain ⟨hnot, hnodup⟩ := List.nodup_cons.mp hnodup
    let next : Exchange := { e with
      shards := e.shards.insert id e.channels.size, channels := e.channels.push {} }
    have hopen : e.openShard id = .ok (e.channels.size, next) := by
      rw [Exchange.openShard, if_neg (by simp [hid])]
    have hnext : ∀ other ∈ rest, next.shards.contains other = false := by
      intro other hother
      rw [← Bool.not_eq_true, SortedMap.contains_insert, hrest other hother]
      rintro (rfl | hnever)
      · exact hnot hother
      · cases hnever
    obtain ⟨opened, hlater, hids⟩ := ih hnodup hnext
    refine ⟨({ id, channel := e.channels.size } :: opened.1, opened.2), ?_, ?_⟩
    · rw [openShards, hopen]
      show (openShards next rest >>= _) = _
      rw [hlater]
      rfl
    · rw [List.map_cons, hids]

/-- A cluster starts on an accepted specification, and has the shards that it lists. -/
theorem exists_start {spec : ClusterSpec} (h : spec.validate = .ok ()) :
    ∃ c, start spec = .ok c ∧ spec.shardIds = .ok c.shardIds := by
  have hids := ClusterSpec.shardIds_of_validate h
  have hnodup := nodup_idsFrom (ClusterSpec.fits_of_validate h)
  obtain ⟨opened, hopen, hshards⟩ :=
    exists_openShards hnodup (e := .new spec.wireCodec) fun _ _ => rfl
  refine ⟨⟨spec, opened.2, opened.1, .empty⟩, ?_, ?_⟩
  · rw [start, h, hids]
    show ((liftM (openShards (.new spec.wireCodec) _) : Attempt _) >>= _) = _
    rw [hopen]
    rfl
  · rw [hids]
    exact congrArg Except.ok hshards.symm

end Cluster

/-- **Shard ids.** A specification is accepted exactly if there is a shard and all of them stay below
the control thread; else it is refused, or the sum that is looked at overflows. An accepted one lists
as many consecutive ids as it has shards, and a cluster starts with these. -/
theorem ClusterSpec.accepts_exactly (s : ClusterSpec) :
    (s.validate = .ok () ↔
      1 ≤ s.shards.toNat ∧ s.firstShard.toNat + s.shards.toNat ≤ controlThread.toNat) ∧
    (s.shards.toNat = 0 → s.validate = .error (.error (.config .noShards))) ∧
    (1 ≤ s.shards.toNat → controlThread.toNat < s.firstShard.toNat + s.shards.toNat →
      (s.firstShard.toNat + s.shards.toNat < UInt64.size →
        s.validate = .error (.error (.config .shardIdsOverflow))) ∧
      (UInt64.size ≤ s.firstShard.toNat + s.shards.toNat →
        s.validate = .error (.fault .addOverflow))) ∧
    (s.validate = .ok () → ∃ ids, s.shardIds = .ok ids ∧
      ids.length = s.shards.toNat ∧ ids.Nodup ∧
      ids.map (·.toNat) = List.range' s.firstShard.toNat s.shards.toNat ∧
      controlThread ∉ ids ∧ ∃ c, Cluster.start s = .ok c ∧ c.shardIds = ids) := by
  refine ⟨validate_eq_ok_iff, validate_of_none, fun hsome hhigh => ⟨fun hsum => ?_, fun hsum => ?_⟩,
    fun h => ?_⟩
  · rw [validate_of_some hsome, stop, if_neg (Nat.not_le.mpr hsum), if_pos hhigh]
  · rw [validate_of_some hsome, stop, if_pos hsum]
  · have hids := shardIds_of_validate h
    have hfit := fits_of_validate h
    have hstop : s.firstShard.toNat + s.shards.toNat ≤ controlThread.toNat :=
      (validate_eq_ok_iff.mp h).2
    obtain ⟨c, hstart, hsame⟩ := Cluster.exists_start h
    rw [hids] at hsame
    refine ⟨_, hids, length_idsFrom .., nodup_idsFrom hfit, toNat_idsFrom hfit, ?_, c, hstart,
      (Except.ok.inj hsame).symm⟩
    rw [mem_idsFrom_iff hfit]
    omega

/-- The highest ids that shards can have. -/
theorem ClusterSpec.accepts_exactly_highest :
    (⟨2, 4294967293, false⟩ : ClusterSpec).validate = .ok () ∧
    ∃ ids, (⟨2, 4294967293, false⟩ : ClusterSpec).shardIds = .ok ids ∧ ids.Nodup ∧
      ids.map (·.toNat) = [4294967293, 4294967294] ∧ controlThread ∉ ids := by
  obtain ⟨hiff, -, -, hids⟩ := accepts_exactly ⟨2, 4294967293, false⟩
  have hvalid := hiff.mpr (by decide)
  obtain ⟨ids, hlist, -, hnodup, hnumbers, hcontrol, -⟩ := hids hvalid
  exact ⟨hvalid, ids, hlist, hnodup, hnumbers, hcontrol⟩

/-- The sum of the first id and the largest count has no room in 64 bits. -/
theorem ClusterSpec.check_overflows :
    (⟨18446744073709551615, 1, true⟩ : ClusterSpec).validate = .error (.fault .addOverflow) :=
  rfl

/-! ### Workers -/

namespace Options

variable {o : Options} {spec : ClusterSpec}

theorem validate_of_clusterSpec (h : o.clusterSpec = .ok spec) :
    spec = ⟨o.shards, 0, o.wireCodec⟩ ∧ spec.validate = .ok () := by
  obtain ⟨_, hvalid, hsame⟩ := exists_of_bind h
  obtain rfl := Except.ok.inj hsame
  exact ⟨rfl, hvalid⟩

theorem workerIds_of_fit (hshards : o.shards.toNat < UInt32.size)
    (h : o.shards.toNat + o.workers.toNat ≤ UInt32.size) :
    o.workerIds = .ok (idsFrom o.shards.toUInt32 o.workers.toNat) := by
  rw [workerIds, if_neg (Nat.not_le.mpr hshards), if_neg (by omega)]
  rfl

theorem workerIds_of_overflow (hshards : o.shards.toNat < UInt32.size)
    (h : UInt32.size < o.shards.toNat + o.workers.toNat) :
    o.workerIds = .error (.fault .addOverflow) := by
  have hsome : o.workers ≠ 0 := by
    intro hnone
    rw [hnone] at h
    exact absurd h (Nat.not_lt.mpr (Nat.le_of_lt hshards))
  rw [workerIds, if_neg (Nat.not_le.mpr hshards), if_pos ⟨hsome, h⟩]
  rfl

/-- **Worker ids.** Where a cluster can be started, the workers have ids of their own, behind those
of its shards, as long as shards and workers together are no more than there are numbers. The
control thread's is among them exactly if they are all numbers there are; of what the cluster keeps
for itself it is the only one. -/
theorem workers_apart (h : o.clusterSpec = .ok spec) :
    ∃ c, Cluster.start spec = .ok c ∧ spec.shardIds = .ok c.shardIds ∧
    (o.shards.toNat + o.workers.toNat ≤ UInt32.size →
      ∃ ids, o.workerIds = .ok ids ∧ ids.length = o.workers.toNat ∧ ids.Nodup ∧
        (∀ id ∈ ids, id ∉ c.shardIds) ∧
        (∀ id ∈ ids, c.reserved id = true ↔ id = controlThread) ∧
        (controlThread ∈ ids ↔ o.shards.toNat + o.workers.toNat = UInt32.size)) ∧
    (UInt32.size < o.shards.toNat + o.workers.toNat →
      o.workerIds = .error (.fault .addOverflow)) := by
  obtain ⟨rfl, hvalid⟩ := validate_of_clusterSpec h
  obtain ⟨c, hstart, hlist⟩ := Cluster.exists_start hvalid
  have hlisted : c.shardIds = idsFrom 0 o.shards.toNat :=
    Except.ok.inj (hlist.symm.trans (ClusterSpec.shardIds_of_validate hvalid))
  have hzero : (0 : ThreadId).toNat = 0 := rfl
  have hcontrol : controlThread.toNat + 1 = UInt32.size := rfl
  have hstop : (0 : ThreadId).toNat + o.shards.toNat ≤ controlThread.toNat :=
    (ClusterSpec.validate_eq_ok_iff.mp hvalid).2
  have hshards : o.shards.toNat < UInt32.size := by omega
  have hfirst : o.shards.toUInt32.toNat = o.shards.toNat := by
    rw [UInt64.toNat_toUInt32]
    exact Nat.mod_eq_of_lt hshards
  have htaken : (0 : ThreadId).toNat + o.shards.toNat ≤ UInt32.size := by omega
  refine ⟨c, hstart, hlist, fun hfit => ?_, workerIds_of_overflow hshards⟩
  rw [← hfirst] at hfit
  have hapart : ∀ id ∈ idsFrom o.shards.toUInt32 o.workers.toNat, id ∉ c.shardIds := by
    intro id hid
    rw [mem_idsFrom_iff hfit, hfirst] at hid
    rw [hlisted, mem_idsFrom_iff htaken]
    rintro ⟨-, hbelow⟩
    omega
  refine ⟨_, workerIds_of_fit hshards (hfirst ▸ hfit), length_idsFrom .., nodup_idsFrom hfit,
    hapart, fun id hid => ?_, ?_⟩
  · simp [Cluster.reserved, hapart id hid]
  · rw [mem_idsFrom_iff hfit, hfirst]
    omega

/-- Shards and workers that have all numbers below the control thread's. -/
theorem workers_apart_brimful :
    ({ shards := 4294967290, workers := 5 } : Options).clusterSpec =
      .ok ⟨4294967290, 0, false⟩ ∧
    ∃ c, Cluster.start ⟨4294967290, 0, false⟩ = .ok c ∧
      ∃ ids, ({ shards := 4294967290, workers := 5 } : Options).workerIds = .ok ids ∧
        ids.length = 5 ∧ ids.Nodup ∧ ∀ id ∈ ids, id ∉ c.shardIds ∧ ¬c.reserved id = true := by
  have hspec : ({ shards := 4294967290, workers := 5 } : Options).clusterSpec =
    .ok ⟨4294967290, 0, false⟩ := rfl
  obtain ⟨c, hstart, -, hfits, -⟩ := workers_apart hspec
  obtain ⟨ids, hids, hlength, hnodup, hapart, hreserved, hcontrol⟩ := hfits (by decide)
  have hfree : controlThread ∉ ids := fun hmem => absurd (hcontrol.mp hmem) (by decide)
  refine ⟨hspec, c, hstart, ids, hids, hlength, hnodup, fun id hid => ⟨hapart id hid, ?_⟩⟩
  rw [hreserved id hid]
  rintro rfl
  exact hfree hid

/-- Shards that leave one number free leave it to a worker, although it is the control thread's; a
second worker gets none at all. -/
theorem workers_run_out :
    (∃ o spec, Options.ofArguments ["--shards", "4294967295", "--workers", "1"] = .ok o ∧
      o.clusterSpec = .ok spec ∧ o.workerIds = .ok [controlThread]) ∧
    ∃ o spec, Options.ofArguments ["--shards", "4294967295", "--workers", "2"] = .ok o ∧
      o.clusterSpec = .ok spec ∧ o.workerIds = .error (.fault .addOverflow) := by
  constructor
  · refine ⟨{ shards := 4294967295, workers := 1 }, _, ?_, rfl, rfl⟩
    decide +kernel
  · refine ⟨{ shards := 4294967295, workers := 2 }, _, ?_, rfl, rfl⟩
    decide +kernel

end Options

end ParamServer
