import Mathlib.Data.List.FinRange
import ParamServer.Proofs.SortedMap
import ParamServer.Proofs.Store
import ParamServer.WriteLog

/-!
# What a write log remembers

A log that covers a range takes a stamp for any key of it, and a stamp never makes a key look
quieter to anybody: what others wrote is only ever forgotten by `forgetBelow`.
-/

namespace ParamServer

/-- The key at a place of a range. -/
def Interval.keyAt (range : Interval) (i : Fin range.width) : Key :=
  UInt64.ofNat (range.lo.toNat + i)

theorem Interval.toNat_keyAt (range : Interval) (i : Fin range.width) :
    (range.keyAt i).toNat = range.lo.toNat + i := by
  have hi := i.isLt
  have hhi := range.hi.toNat_lt_size
  simp only [Interval.width] at hi
  exact UInt64.toNat_ofNat_of_lt' (by omega)

theorem Interval.keyAt_mem (range : Interval) (i : Fin range.width) : range.keyAt i ∈ range := by
  have hi := i.isLt
  simp only [Interval.width] at hi
  rw [Interval.mem_iff, UInt64.le_iff_toNat_le, UInt64.lt_iff_toNat_lt, Interval.toNat_keyAt]
  omega

theorem Interval.offset_keyAt (range : Interval) (i : Fin range.width) :
    range.offset (range.keyAt i) = i := by
  rw [Interval.offset, Interval.toNat_keyAt]
  omega

namespace WriteLog

variable {range : Interval}

/-- A dense log must have a slot for every key of the range. -/
def Covers (range : Interval) : WriteLog → Prop
  | .sparse _ => True
  | .dense slotted _ => slotted = range

theorem covers_new {backing : Backing} {log : WriteLog} (h : new backing range = .ok log) :
    log.Covers range := by
  cases backing with
  | sparse =>
    cases h
    trivial
  | dense =>
    cases hslots : Slots.filled range ([] : List Stamp) with
    | error why =>
      rw [new, hslots] at h
      cases h
    | ok slots =>
      rw [new, hslots] at h
      cases h
      rfl

theorem covers_forgetBelow {log : WriteLog} (hcovers : log.Covers range) (clock : Clock) :
    (log.forgetBelow clock).Covers range := by
  cases log with
  | sparse stamps => trivial
  | dense slotted slots => exact hcovers

theorem record_of_covers {log : WriteLog} (hcovers : log.Covers range) {key : Key}
    (hkey : key ∈ range) (writer : ThreadId) (clock : Clock) :
    ∃ log', log.record key writer clock = .ok () log' ∧ log'.Covers range ∧
      ∀ j, log'.stamps j =
        if j = key then stamp (log.stamps key) ⟨writer, clock⟩ else log.stamps j := by
  cases log with
  | sparse stamps =>
    refine ⟨_, rfl, trivial, ?_⟩
    intro j
    by_cases hj : j = key
    · simp [WriteLog.stamps, hj]
    · have hrank : rank j ≠ rank key := fun h => hj (rank_inj h)
      simp [WriteLog.stamps, hj, hrank]
  | dense slotted slots =>
    obtain rfl : slotted = range := hcovers
    refine ⟨.dense slotted (slots.put key hkey (stamp (slots.slot key hkey) ⟨writer, clock⟩)),
      by simp [record, hkey], rfl, ?_⟩
    intro j
    by_cases hj : j ∈ slotted
    · simp [WriteLog.stamps, hj, hkey, Slots.slot_put]
    · have hne : j ≠ key := fun h => hj (h ▸ hkey)
      simp [WriteLog.stamps, hj, hne]

theorem countP_le_stamp (p : Stamp → Bool) (history : List Stamp) (s : Stamp) :
    history.countP p ≤ (stamp history s).countP p := by
  unfold stamp
  split
  · exact Nat.le_refl _
  · rw [List.countP_append]
    exact Nat.le_add_right ..

/-- Stamping the keys of a batch never makes a key look quieter. -/
theorem recordAll_of_covers {log : WriteLog} (hcovers : log.Covers range) {keys : List Key}
    (hkeys : ∀ key ∈ keys, key ∈ range) (writer : ThreadId) (clock : Clock) :
    ∃ log', log.recordAll writer clock keys = .ok () log' ∧ log'.Covers range ∧
      ∀ key reader, log.foreignWrites key reader ≤ log'.foreignWrites key reader := by
  induction keys generalizing log with
  | nil => exact ⟨log, rfl, hcovers, fun _ _ => Nat.le_refl _⟩
  | cons key rest ih =>
    obtain ⟨mid, hmid, hmidcovers, hstamps⟩ :=
      record_of_covers hcovers (hkeys key (List.mem_cons_self ..)) writer clock
    obtain ⟨log', hrest, hlog', hgrow⟩ :=
      ih hmidcovers fun k hk => hkeys k (List.mem_cons_of_mem _ hk)
    refine ⟨log', by rw [recordAll, hmid]; exact hrest, hlog', ?_⟩
    intro k reader
    refine Nat.le_trans ?_ (hgrow k reader)
    unfold foreignWrites
    rw [hstamps k]
    split
    · subst k
      exact countP_le_stamp ..
    · exact Nat.le_refl _

/-! ### Which writes there are -/

theorem nodup_stamp {history : List Stamp} (h : history.Nodup) (s : Stamp) :
    (stamp history s).Nodup := by
  unfold stamp
  split
  case isTrue => exact h
  case isFalse hs =>
    rw [List.nodup_append]
    refine ⟨h, List.nodup_singleton s, ?_⟩
    intro a ha b hb hab
    rw [hab, List.mem_singleton.mp hb] at ha
    exact hs ha

theorem mem_stamp {history : List Stamp} {s r : Stamp} :
    r ∈ stamp history s ↔ r ∈ history ∨ r = s := by
  unfold stamp
  split
  case isTrue hs =>
    constructor
    · exact Or.inl
    · rintro (h | rfl)
      · exact h
      · exact hs
  case isFalse => simp

/-- No key is kept that nothing was written to. -/
def Compact : WriteLog → Prop
  | .sparse stamps => ∀ key, stamps.get? key ≠ some []
  | .dense .. => True

/-- What a log says of itself: each write of a key once, and no key in vain. -/
structure Tidy (log : WriteLog) : Prop where
  once : ∀ key, (log.stamps key).Nodup
  compact : log.Compact

theorem tidy_new {backing : Backing} {log : WriteLog} (h : new backing range = .ok log) :
    log.Tidy ∧ ∀ key, log.stamps key = [] := by
  cases backing with
  | sparse =>
    cases h
    have hnil : ∀ key, (WriteLog.sparse .empty).stamps key = [] := fun _ => rfl
    exact ⟨⟨fun key => by rw [hnil]; exact List.nodup_nil, fun key => by simp⟩, hnil⟩
  | dense =>
    by_cases hwide : range.width > maxDenseKeys
    · rw [new, Slots.filled, if_pos hwide] at h
      cases h
    · rw [new, Slots.filled, if_neg hwide] at h
      cases h
      have hnil : ∀ key, (dense range (Vector.replicate range.width [])).stamps key = [] := by
        intro key
        by_cases hkey : key ∈ range
        · simp [WriteLog.stamps, hkey, Slots.slot, Vector.get]
        · simp [WriteLog.stamps, hkey]
      exact ⟨⟨fun key => by rw [hnil]; exact List.nodup_nil, trivial⟩, hnil⟩

theorem compact_record {log log' : WriteLog} (h : log.Compact) {key : Key} {writer : ThreadId}
    {clock : Clock} (hrecord : log.record key writer clock = .ok () log') : log'.Compact := by
  cases log with
  | sparse stamps =>
    obtain ⟨-, rfl⟩ := Outcome.ok.inj hrecord
    intro j
    rw [SortedMap.get?_alter]
    split
    · intro hnil
      have hmem : (⟨writer, clock⟩ : Stamp) ∈ ([] : List Stamp) := by
        rw [← Option.some.inj hnil]
        exact mem_stamp.mpr (Or.inr rfl)
      cases hmem
    · exact h j
  | dense slotted slots =>
    simp only [record] at hrecord
    split at hrecord
    · obtain ⟨-, rfl⟩ := Outcome.ok.inj hrecord
      trivial
    · cases hrecord

theorem tidy_record {log log' : WriteLog} (hcovers : log.Covers range) (htidy : log.Tidy)
    {key : Key} (hkey : key ∈ range) {writer : ThreadId} {clock : Clock}
    (h : log.record key writer clock = .ok () log') : log'.Tidy := by
  obtain ⟨next, hnext, -, hstamps⟩ := record_of_covers hcovers hkey writer clock
  rw [h] at hnext
  obtain ⟨-, rfl⟩ := Outcome.ok.inj hnext
  refine ⟨?_, compact_record htidy.compact h⟩
  intro j
  rw [hstamps j]
  split
  · exact nodup_stamp (htidy.once key) _
  · exact htidy.once j

theorem tidy_recordAll {log log' : WriteLog} (hcovers : log.Covers range) (htidy : log.Tidy)
    {keys : List Key} (hkeys : ∀ key ∈ keys, key ∈ range) {writer : ThreadId} {clock : Clock}
    (h : log.recordAll writer clock keys = .ok () log') : log'.Tidy := by
  induction keys generalizing log with
  | nil =>
    obtain ⟨-, rfl⟩ := Outcome.ok.inj h
    exact htidy
  | cons head rest ih =>
    have hhead := hkeys head (List.mem_cons_self ..)
    obtain ⟨mid, hmid, hmidcovers, -⟩ := record_of_covers hcovers hhead writer clock
    rw [recordAll, hmid] at h
    exact ih hmidcovers (tidy_record hcovers htidy hhead hmid)
      (fun k hk => hkeys k (List.mem_cons_of_mem _ hk)) h

/-- Stamping a batch adds the one stamp to each of its keys. -/
theorem stamps_recordAll {log log' : WriteLog} (hcovers : log.Covers range)
    {keys : List Key} (hkeys : ∀ key ∈ keys, key ∈ range) {writer : ThreadId} {clock : Clock}
    (h : log.recordAll writer clock keys = .ok () log') (key : Key) (s : Stamp) :
    s ∈ log'.stamps key ↔ s ∈ log.stamps key ∨ (key ∈ keys ∧ s = ⟨writer, clock⟩) := by
  induction keys generalizing log with
  | nil =>
    obtain ⟨-, rfl⟩ := Outcome.ok.inj h
    simp
  | cons head rest ih =>
    obtain ⟨mid, hmid, hmidcovers, hstamps⟩ :=
      record_of_covers hcovers (hkeys head (List.mem_cons_self ..)) writer clock
    rw [recordAll, hmid] at h
    rw [ih hmidcovers (fun k hk => hkeys k (List.mem_cons_of_mem _ hk)) h, hstamps key,
      List.mem_cons]
    by_cases hkey : key = head
    · subst hkey
      rw [if_pos rfl, mem_stamp]
      tauto
    · rw [if_neg hkey]
      tauto

theorem stamps_forgetBelow (log : WriteLog) (low : Clock) (key : Key) :
    (log.forgetBelow low).stamps key = (log.stamps key).filter fun s => decide (low ≤ s.clock) := by
  cases log with
  | sparse stamps =>
    simp only [forgetBelow, WriteLog.stamps, SortedMap.get?_filterMap]
    cases stamps.get? key with
    | none => rfl
    | some history =>
      simp only [Option.bind_some, Option.getD_some]
      split
      case isTrue hempty => exact (List.isEmpty_iff.mp hempty).symm
      case isFalse => rfl
  | dense slotted slots =>
    by_cases hkey : key ∈ slotted
    · simp [forgetBelow, WriteLog.stamps, hkey, Slots.slot, Vector.get]
    · simp [forgetBelow, WriteLog.stamps, hkey]

theorem tidy_forgetBelow {log : WriteLog} (h : log.Tidy) (low : Clock) :
    (log.forgetBelow low).Tidy := by
  constructor
  · intro key
    rw [stamps_forgetBelow]
    exact (h.once key).filter _
  · cases log with
    | sparse stamps =>
      intro key
      rw [SortedMap.get?_filterMap]
      intro hnil
      obtain ⟨history, -, hhistory⟩ := Option.bind_eq_some_iff.mp hnil
      simp only at hhistory
      split at hhistory
      case isTrue => cases hhistory
      case isFalse hne =>
        rw [Option.some.inj hhistory] at hne
        exact hne rfl
    | dense slotted slots => trivial

/-- **The size of a log** is the number of the keys that were written of late. -/
theorem exists_keys_of_tidy {log : WriteLog} (h : log.Tidy) :
    ∃ keys : List Key, keys.Nodup ∧ log.size = keys.length ∧
      ∀ key, key ∈ keys ↔ log.stamps key ≠ [] := by
  cases log with
  | sparse stamps =>
    refine ⟨stamps.keys, stamps.nodup_keys, by simp [size, SortedMap.size, SortedMap.keys], ?_⟩
    intro key
    rw [SortedMap.mem_keys_iff, WriteLog.stamps]
    cases hget : stamps.get? key with
    | none => simp
    | some history =>
      have hne : history ≠ [] := fun hnil => h.compact key (by rw [hget, hnil])
      simp [hne]
  | dense slotted slots =>
    have hslots : slots.toList = (List.finRange slotted.width).map slots.get := by
      apply List.ext_getElem
      · simp
      · intro i h₁ h₂
        simp [Vector.get]
    let written := (List.finRange slotted.width).filter fun i => !(slots.get i).isEmpty
    refine ⟨written.map slotted.keyAt, ?_, ?_, ?_⟩
    · refine ((List.nodup_finRange _).filter _).map ?_
      intro i j hij
      have hoffset := congrArg slotted.offset hij
      rw [Interval.offset_keyAt, Interval.offset_keyAt] at hoffset
      exact Fin.ext hoffset
    · rw [size, ← Vector.countP_toList, hslots, List.countP_map, List.length_map,
        ← List.countP_eq_length_filter]
      rfl
    · intro key
      rw [List.mem_map]
      constructor
      · rintro ⟨i, hi, rfl⟩
        have hmem := slotted.keyAt_mem i
        have hslot : slots.slot (slotted.keyAt i) hmem = slots.get i := by
          simp only [Slots.slot, Interval.offset_keyAt]
        simpa [written, WriteLog.stamps, hmem, hslot] using hi
      · intro hne
        simp only [WriteLog.stamps] at hne
        split at hne
        case isTrue hkey =>
          refine ⟨⟨slotted.offset key, Interval.offset_lt_width hkey⟩, ?_, ?_⟩
          · simpa [written, Slots.slot] using hne
          · apply Interval.offset_inj (slotted.keyAt_mem _) hkey
            rw [Interval.offset_keyAt]
        case isFalse => exact absurd rfl hne

end WriteLog

end ParamServer
