import ParamServer.Store

/-!
# What a store holds

Both layouts are read through one function, `value`, and inside the range that a store covers an
update does to it what it should: the key that is added to changes, all others stay
(`add_of_covers`). A batch is then the sums, key by key, of what it brings for that key. Nothing
here is refused; only an addition that leaves its type stops a batch.
-/

namespace ParamServer

theorem Interval.offset_inj {range : Interval} {j k : Key} (hj : j ∈ range) (hk : k ∈ range)
    (h : range.offset j = range.offset k) : j = k := by
  have hjlo := UInt64.le_iff_toNat_le.mp hj.1
  have hklo := UInt64.le_iff_toNat_le.mp hk.1
  unfold Interval.offset at h
  exact UInt64.toNat_inj.mp (by omega)

theorem Slots.slot_put {α : Type} {range : Interval} (slots : Slots α range) {j k : Key}
    (hj : j ∈ range) (hk : k ∈ range) (a : α) :
    (slots.put k hk a).slot j hj = if j = k then a else slots.slot j hj := by
  have hjwidth := Interval.offset_lt_width hj
  have hkwidth := Interval.offset_lt_width hk
  change (slots.set (range.offset k) a hkwidth)[range.offset j] = _
  rw [Vector.getElem_set]
  by_cases hjk : j = k
  · rw [if_pos hjk, if_pos (by rw [hjk])]
  · rw [if_neg hjk, if_neg fun h => hjk (Interval.offset_inj hk hj h).symm]
    rfl

/-- What a batch brings for one key. -/
def deltasAt {α : Type} (key : Key) (pairs : List (Key × α)) : List α :=
  (pairs.filter fun e => decide (e.1 = key)).map (·.2)

theorem deltasAt_append {α : Type} (key : Key) (front back : List (Key × α)) :
    deltasAt key (front ++ back) = deltasAt key front ++ deltasAt key back := by
  simp [deltasAt]

theorem deltasAt_cons_self {α : Type} (key : Key) (delta : α) (rest : List (Key × α)) :
    deltasAt key ((key, delta) :: rest) = delta :: deltasAt key rest := by
  simp [deltasAt]

theorem deltasAt_cons_of_ne {α : Type} {key k : Key} (h : key ≠ k) (delta : α)
    (rest : List (Key × α)) : deltasAt k ((key, delta) :: rest) = deltasAt k rest := by
  simp [deltasAt, h]

namespace ScalarType

/-- Whole numbers alone leave their type, and there is one way to. -/
theorem fault_of_add {τ : ScalarType} {a b : τ.Value} {why : Fault} (h : τ.add a b = .error why) :
    τ = .integer ∧ why = .addOverflow := by
  cases τ with
  | single => cases h
  | double => cases h
  | integer =>
    simp only [add] at h
    split at h
    · cases h
    · exact ⟨rfl, (Except.error.inj h).symm⟩

theorem fault_of_foldlM {τ : ScalarType} {deltas : List τ.Value} {a : τ.Value} {why : Fault}
    (h : deltas.foldlM τ.add a = .error why) : τ = .integer ∧ why = .addOverflow := by
  induction deltas generalizing a with
  | nil => cases h
  | cons delta rest ih =>
    rw [List.foldlM_cons] at h
    cases hsum : τ.add a delta with
    | error why' =>
      rw [hsum] at h
      obtain rfl := Except.error.inj h
      exact fault_of_add hsum
    | ok sum =>
      rw [hsum] at h
      exact ih h

end ScalarType

namespace Store

variable {τ : ScalarType} {range : Interval}

/-- A dense store must have a slot for every key of the range. -/
def Covers (range : Interval) : Store τ → Prop
  | .sparse _ => True
  | .dense slotted _ => slotted = range

/-- What is stored at a key, zero where the store does not reach. -/
def value (s : Store τ) (key : Key) : τ.Value := (s.read key).toOption.getD τ.zero

theorem covers_new {backing : Backing} {s : Store τ} (h : new τ backing range = .ok s) :
    s.Covers range := by
  cases backing with
  | sparse =>
    cases h
    trivial
  | dense =>
    cases hslots : Slots.filled range τ.zero with
    | error why =>
      rw [new, hslots] at h
      cases h
    | ok slots =>
      rw [new, hslots] at h
      cases h
      rfl

theorem value_new {backing : Backing} {s : Store τ} (h : new τ backing range = .ok s)
    (key : Key) : s.value key = τ.zero := by
  cases backing with
  | sparse =>
    cases h
    simp [value, read, Except.toOption]
  | dense =>
    by_cases hwide : range.width > maxDenseKeys
    · rw [new, Slots.filled, if_pos hwide] at h
      cases h
    · rw [new, Slots.filled, if_neg hwide] at h
      cases h
      by_cases hkey : key ∈ range
      · simp [value, read, hkey, Except.toOption, Slots.slot, Vector.get]
      · simp [value, read, hkey, Except.toOption]

theorem read_of_covers {s : Store τ} (hcovers : s.Covers range) {key : Key} (hkey : key ∈ range) :
    s.read key = .ok (s.value key) := by
  cases s with
  | sparse values => rfl
  | dense slotted slots =>
    obtain rfl : slotted = range := hcovers
    simp [value, read, hkey, Except.toOption]

theorem readAll_of_covers {s : Store τ} (hcovers : s.Covers range) {keys : List Key}
    (hkeys : ∀ key ∈ keys, key ∈ range) : s.readAll keys = .ok (keys.map s.value) := by
  unfold readAll
  induction keys with
  | nil => rfl
  | cons key rest ih =>
    have hrest := ih fun k hk => hkeys k (List.mem_cons_of_mem _ hk)
    rw [List.mapM_cons, read_of_covers hcovers (hkeys key (List.mem_cons_self ..)), hrest]
    rfl

/-- **One update.** It changes its own key, or it leaves the type and stops everything. -/
theorem add_of_covers {s : Store τ} (hcovers : s.Covers range) {key : Key} (hkey : key ∈ range)
    (delta : τ.Value) :
    (∃ sum s', τ.add (s.value key) delta = .ok sum ∧ s.add key delta = .ok () s' ∧
      s'.Covers range ∧ ∀ j ∈ range, s'.value j = if j = key then sum else s.value j) ∨
    ∃ why, τ.add (s.value key) delta = .error why ∧ s.add key delta = .fault why := by
  cases s with
  | sparse values =>
    have hvalue : (sparse values).value key = (values.get? key).getD τ.zero := rfl
    cases hsum : τ.add ((values.get? key).getD τ.zero) delta with
    | error why =>
      right
      exact ⟨why, by rw [hvalue, hsum], by simp [add, hsum]⟩
    | ok sum =>
      left
      refine ⟨sum, sparse (values.insert key sum), by rw [hvalue, hsum], by simp [add, hsum],
        trivial, ?_⟩
      intro j _
      by_cases hj : j = key
      · simp [value, read, Except.toOption, hj]
      · have hrank : rank j ≠ rank key := fun h => hj (rank_inj h)
        simp [value, read, Except.toOption, hj, hrank]
  | dense slotted slots =>
    obtain rfl : slotted = range := hcovers
    have hvalue : ∀ j (hj : j ∈ slotted) (slots : Slots τ.Value slotted),
        (dense slotted slots).value j = slots.slot j hj := by
      intro j hj slots
      simp [value, read, hj, Except.toOption]
    cases hsum : τ.add (slots.slot key hkey) delta with
    | error why =>
      right
      exact ⟨why, by rw [hvalue key hkey, hsum], by simp [add, hkey, hsum]⟩
    | ok sum =>
      left
      refine ⟨sum, dense slotted (slots.put key hkey sum), by rw [hvalue key hkey, hsum],
        by simp [add, hkey, hsum], rfl, ?_⟩
      intro j hj
      rw [hvalue j hj, hvalue j hj, Slots.slot_put]

/-- **A batch.** Every key ends up with what it had and what the batch brings for it, unless that
leaves the type at some key. -/
theorem addAll_of_covers {s : Store τ} (hcovers : s.Covers range) {pairs : List (Key × τ.Value)}
    (hpairs : ∀ e ∈ pairs, e.1 ∈ range) :
    (∃ s', s.addAll pairs = .ok () s' ∧ s'.Covers range ∧
      ∀ k ∈ range, (deltasAt k pairs).foldlM τ.add (s.value k) = .ok (s'.value k)) ∨
    ∃ why, s.addAll pairs = .fault why ∧
      ∃ k ∈ range, (deltasAt k pairs).foldlM τ.add (s.value k) = .error why := by
  induction pairs generalizing s with
  | nil => exact Or.inl ⟨s, rfl, hcovers, fun _ _ => rfl⟩
  | cons head rest ih =>
    obtain ⟨key, delta⟩ := head
    have hkey : key ∈ range := hpairs _ (List.mem_cons_self ..)
    rcases add_of_covers hcovers hkey delta with
      ⟨sum, mid, hsum, hadd, hmid, hvalue⟩ | ⟨why, hsum, hadd⟩
    · -- The first update is done, so what is left to sum up starts from the store it leaves.
      have hfirst : ∀ k ∈ range, (deltasAt k ((key, delta) :: rest)).foldlM τ.add (s.value k) =
          (deltasAt k rest).foldlM τ.add (mid.value k) := by
        intro k hk
        rw [hvalue k hk]
        by_cases hkk : key = k
        · subst hkk
          rw [deltasAt_cons_self, List.foldlM_cons, hsum, if_pos rfl]
          rfl
        · rw [deltasAt_cons_of_ne hkk, if_neg fun h => hkk h.symm]
      rcases ih hmid fun e he => hpairs e (List.mem_cons_of_mem _ he) with
        ⟨s', hrest, hs', hfold⟩ | ⟨why, hrest, k, hk, hfold⟩
      · left
        exact ⟨s', by rw [addAll, hadd]; exact hrest, hs',
          fun k hk => (hfirst k hk).trans (hfold k hk)⟩
      · right
        exact ⟨why, by rw [addAll, hadd]; exact hrest, k, hk, (hfirst k hk).trans hfold⟩
    · right
      refine ⟨why, by rw [addAll, hadd]; rfl, key, hkey, ?_⟩
      rw [deltasAt_cons_self, List.foldlM_cons, hsum]
      rfl

theorem addAll_ok {s s' : Store τ} (hcovers : s.Covers range) {pairs : List (Key × τ.Value)}
    (hpairs : ∀ e ∈ pairs, e.1 ∈ range) (h : s.addAll pairs = .ok () s') :
    s'.Covers range ∧
      ∀ k ∈ range, (deltasAt k pairs).foldlM τ.add (s.value k) = .ok (s'.value k) := by
  rcases addAll_of_covers hcovers hpairs with ⟨s'', hs'', hrest⟩ | ⟨why, hfault, -⟩
  · rw [h] at hs''
    cases hs''
    exact hrest
  · rw [h] at hfault
    cases hfault

/-- Whether a batch takes what is stored at some key out of its type. -/
def Overflows (range : Interval) (s : Store τ) (pairs : List (Key × τ.Value)) : Prop :=
  ∃ key ∈ range, ∃ why, (deltasAt key pairs).foldlM τ.add (s.value key) = .error why

theorem integer_of_overflows {s : Store τ} {pairs : List (Key × τ.Value)}
    (h : s.Overflows range pairs) : τ = .integer := by
  obtain ⟨_, _, _, hfold⟩ := h
  exact (ScalarType.fault_of_foldlM hfold).1

theorem overflows_congr {s s' : Store τ} {pairs : List (Key × τ.Value)}
    (h : ∀ key ∈ range, s'.value key = s.value key) :
    s'.Overflows range pairs ↔ s.Overflows range pairs := by
  constructor
  · rintro ⟨key, hkey, why, hwhy⟩
    exact ⟨key, hkey, why, by rwa [← h key hkey]⟩
  · rintro ⟨key, hkey, why, hwhy⟩
    exact ⟨key, hkey, why, by rwa [h key hkey]⟩

theorem addAll_cases {s : Store τ} (hcovers : s.Covers range) {pairs : List (Key × τ.Value)}
    (hpairs : ∀ e ∈ pairs, e.1 ∈ range) :
    (¬s.Overflows range pairs ∧ ∃ s', s.addAll pairs = .ok () s') ∨
      (s.Overflows range pairs ∧ s.addAll pairs = .fault .addOverflow) := by
  rcases addAll_of_covers hcovers hpairs with ⟨s', hs', -, hfold⟩ | ⟨why, hfault, k, hk, hfold⟩
  · refine Or.inl ⟨?_, s', hs'⟩
    rintro ⟨key, hkey, why, hwhy⟩
    rw [hfold key hkey] at hwhy
    cases hwhy
  · obtain ⟨-, rfl⟩ := ScalarType.fault_of_foldlM hfold
    exact Or.inr ⟨⟨k, hk, _, hfold⟩, hfault⟩

/-- A batch whose sums all stay within the type is carried out. -/
theorem addAll_of_sums {s : Store τ} (hcovers : s.Covers range) {pairs : List (Key × τ.Value)}
    (hpairs : ∀ e ∈ pairs, e.1 ∈ range)
    (hsums : ∀ k ∈ range, ∃ v, (deltasAt k pairs).foldlM τ.add (s.value k) = .ok v) :
    ∃ s', s.addAll pairs = .ok () s' := by
  rcases addAll_of_covers hcovers hpairs with ⟨s', hs', -⟩ | ⟨why, -, k, hk, hfold⟩
  · exact ⟨s', hs'⟩
  · obtain ⟨v, hv⟩ := hsums k hk
    rw [hfold] at hv
    cases hv

end Store

end ParamServer
