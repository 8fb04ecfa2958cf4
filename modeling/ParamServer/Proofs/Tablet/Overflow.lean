import Mathlib.Algebra.BigOperators.Group.List.Basic
import Mathlib.Algebra.GroupWithZero.Nat
import ParamServer.Proofs.Tablet.Barrier
import ParamServer.Proofs.Tablet.Refusal

/-!
# How far sums can go

Nothing but a sum of integers can break a tablet, and a sum is made of what was sent. The strain on
a key, all that is brought for it with its sign dropped, bounds every partial sum in whatever order
the updates land. So as long as the strain on each key stays below `2 ^ 63`, no message breaks the
tablet, be it refused, answered or kept waiting (`exists_run_of_strain`).
-/

namespace ParamServer

variable {τ : ScalarType}

namespace ScalarType

/-- How far from zero a value is. Floating point never leaves its type, however far. -/
def magnitude : (τ : ScalarType) → τ.Value → Nat
  | .single, _ => 0
  | .double, _ => 0
  | .integer, v => Int64.toInt v |>.natAbs

theorem magnitude_zero (τ : ScalarType) : τ.magnitude τ.zero = 0 := by
  cases τ <;> rfl

theorem exists_add {a b : τ.Value} (h : τ.magnitude a + τ.magnitude b < 2 ^ 63) :
    ∃ c, τ.add a b = .ok c ∧ τ.magnitude c ≤ τ.magnitude a + τ.magnitude b := by
  cases τ with
  | single => exact ⟨_, rfl, Nat.zero_le _⟩
  | double => exact ⟨_, rfl, Nat.zero_le _⟩
  | integer =>
    have hmin : Int64.minValue.toInt = -2 ^ 63 := rfl
    have hmax : Int64.maxValue.toInt = 2 ^ 63 - 1 := rfl
    simp only [magnitude] at h ⊢
    have hfits : Int64.minValue.toInt ≤ Int64.toInt a + Int64.toInt b ∧
        Int64.toInt a + Int64.toInt b ≤ Int64.maxValue.toInt := by omega
    have hsum : integer.add a b = .ok (Int64.ofInt (Int64.toInt a + Int64.toInt b)) := if_pos hfits
    refine ⟨_, hsum, ?_⟩
    rw [toInt_add hsum]
    exact Int.natAbs_add_le ..

/-- The sum of the magnitudes keeps every partial sum within the type. -/
theorem exists_foldlM {deltas : List τ.Value} {a : τ.Value}
    (h : τ.magnitude a + (deltas.map τ.magnitude).sum < 2 ^ 63) :
    ∃ v, deltas.foldlM τ.add a = .ok v := by
  induction deltas generalizing a with
  | nil => exact ⟨a, rfl⟩
  | cons delta rest ih =>
    rw [List.map_cons, List.sum_cons] at h
    obtain ⟨sum, hsum, hle⟩ := exists_add (show τ.magnitude a + τ.magnitude delta < 2 ^ 63 by omega)
    rw [List.foldlM_cons, hsum]
    exact ih (by omega)

end ScalarType

namespace Message

/-- All that updates bring for a key, with its sign dropped. -/
def strainAt (τ : ScalarType) (key : Key) (ms : List Message) : Nat :=
  ((deltasAt key (ms.flatMap (·.updates τ))).map τ.magnitude).sum

theorem strainAt_append (key : Key) (front back : List Message) :
    strainAt τ key (front ++ back) = strainAt τ key front + strainAt τ key back := by
  rw [strainAt, List.flatMap_append, deltasAt_append, List.map_append, List.sum_append]
  rfl

theorem strainAt_perm (key : Key) {front back : List Message} (h : front.Perm back) :
    strainAt τ key front = strainAt τ key back :=
  ((deltasAt_perm key h).map τ.magnitude).sum_eq

theorem strainAt_filter_le (key : Key) (p : Message → Bool) (ms : List Message) :
    strainAt τ key (ms.filter p) ≤ strainAt τ key ms := by
  calc strainAt τ key (ms.filter p)
      ≤ strainAt τ key (ms.filter p) + strainAt τ key (ms.filter fun m => !p m) :=
        Nat.le_add_right ..
    _ = strainAt τ key (ms.filter p ++ ms.filter fun m => !p m) := (strainAt_append ..).symm
    _ = strainAt τ key ms := strainAt_perm key (List.filter_append_perm p ms)

end Message

namespace Tablet

variable {spec : TableSpec} {range : Interval} {t : Tablet τ} {m : Message}
  {landed adds : List Message}

/-- **What breaks a tablet** is a sum, and nothing else. -/
theorem fault_iff (hs : t.Sound) {why : Fault} :
    t.handle m = .fault why ↔ why = .addOverflow ∧ t.Admits m ∧ t.Overflows m := by
  constructor
  · intro h
    have hadmits := admits_of_fault hs h
    rcases handle_of_admits hs hadmits with ⟨-, _, _, hok⟩ | ⟨hlarge, hfault⟩
    · rw [h] at hok
      cases hok
    · rw [h] at hfault
      exact ⟨Outcome.fault.inj hfault, hadmits, hlarge⟩
  · rintro ⟨rfl, hadmits, hlarge⟩
    rcases handle_of_admits hs hadmits with ⟨hfit, -⟩ | ⟨-, hfault⟩
    · exact absurd hlarge hfit
    · exact hfault

theorem strainAt_landing_le (t : Tablet τ) (m : Message) (key : Key) :
    Message.strainAt τ key (t.landing m) ≤
      Message.strainAt τ key (t.slice.waiting.asking .add) +
        Message.strainAt τ key ([m].filter fun m => decide (m.op = .add)) := by
  unfold landing
  cases hop : m.op with
  | add =>
    simp only [hop, decide_true, List.filter_cons_of_pos, List.filter_nil]
    have hnone : Message.strainAt τ key [] = 0 := rfl
    split
    · split <;> omega
    · omega
  | clock =>
    simp only
    split
    · exact Nat.le_add_right_of_le (Message.strainAt_filter_le ..)
    · exact Nat.zero_le _
  | _ => exact Nat.zero_le _

theorem not_overflows_of_strain (hs : t.Serves spec range) (h : t.Books range landed adds)
    (hstrain : ∀ key ∈ range, Message.strainAt τ key
      (adds ++ [m].filter fun m => decide (m.op = .add)) < 2 ^ 63) : ¬t.Overflows m := by
  rintro ⟨key, hkey, why, hwhy⟩
  rw [hs.range_eq] at hkey
  have hall := Message.strainAt_perm (τ := τ) key h.all
  have hlanding := t.strainAt_landing_le m key
  have hbound := hstrain key hkey
  rw [Message.strainAt_append] at hall hbound
  have hfold : (deltasAt key ((landed ++ t.landing m).flatMap (·.updates τ))).foldlM τ.add τ.zero =
      .error why := by
    rw [List.flatMap_append, deltasAt_append, List.foldlM_append, h.sums key hkey]
    exact hwhy
  -- The value that is there is itself a sum of what landed, and that is part of the strain.
  obtain ⟨v, hv⟩ : ∃ v, (deltasAt key ((landed ++ t.landing m).flatMap (·.updates τ))).foldlM
      τ.add τ.zero = .ok v := by
    apply ScalarType.exists_foldlM
    have hsplit := Message.strainAt_append (τ := τ) key landed (t.landing m)
    rw [Message.strainAt] at hsplit
    rw [τ.magnitude_zero, hsplit]
    omega
  rw [hfold] at hv
  cases hv

theorem exists_step (hs : t.Sound) (hfit : ¬t.Overflows m) : ∃ s, t.step m = .ok s := by
  unfold step
  rcases handle_cases hs m with ⟨why, h⟩ | ⟨why, h⟩ | ⟨replies, t', h, -⟩
  · exact ⟨_, by rw [h]⟩
  · exact absurd ((fault_iff hs).mp h).2.2 hfit
  · exact ⟨_, by rw [h]⟩

theorem run_of_strain (hs : t.Serves spec range) (h : t.Books range landed adds)
    {ms : List Message} (hstrain : ∀ key ∈ range, Message.strainAt τ key
      (adds ++ ms.filter fun m => decide (m.op = .add)) < 2 ^ 63) :
    ∃ steps, t.run ms = .ok steps := by
  induction ms generalizing t landed adds with
  | nil => exact ⟨[], rfl⟩
  | cons m rest ih =>
    have hsplit : (m :: rest).filter (fun m => decide (m.op = .add)) =
        ([m].filter fun m => decide (m.op = .add)) ++
          rest.filter fun m => decide (m.op = .add) :=
      List.filter_append (p := fun m => decide (m.op = .add)) [m] rest
    have hhead : ¬t.Overflows m := by
      refine not_overflows_of_strain hs h fun key hkey => ?_
      have hbound := hstrain key hkey
      rw [hsplit, Message.strainAt_append, Message.strainAt_append] at hbound
      rw [Message.strainAt_append]
      omega
    obtain ⟨s, hstep⟩ := exists_step hs.toSound hhead
    obtain ⟨more, -, hbooks⟩ := books_of_step hs h hstep
    have htaken : ∀ key, Message.strainAt τ key (Step.taken .add [s]) ≤
        Message.strainAt τ key ([m].filter fun m => decide (m.op = .add)) := by
      intro key
      by_cases htook : s.took .add = true
      · have hop : m.op = .add := message_of_step hstep ▸ Step.op_of_took htook
        simp [Step.taken, htook, message_of_step hstep, hop]
      · have hnone : Step.taken .add [s] = [] := by simp [Step.taken, htook]
        rw [hnone]
        exact Nat.zero_le _
    obtain ⟨later, hlater⟩ := ih (serves_of_step hs hstep) hbooks fun key hkey => by
      have hbound := hstrain key hkey
      have hle := htaken key
      simp only [hsplit, Message.strainAt_append] at hbound ⊢
      omega
    exact ⟨s :: later, run_cons_iff.mpr ⟨s, later, hstep, hlater, rfl⟩⟩

/-- **A budget.** Whatever is sent to a new tablet, in whatever order and by whomever: where the
strain of all updates on each key is below `2 ^ 63`, each message is taken in or refused. -/
theorem exists_run_of_strain {table : TableId} {shard : ThreadId} {fresh : Tablet τ}
    (hnew : Tablet.new τ spec table shard range = .ok fresh) {ms : List Message}
    (hstrain : ∀ key ∈ range,
      Message.strainAt τ key (ms.filter fun m => decide (m.op = .add)) < 2 ^ 63) :
    ∃ steps, fresh.run ms = .ok steps :=
  run_of_strain (serves_new hnew) (books_of_new hnew) hstrain

end Tablet

end ParamServer
