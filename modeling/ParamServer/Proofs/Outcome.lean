import Mathlib.Data.List.Forall2
import ParamServer.Error

/-!
# How computations end

Computations are chained, and one that ends well has done so at every link.
-/

namespace ParamServer

namespace Outcome

variable {σ ρ α β : Type} {a : α} {why : Error} {s s' : σ}

/-- The operation has ended, well or badly, and has left `s` behind. -/
def Leaves (o : Outcome σ α) (s : σ) : Prop := (∃ a, o = .ok a s) ∨ ∃ why, o = .error why s

@[simp] theorem leaves_ok : (ok a s : Outcome σ α).Leaves s' ↔ s' = s := by
  simp [Leaves, eq_comm]

@[simp] theorem leaves_error : (error why s : Outcome σ α).Leaves s' ↔ s' = s := by
  simp [Leaves, eq_comm]

@[simp] theorem leaves_fault {why : Fault} : (fault why : Outcome σ α).Leaves s ↔ False := by
  simp [Leaves]

theorem exists_of_leaves_mapState {o : Outcome σ α} {f : σ → ρ} {r : ρ}
    (h : (o.mapState f).Leaves r) : ∃ s, o.Leaves s ∧ r = f s := by
  cases o with
  | ok a s => exact ⟨s, leaves_ok.mpr rfl, leaves_ok.mp h⟩
  | error why s => exact ⟨s, leaves_error.mpr rfl, leaves_error.mp h⟩
  | fault why => exact (leaves_fault.mp h).elim

theorem exists_of_leaves_bind {o : Outcome σ α} {f : α → σ → Outcome σ β}
    (h : (o.bind f).Leaves s) :
    (∃ why, o = .error why s) ∨ ∃ a s', o = .ok a s' ∧ (f a s').Leaves s := by
  cases o with
  | ok a s' => exact Or.inr ⟨a, s', rfl, h⟩
  | error why s' => exact Or.inl ⟨why, by rw [leaves_error.mp h]⟩
  | fault why => exact (leaves_fault.mp h).elim

end Outcome

theorem exists_of_bind {ε α β : Type} {x : Except ε α} {f : α → Except ε β} {b : β}
    (h : x >>= f = .ok b) : ∃ a, x = .ok a ∧ f a = .ok b := by
  cases x with
  | error why => cases h
  | ok a => exact ⟨a, rfl, h⟩

theorem ok_of_lift {α : Type} {x : Except Error α} {a : α} (h : (liftM x : Attempt α) = .ok a) :
    x = .ok a := by
  cases x with
  | error why => cases h
  | ok b => rw [Except.ok.inj h]

theorem forall₂_of_mapM {ε α β : Type} {f : α → Except ε β} {l : List α} {r : List β}
    (h : l.mapM f = .ok r) : List.Forall₂ (fun a b => f a = .ok b) l r := by
  induction l generalizing r with
  | nil =>
    obtain rfl := Except.ok.inj h
    exact .nil
  | cons a rest ih =>
    rw [List.mapM_cons] at h
    obtain ⟨b, hone, hlater⟩ := exists_of_bind h
    obtain ⟨later, hrest, hsame⟩ := exists_of_bind hlater
    obtain rfl := Except.ok.inj hsame
    exact .cons hone (ih hrest)

theorem mapM_eq_ok {ε α β : Type} {f : α → Except ε β} {g : α → β} {l : List α}
    (h : ∀ a ∈ l, f a = .ok (g a)) : l.mapM f = .ok (l.map g) := by
  induction l with
  | nil => rfl
  | cons a rest ih =>
    obtain ⟨hone, hrest⟩ := List.forall_mem_cons.mp h
    rw [List.mapM_cons, hone, ih hrest]
    rfl

/-- If all links that fail do so alike, it is no matter which is the first. -/
theorem mapM_eq_error {ε α β : Type} {f : α → Except ε β} {why : ε} {l : List α}
    (h : ∀ a ∈ l, f a = .error why ∨ ∃ b, f a = .ok b) {a : α} (ha : a ∈ l)
    (hfails : f a = .error why) : l.mapM f = .error why := by
  induction l with
  | nil => cases ha
  | cons first rest ih =>
    obtain ⟨hfirst, hrest⟩ := List.forall_mem_cons.mp h
    rw [List.mapM_cons]
    rcases hfirst with herror | ⟨b, hok⟩
    · rw [herror]
      rfl
    · have hlater : a ∈ rest := (List.mem_cons.mp ha).resolve_left fun hsame => by
        rw [← hsame, hfails] at hok
        cases hok
      rw [hok, ih hrest hlater]
      rfl

end ParamServer
