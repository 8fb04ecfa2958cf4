import Mathlib.Data.List.Forall2
import ParamServer.Proofs.Tablet.Run

/-!
# Two tablets side by side

Two tablets that are sent the same messages. A refusal has to do with the message, the shard and the
roster, so tablets that agree on these refuse the same messages for the same reasons, and it remains
to compare what they do with the updates and reads that they take in and with a minimum that rises
(`handle_alike`). What is so for each message is so for a sequence of them, of any length
(`run_alike`).
-/

namespace ParamServer

/-- Both outcomes are good, or bad for the same reason. Answers are related by `A` and what is left
behind by `R`. -/
inductive Outcome.Alike {σ ρ α β : Type} (A : α → β → Prop) (R : σ → ρ → Prop) :
    Outcome σ α → Outcome ρ β → Prop
  | ok {a : α} {b : β} {s : σ} {r : ρ} (hanswer : A a b) (hstate : R s r) :
      Alike A R (.ok a s) (.ok b r)
  | error {why : Error} {s : σ} {r : ρ} (hstate : R s r) : Alike A R (.error why s) (.error why r)
  | fault {why : Fault} : Alike A R (.fault why) (.fault why)

namespace Outcome

variable {σ ρ α β : Type}

theorem Alike.map {γ δ : Type} {A : α → β → Prop} {B : γ → δ → Prop} {R : σ → ρ → Prop}
    {o : Outcome σ α} {o' : Outcome ρ β} (h : o.Alike A R o') {f : α → γ} {g : β → δ}
    (hmap : ∀ a b, A a b → B (f a) (g b)) : (o.map f).Alike B R (o'.map g) := by
  cases h with
  | ok hanswer hstate => exact .ok (hmap _ _ hanswer) hstate
  | error hstate => exact .error hstate
  | fault => exact .fault

theorem Alike.exists_eq_ok {A : α → β → Prop} {R : σ → ρ → Prop} {a : α} {s : σ}
    {o' : Outcome ρ β} (h : (Outcome.ok a s).Alike A R o') : ∃ b r, o' = .ok b r ∧ A a b ∧ R s r := by
  cases h with
  | ok hanswer hstate => exact ⟨_, _, rfl, hanswer, hstate⟩

theorem Alike.eq_fault {A : α → β → Prop} {R : σ → ρ → Prop} {why : Fault}
    {o' : Outcome ρ β} (h : (Outcome.fault why : Outcome σ α).Alike A R o') : o' = .fault why := by
  cases h
  rfl

theorem alike_mapState {υ : Type} {R : ρ → υ → Prop} {f : σ → ρ} {g : σ → υ}
    (o : Outcome σ α) (h : ∀ s, R (f s) (g s)) : (o.mapState f).Alike Eq R (o.mapState g) := by
  cases o with
  | ok a s => exact .ok rfl (h s)
  | error why s => exact .error (h s)
  | fault why => exact .fault

end Outcome

variable {τ : ScalarType} {A : List Message → List Message → Prop} {R : Tablet τ → Tablet τ → Prop}

structure Step.Alike (A : List Message → List Message → Prop) (R : Tablet τ → Tablet τ → Prop)
    (a b : Step τ) : Prop where
  message_eq : b.message = a.message
  verdict : (∃ why, a.verdict = .error why ∧ b.verdict = .error why) ∨
    ∃ replies replies', a.verdict = .ok replies ∧ b.verdict = .ok replies' ∧ A replies replies'
  after : R a.after b.after

theorem Step.Alike.took_eq {a b : Step τ} (h : a.Alike A R b) (op : Op) :
    b.took op = a.took op := by
  unfold took
  rw [h.message_eq]
  rcases h.verdict with ⟨why, ha, hb⟩ | ⟨_, _, ha, hb, -⟩
  · rw [ha, hb]
  · rw [ha, hb]
    rfl

theorem Step.Alike.verdict_eq {a b : Step τ} (h : a.Alike Eq R b) : b.verdict = a.verdict := by
  rcases h.verdict with ⟨why, ha, hb⟩ | ⟨_, _, ha, hb, rfl⟩ <;> rw [ha, hb]

namespace Tablet

variable {t u : Tablet τ}

theorem step_alike {m : Message} (h : (t.handle m).Alike A R (u.handle m)) :
    (∃ why, t.step m = .error why ∧ u.step m = .error why) ∨
      ∃ s s', t.step m = .ok s ∧ u.step m = .ok s' ∧ s.Alike A R s' := by
  unfold step
  generalize t.handle m = o, u.handle m = o' at h
  cases h with
  | ok hanswer hstate =>
    exact Or.inr ⟨_, _, rfl, rfl, rfl, Or.inr ⟨_, _, rfl, rfl, hanswer⟩, hstate⟩
  | error hstate => exact Or.inr ⟨_, _, rfl, rfl, rfl, Or.inl ⟨_, rfl, rfl⟩, hstate⟩
  | fault => exact Or.inl ⟨_, rfl, rfl⟩

/-- **Any sequence of messages.** -/
theorem run_alike {spec spec' : TableSpec} {range : Interval}
    (hhandle : ∀ {t u : Tablet τ}, t.Serves spec range → u.Serves spec' range → R t u →
      ∀ m, (t.handle m).Alike A R (u.handle m))
    (ht : t.Serves spec range) (hu : u.Serves spec' range) (h : R t u) (ms : List Message) :
    (∃ why, t.run ms = .error why ∧ u.run ms = .error why) ∨
      ∃ steps steps', t.run ms = .ok steps ∧ u.run ms = .ok steps' ∧
        List.Forall₂ (Step.Alike A R) steps steps' := by
  induction ms generalizing t u with
  | nil => exact Or.inr ⟨[], [], rfl, rfl, .nil⟩
  | cons m rest ih =>
    unfold run
    rcases step_alike (hhandle ht hu h m) with ⟨why, hfault, hfault'⟩ | ⟨s, s', hs, hs', halike⟩
    · rw [hfault, hfault']
      exact Or.inl ⟨why, rfl, rfl⟩
    · rw [hs, hs']
      rcases ih (serves_of_step ht hs) (serves_of_step hu hs') halike.after with
        ⟨why, hrest, hrest'⟩ | ⟨steps, steps', hrest, hrest', hall⟩
      · simp only [hrest, hrest']
        exact Or.inl ⟨why, rfl, rfl⟩
      · simp only [hrest, hrest']
        exact Or.inr ⟨_, _, rfl, rfl, .cons halike hall⟩

/-- Two runs look the same if what is seen of a step depends only on what is alike. -/
theorem run_map_eq {spec spec' : TableSpec} {range : Interval}
    (hhandle : ∀ {t u : Tablet τ}, t.Serves spec range → u.Serves spec' range → R t u →
      ∀ m, (t.handle m).Alike A R (u.handle m))
    (ht : t.Serves spec range) (hu : u.Serves spec' range) (h : R t u) {β : Type}
    {f g : Step τ → β} (hseen : ∀ a b, a.Alike A R b → f a = g b) (ms : List Message) :
    (t.run ms).map (List.map f) = (u.run ms).map (List.map g) := by
  rcases run_alike hhandle ht hu h ms with
    ⟨why, hrun, hrun'⟩ | ⟨steps, steps', hrun, hrun', halike⟩
  · rw [hrun, hrun']
    rfl
  · have heq : steps.map f = steps'.map g := by
      rw [← List.forall₂_eq_eq_eq, List.forall₂_map_left_iff, List.forall₂_map_right_iff]
      exact halike.imp hseen
    rw [hrun, hrun']
    exact congrArg Except.ok heq

section Handle

variable (m : Message) (hrefl : ∀ replies, A replies replies) (h : R t u)
  (hshard : u.slice.shard = t.slice.shard) (hrange : u.slice.range = t.slice.range)
  (hroster : u.slice.roster = t.slice.roster)

include hrefl h hshard hrange hroster

/-- **One message.** -/
theorem handle_alike
    (hmoved : ∀ roster, R ⟨{ t.slice with roster }, t.gate⟩ ⟨{ u.slice with roster }, u.gate⟩)
    (hadd : ∀ roster, m.AddsIn τ t.slice.range → t.slice.roster.enrol m.sender = .ok roster →
      (t.onAdd m).Alike Eq R (u.onAdd m))
    (hget : ∀ roster, m.ReadsIn t.slice.range → t.slice.roster.enrol m.sender = .ok roster →
      (t.onGet m).Alike (fun a b => A a.toList b.toList) R (u.onGet m))
    (hrelease : ∀ roster low, (release ⟨{ t.slice with roster }, t.gate⟩ low).Alike A R
      (release ⟨{ u.slice with roster }, u.gate⟩ low)) :
    (t.handle m).Alike A R (u.handle m) := by
  unfold handle
  cases hop : m.op with
  | add =>
    refine Outcome.Alike.map (A := Eq) ?_ fun _ _ _ => hrefl []
    cases haccept : t.slice.acceptAdd m with
    | error why =>
      simp only [onAdd, haccept, Slice.acceptAdd_eq_error hshard hrange hroster haccept]
      exact .error h
    | ok slice =>
      obtain ⟨hadds, roster, henrol, -⟩ := Slice.acceptAdd_eq_ok_iff.mp haccept
      exact hadd roster hadds henrol
  | get =>
    refine Outcome.Alike.map (A := fun a b => A a.toList b.toList) ?_ fun _ _ hanswer => hanswer
    cases haccept : t.slice.acceptGet m with
    | error why =>
      simp only [onGet, haccept, Slice.acceptGet_eq_error hshard hrange hroster haccept]
      exact .error h
    | ok slice =>
      obtain ⟨hreads, roster, henrol, -⟩ := Slice.acceptGet_eq_ok_iff.mp haccept
      exact hget roster hreads henrol
  | clock =>
    simp only [onClock, hroster]
    cases hadvance : t.slice.roster.advance m.sender m.clock with
    | error why => exact .error h
    | ok advanced =>
      obtain ⟨risen, roster⟩ := advanced
      cases risen with
      | none => exact .ok (hrefl []) (hmoved roster)
      | some low => exact hrelease roster low
  | resetWorkers =>
    simp only [onReset, Slice.resetWorkers, hroster]
    cases hkeys : Slice.keysOf m with
    | error why => exact .error h
    | ok keys =>
      simp only [bind, Except.bind]
      cases keys.mapM Slice.workerId with
      | error why => exact .error h
      | ok workers => exact .ok (hrefl [m.reply]) (hmoved _)
  | response => exact .error h

end Handle

/-! ### Tablets with the same content -/

/-- The same store and the same roster, and `P` of the gates and of what waits. -/
structure Level (P : Gate → Gate → Waitlist → Waitlist → Prop) (t u : Tablet τ) : Prop where
  slice_eq : ∃ waiting, u.slice = { t.slice with waiting }
  kept : P t.gate u.gate t.slice.waiting u.slice.waiting

/-- What is stored, and who is where, does not depend on what waits. -/
theorem handle_level {P : Gate → Gate → Waitlist → Waitlist → Prop} (ht : t.Sound) (hu : u.Sound)
    (h : t.Level P u) (m : Message) (hrefl : ∀ replies, A replies replies)
    (hopen : t.gate ≠ .barrier ∧ u.gate ≠ .barrier)
    (hnote : P (t.gate.note m) (u.gate.note m) t.slice.waiting u.slice.waiting)
    (hget : ∀ roster, m.ReadsIn t.slice.range → t.slice.roster.enrol m.sender = .ok roster →
      (t.onGet m).Alike (fun a b => A a.toList b.toList) (Level P) (u.onGet m))
    (hrelease : ∀ roster low, (release ⟨{ t.slice with roster }, t.gate⟩ low).Alike A (Level P)
      (release ⟨{ u.slice with roster }, u.gate⟩ low)) :
    (t.handle m).Alike A (Level P) (u.handle m) := by
  have hsame := h
  obtain ⟨⟨waiting, hslice⟩, hkept⟩ := h
  obtain ⟨slice, gate⟩ := u
  obtain rfl : slice = { t.slice with waiting } := hslice
  refine handle_alike m hrefl hsame rfl rfl rfl (fun roster => ⟨⟨waiting, rfl⟩, hkept⟩) ?_ hget
    hrelease
  intro roster hadds henrol
  rw [onAdd_eq ht m hadds henrol fun hbarrier => absurd hbarrier hopen.1,
    onAdd_eq hu m hadds henrol fun hbarrier => absurd hbarrier hopen.2]
  exact Outcome.alike_mapState _ fun store => ⟨⟨waiting, rfl⟩, hnote⟩

end Tablet

end ParamServer
