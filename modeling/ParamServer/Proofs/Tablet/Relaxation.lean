import ParamServer.Proofs.Tablet.Answers
import ParamServer.Proofs.Tablet.Lockstep

/-!
# Looser bounds never delay a read

Two speculative tablets with bounds of their own. They hold back different reads, and under different
clocks, but what they store, log and know of their workers does not depend on that. So after the same
messages the rule of the looser one is content with every read that the rule of the stricter one is
content with (`ready_of_level`). Each tablet answers a read as soon as its rule is content
(`prompt_of_run`), so the looser one is never later.
-/

namespace ParamServer

variable {τ : ScalarType}

def Gate.log? : Gate → Option WriteLog
  | .speculative _ _ log => some log
  | _ => none

/-- Each step answers the reads that it is the opening of, and no others. -/
def TableSpec.Prompt (spec : TableSpec) (steps : List (Step τ)) : Prop :=
  ∀ front s back, steps = front ++ s :: back →
    s.answers.Perm (((Step.reads steps).filter fun e =>
      decide (spec.opening steps e.1 e.2 = some front.length)).map
        fun e => e.2.answerFrom s.after.slice.store)

/-- The same in everything but what waits. -/
structure Tablet.Agrees (t u : Tablet τ) : Prop where
  store_eq : u.slice.store = t.slice.store
  roster_eq : u.slice.roster = t.slice.roster
  log_eq : u.gate.log? = t.gate.log?

/-- The same message, taken in by both tablets or refused by both for the same reason. -/
structure Step.Matches (a b : Step τ) : Prop where
  message_eq : b.message = a.message
  refusal : ∀ why, b.verdict = .error why ↔ a.verdict = .error why
  after : a.after.Agrees b.after

namespace Step

variable {A : List Message → List Message → Prop} {R : Tablet τ → Tablet τ → Prop}

theorem Alike.matches {a b : Step τ} (h : a.Alike A R b) (hagrees : a.after.Agrees b.after) :
    a.Matches b := by
  refine ⟨h.message_eq, fun why => ?_, hagrees⟩
  rcases h.verdict with ⟨why', ha, hb⟩ | ⟨_, _, ha, hb, -⟩
  · rw [ha, hb]
  · rw [ha, hb]
    exact iff_of_false nofun nofun

theorem readsFrom_of_alike {steps steps' : List (Step τ)}
    (h : List.Forall₂ (Step.Alike A R) steps steps') (n : Nat) :
    readsFrom n steps' = readsFrom n steps := by
  induction h generalizing n with
  | nil => rfl
  | @cons a b front front' hab _ ih =>
    have hrest := ih (n + 1)
    unfold readsFrom at hrest ⊢
    rw [List.zipIdx_cons, List.zipIdx_cons, List.filter_cons, List.filter_cons, hab.took_eq]
    split
    · rw [List.map_cons, List.map_cons, hrest, hab.message_eq]
    · exact hrest

end Step

/-- The first that passes is no later if all that pass in the one list pass in the other. -/
theorem findIdx?_le_of_forall₂ {α β : Type} {p : α → Bool} {q : β → Bool} {l : List α}
    {l' : List β} (h : List.Forall₂ (fun a b => p a = true → q b = true) l l') {k : Nat}
    (hk : l.findIdx? p = some k) : ∃ k' ≤ k, l'.findIdx? q = some k' := by
  induction h generalizing k with
  | nil => cases hk
  | @cons a b rest rest' hab _ ih =>
    rw [List.findIdx?_cons] at hk ⊢
    by_cases hb : q b = true
    · exact ⟨0, Nat.zero_le k, if_pos hb⟩
    · rw [if_neg fun ha => hb (hab ha)] at hk
      obtain ⟨i, hi, rfl⟩ := Option.map_eq_some_iff.mp hk
      obtain ⟨i', hle, hi'⟩ := ih hi
      exact ⟨i' + 1, Nat.succ_le_succ hle, by rw [if_neg hb, hi', Option.map_some]⟩

theorem TableSpec.opening_le_of_forall₂ {spec spec' : TableSpec} {steps steps' : List (Step τ)}
    {g : Message} (h : List.Forall₂
      (fun a b => spec.ready a.after g = true → spec'.ready b.after g = true) steps steps')
    {i j : Nat} (hj : spec.opening steps i g = some j) :
    ∃ j' ≤ j, spec'.opening steps' i g = some j' := by
  obtain ⟨k, hk, rfl⟩ := Option.map_eq_some_iff.mp hj
  obtain ⟨k', hle, hk'⟩ := findIdx?_le_of_forall₂ (List.forall₂_drop i h) hk
  exact ⟨i + k', Nat.add_le_add_left hle i, by rw [opening, hk', Option.map_some]⟩

namespace Tablet

theorem prompt_of_run {spec : TableSpec} {table : TableId} {shard : ThreadId} {range : Interval}
    {t : Tablet τ} (hnew : Tablet.new τ spec table shard range = .ok t) {ms : List Message}
    {steps : List (Step τ)} (hrun : t.run ms = .ok steps) : spec.Prompt steps := by
  intro front s back hsteps
  subst hsteps
  have hbefore := accounted_of_run hnew (run_of_append hrun).1
  rw [(filter_reads_append spec front s back).1]
  exact (accounted_of_step hbefore (step_of_run hrun)).2

/-- Speculative gates with one log between them. -/
def SameLog (S S' : Clock) (K K' : UInt64) (g g' : Gate) (_ _ : Waitlist) : Prop :=
  ∃ log, g = .speculative S K log ∧ g' = .speculative S' K' log

section Bounds

variable {S S' : Clock} {K K' : UInt64} {t u : Tablet τ}

theorem sameLog_note {g g' : Gate} {w w' : Waitlist} (h : SameLog S S' K K' g g' w w')
    (m : Message) : SameLog S S' K K' (g.note m) (g'.note m) w w' := by
  obtain ⟨log, rfl, rfl⟩ := h
  obtain ⟨log', hnote⟩ := Gate.exists_note_eq log m
  exact ⟨log', hnote S K, hnote S' K'⟩

theorem handle_sameLog (ht : t.Sound) (hu : u.Sound) (h : t.Level (SameLog S S' K K') u)
    (m : Message) :
    (t.handle m).Alike (fun _ _ => True) (Level (SameLog S S' K K')) (u.handle m) := by
  have hsame := h
  obtain ⟨⟨waiting, hslice⟩, log, hstrict, hloose⟩ := h
  obtain ⟨slice, gate⟩ := u
  obtain rfl : slice = { t.slice with waiting } := hslice
  have hopen : t.gate ≠ .barrier ∧ gate ≠ .barrier := by
    rw [hstrict, show gate = _ from hloose]
    exact ⟨by simp, by simp⟩
  refine handle_level ht hu hsame m (fun _ => trivial) hopen (sameLog_note hsame.kept m) ?_ ?_
  · intro roster hreads henrol
    rw [onGet_eq ht m hreads henrol, onGet_eq hu m hreads henrol]
    -- Either of them may hold the read back.
    split <;> split <;> exact .ok trivial ⟨⟨_, rfl⟩, log, hstrict, hloose⟩
  · intro roster low
    obtain ⟨_, _, hrelease⟩ := exists_release_eq (t := ⟨{ t.slice with roster }, t.gate⟩) hopen.1 low
    obtain ⟨_, _, hrelease'⟩ := exists_release_eq
      (t := ⟨{ t.slice with waiting, roster }, gate⟩) hopen.2 low
    rw [hrelease, hrelease']
    refine .ok trivial ⟨⟨_, rfl⟩, log.forgetBelow low, ?_, ?_⟩
    · exact congrArg (Gate.forget · low) hstrict
    · exact congrArg (Gate.forget · low) hloose

theorem agrees_of_level (h : t.Level (SameLog S S' K K') u) : t.Agrees u := by
  obtain ⟨⟨waiting, hslice⟩, log, hstrict, hloose⟩ := h
  exact ⟨by rw [hslice], by rw [hslice], by rw [hstrict, hloose]; rfl⟩

theorem ready_sparseSsp_iff {storage recorder : Backing} {g : Message} :
    TableSpec.ready (.sparseSsp storage S K recorder) t g = true ↔
      g.clock.toNat - S.toNat ≤ t.slice.minClock.toNat ∨
        0 < K ∧ ∀ key ∈ g.keyList, t.foreignWrites key g.sender < K.toNat := by
  have hready : TableSpec.ready (.sparseSsp storage S K recorder) t g =
      (decide (g.clock.toNat - S.toNat ≤ t.slice.minClock.toNat) || (decide (0 < K) &&
        g.keyList.all fun key => decide (t.foreignWrites key g.sender < K.toNat))) := rfl
  simp [hready]

/-- What the stricter rule is content with, the looser one is content with. -/
theorem ready_of_level {storage recorder : Backing} (hS : S ≤ S') (hK : K ≤ K')
    (h : t.Level (SameLog S S' K K') u) {g : Message}
    (hready : TableSpec.ready (.sparseSsp storage S K recorder) t g = true) :
    TableSpec.ready (.sparseSsp storage S' K' recorder) u g = true := by
  obtain ⟨⟨waiting, hslice⟩, log, hstrict, hloose⟩ := h
  have hmin : u.slice.minClock = t.slice.minClock := by rw [hslice]; rfl
  have hforeign : ∀ key, u.foreignWrites key g.sender = t.foreignWrites key g.sender := by
    intro key
    simp only [foreignWrites, hstrict, hloose]
  rw [UInt64.le_iff_toNat_le] at hS hK
  rw [ready_sparseSsp_iff, hmin]
  simp only [hforeign]
  rcases ready_sparseSsp_iff.mp hready with hnear | ⟨hpos, hquiet⟩
  · exact Or.inl (Nat.le_trans (Nat.sub_le_sub_left hS _) hnear)
  · rw [UInt64.lt_iff_toNat_lt] at hpos ⊢
    exact Or.inr ⟨Nat.lt_of_lt_of_le hpos hK,
      fun key hkey => Nat.lt_of_lt_of_le (hquiet key hkey) hK⟩

theorem level_new {storage recorder : Backing} {table : TableId} {shard : ThreadId}
    {range : Interval}
    (hstrict : Tablet.new τ (.sparseSsp storage S K recorder) table shard range = .ok t)
    (hloose : Tablet.new τ (.sparseSsp storage S' K' recorder) table shard range = .ok u) :
    t.Level (SameLog S S' K K') u := by
  obtain ⟨_, store, log, hrecorder, hstore, hlog, rfl⟩ := eq_of_new_speculative rfl hstrict
  obtain rfl := Option.some.inj hrecorder
  obtain ⟨_, store', log', hrecorder', hstore', hlog', rfl⟩ := eq_of_new_speculative rfl hloose
  obtain rfl := Option.some.inj hrecorder'
  obtain rfl := Except.ok.inj (hstore.symm.trans hstore')
  obtain rfl := Except.ok.inj (hlog.symm.trans hlog')
  exact ⟨⟨_, rfl⟩, log, rfl, rfl⟩

end Bounds

/-- A read whose opening comes no later waits no longer. -/
theorem subperm_of_openings {spec spec' : TableSpec} {range : Interval} {t u : Tablet τ}
    {steps steps' : List (Step τ)} (hreads : Step.reads steps' = Step.reads steps)
    (hopening : ∀ (e : Nat × Message) j, spec.opening steps e.1 e.2 = some j →
      ∃ j' ≤ j, spec'.opening steps' e.1 e.2 = some j')
    (ht : Accounted spec range steps t) (hu : Accounted spec' range steps' u) :
    (u.slice.waiting.asking .get).Subperm (t.slice.waiting.asking .get) := by
  have hsub : (unopened spec' steps').Sublist (unopened spec steps) := by
    unfold unopened
    rw [hreads]
    refine List.monotone_filter_right _ fun e hnone => ?_
    cases hj : spec.opening steps e.1 e.2 with
    | none => rfl
    | some j =>
      obtain ⟨j', -, hj'⟩ := hopening e j hj
      rw [hj'] at hnone
      cases hnone
  exact (hu.waits.subperm.trans (hsub.map _).subperm).trans ht.waits.symm.subperm

/-- **Looser bounds never delay a read.** Two new speculative tablets that differ in their bounds
alone are sent the same messages. They take in the same ones, refuse the others for the same reasons
and agree after each on everything but what waits. Each answers a read at its opening, and the
opening in the looser one is no later than that in the stricter one. So what waits in the looser one
waits in the stricter one as well. -/
theorem answered_no_later {storage recorder : Backing} {S S' : Clock} {K K' : UInt64}
    (hS : S ≤ S') (hK : K ≤ K') {table : TableId} {shard : ThreadId} {range : Interval}
    {strict loose : Tablet τ}
    (hstrict : Tablet.new τ (.sparseSsp storage S K recorder) table shard range = .ok strict)
    (hloose : Tablet.new τ (.sparseSsp storage S' K' recorder) table shard range = .ok loose)
    {ms : List Message} {steps : List (Step τ)} (hrun : strict.run ms = .ok steps) :
    ∃ steps', loose.run ms = .ok steps' ∧
      strict.Agrees loose ∧ List.Forall₂ Step.Matches steps steps' ∧
      TableSpec.Prompt (.sparseSsp storage S K recorder) steps ∧
      TableSpec.Prompt (.sparseSsp storage S' K' recorder) steps' ∧
      Step.reads steps' = Step.reads steps ∧
      (∀ e ∈ Step.reads steps, ∀ j,
        TableSpec.opening (.sparseSsp storage S K recorder) steps e.1 e.2 = some j →
        ∃ j' ≤ j, TableSpec.opening (.sparseSsp storage S' K' recorder) steps' e.1 e.2 =
          some j') ∧
      ((loose.finish steps').slice.waiting.asking .get).Subperm
        ((strict.finish steps).slice.waiting.asking .get) := by
  have hlevel := level_new hstrict hloose
  rcases run_alike (fun ht hu h => handle_sameLog ht.toSound hu.toSound h) (serves_new hstrict)
      (serves_new hloose) hlevel ms with
    ⟨_, hfault, -⟩ | ⟨_, steps', hsteps, hrun', halike⟩
  · cases hrun.symm.trans hfault
  obtain rfl := Except.ok.inj (hrun.symm.trans hsteps)
  have hopening : ∀ (e : Nat × Message) j,
      TableSpec.opening (.sparseSsp storage S K recorder) steps e.1 e.2 = some j →
      ∃ j' ≤ j, TableSpec.opening (.sparseSsp storage S' K' recorder) steps' e.1 e.2 =
        some j' := fun _ _ hj =>
    TableSpec.opening_le_of_forall₂
      (halike.imp fun _ _ h hready => ready_of_level hS hK h.after hready) hj
  have hreads : Step.reads steps' = Step.reads steps := Step.readsFrom_of_alike halike 0
  refine ⟨steps', hrun', agrees_of_level hlevel, ?_, prompt_of_run hstrict hrun,
    prompt_of_run hloose hrun', hreads, fun e _ => hopening e, ?_⟩
  · exact halike.imp fun _ _ h => h.matches (agrees_of_level h.after)
  · exact subperm_of_openings hreads hopening (accounted_of_run hstrict hrun)
      (accounted_of_run hloose hrun')

/-- As `cautious`, but one more write of a key is let pass. -/
def lenient : TableSpec := .sparseSsp .sparse 0 2 .sparse

theorem answered_no_later_ahead :
    ∃ strict loose steps steps',
      Tablet.new .integer cautious 0 7 ⟨0, 10⟩ = .ok strict ∧
      Tablet.new .integer lenient 0 7 ⟨0, 10⟩ = .ok loose ∧
      strict.run ahead = .ok steps ∧ loose.run ahead = .ok steps' ∧
      (Step.reads steps).map (fun e => cautious.opening steps e.1 e.2) = [some 6, some 3] ∧
      (Step.reads steps').map (fun e => lenient.opening steps' e.1 e.2) = [some 2, some 3] ∧
      List.Forall₂ Step.Matches steps steps' ∧
      (∀ e ∈ Step.reads steps, ∀ j, cautious.opening steps e.1 e.2 = some j →
        ∃ j' ≤ j, lenient.opening steps' e.1 e.2 = some j') ∧
      ((loose.finish steps').slice.waiting.asking .get).Subperm
        ((strict.finish steps).slice.waiting.asking .get) := by
  let strict : Tablet .integer :=
    ⟨.new 0 7 ⟨0, 10⟩ (.sparse .empty), .speculative 0 1 (.sparse .empty)⟩
  let loose : Tablet .integer :=
    ⟨.new 0 7 ⟨0, 10⟩ (.sparse .empty), .speculative 0 2 (.sparse .empty)⟩
  have hstrict : Tablet.new .integer cautious 0 7 ⟨0, 10⟩ = .ok strict := rfl
  have hloose : Tablet.new .integer lenient 0 7 ⟨0, 10⟩ = .ok loose := rfl
  obtain ⟨steps, hrun⟩ : ∃ steps, strict.run ahead = .ok steps := ⟨_, rfl⟩
  have hopenings : (strict.run ahead).toOption.map (fun steps =>
      (Step.reads steps).map fun e => cautious.opening steps e.1 e.2) =
        some [some 6, some 3] := by
    decide +kernel
  have hopenings' : (loose.run ahead).toOption.map (fun steps =>
      (Step.reads steps).map fun e => lenient.opening steps e.1 e.2) =
        some [some 2, some 3] := by
    decide +kernel
  obtain ⟨steps', hrun', -, hmatches, -, -, -, hopening, hwaiting⟩ :=
    answered_no_later (by decide) (by decide) hstrict hloose hrun
  rw [hrun] at hopenings
  rw [hrun'] at hopenings'
  exact ⟨strict, loose, steps, steps', hstrict, hloose, hrun, hrun', Option.some.inj hopenings,
    Option.some.inj hopenings', hmatches, hopening, hwaiting⟩

end Tablet

end ParamServer
