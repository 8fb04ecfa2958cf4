import Mathlib.Data.List.Forall2
import ParamServer.Proofs.Tablet.Answers
import ParamServer.Proofs.Tablet.Ledger

/-!
# What reads see behind a barrier

An update that has landed stays in the store. So what a read sees is not what the minimum has
reached when it is answered, but what it has reached at any time since the update came
(`Step.reached`). The two are the same as long as the minimum does not fall. It falls when somebody
turns up who has got less far than all the others, and when the roster is closed anew, and then a
read may see updates from beyond it (`latecomer_sees_beyond`).
-/

namespace ParamServer

variable {τ : ScalarType}

/-- The answer `r` gives the read `g`, key by key, the sum of what `updates` bring. -/
def Message.Reflects (τ : ScalarType) (r g : Message) (updates : List Message) : Prop :=
  ∃ values : List τ.Value,
    r = { g.reply with blocks := [.keys g.keyList, .ofValues τ values] } ∧
    List.Forall₂ (fun key v =>
      (deltasAt key (updates.flatMap (·.updates τ))).foldlM τ.add τ.zero = .ok v) g.keyList values

namespace Step

/-- The updates that were taken in, each with the steps since, its own included. -/
def arrivals : List (Step τ) → List (Message × List (Step τ))
  | [] => []
  | s :: later => (if s.took .add then [(s.message, s :: later)] else []) ++ arrivals later

/-- Whether the minimum had got to an update after one of the steps. -/
def wasReached (a : Message × List (Step τ)) : Bool :=
  a.2.any fun s => decide (a.1.clock ≤ s.after.slice.minClock)

/-- The updates that the minimum has reached at some time since they came. -/
def reached (steps : List (Step τ)) : List Message :=
  ((arrivals steps).filter wasReached).map (·.1)

def unreached (steps : List (Step τ)) : List Message :=
  ((arrivals steps).filter fun a => !wasReached a).map (·.1)

theorem map_fst_arrivals (steps : List (Step τ)) :
    (arrivals steps).map (·.1) = taken .add steps := by
  induction steps with
  | nil => rfl
  | cons s later ih =>
    rw [arrivals, List.map_append, ih, taken, taken, List.filter_cons]
    split <;> rfl

theorem arrivals_concat (steps : List (Step τ)) (s : Step τ) :
    arrivals (steps ++ [s]) =
      (arrivals steps).map (fun a => (a.1, a.2 ++ [s])) ++ arrivals [s] := by
  induction steps with
  | nil => rfl
  | cons head later ih =>
    have hhead : arrivals (head :: later) =
        (if head.took .add then [(head.message, head :: later)] else []) ++ arrivals later := rfl
    rw [List.cons_append, arrivals, ih, hhead, List.map_append, List.append_assoc]
    split <;> rfl

theorem suffix_of_mem_arrivals {steps : List (Step τ)} {a : Message × List (Step τ)}
    (h : a ∈ arrivals steps) : a.2 <:+ steps := by
  induction steps with
  | nil => cases h
  | cons s later ih =>
    rw [arrivals, List.mem_append] at h
    rcases h with hnew | hold
    · split at hnew
      · obtain rfl := List.mem_singleton.mp hnew
        exact List.suffix_refl _
      · cases hnew
    · exact (ih hold).trans (List.suffix_cons ..)

theorem reached_append_unreached_perm (steps : List (Step τ)) :
    (reached steps ++ unreached steps).Perm (taken .add steps) := by
  rw [reached, unreached, ← List.map_append, ← map_fst_arrivals]
  exact (List.filter_append_perm wasReached (arrivals steps)).map _

/-- One step more: the minimum may have got to updates that it had never reached before. -/
theorem reached_concat_perm (steps : List (Step τ)) (s : Step τ) :
    (reached (steps ++ [s])).Perm (reached steps ++
      (unreached steps ++ taken .add [s]).filter
        fun m => decide (m.clock ≤ s.after.slice.minClock)) := by
  let now (m : Message) : Bool := decide (m.clock ≤ s.after.slice.minClock)
  -- An update of before is reached by now if it was so already or is so now.
  have hold : ((arrivals steps).map fun a => (a.1, a.2 ++ [s])).filter wasReached =
      ((arrivals steps).filter fun a => wasReached a || now a.1).map
        fun a => (a.1, a.2 ++ [s]) := by
    rw [List.filter_map]
    congr 2
    funext a
    simp [wasReached, now, Function.comp_apply]
  have hnew : ((arrivals [s]).filter wasReached).map (·.1) = (taken .add [s]).filter now := by
    by_cases htook : s.took .add = true <;> by_cases hnow : now s.message = true <;>
      simp_all [arrivals, taken, wasReached, now]
  have hlate : (unreached steps).filter now =
      (((arrivals steps).filter fun a => !wasReached a).filter fun a => now a.1).map (·.1) := by
    rw [unreached, List.filter_map]
    rfl
  rw [reached, arrivals_concat, List.filter_append, hold, List.map_append, hnew, List.map_map,
    List.filter_append, hlate, ← List.append_assoc, reached, ← List.map_append]
  refine List.Perm.append_right _ (List.Perm.map _ ?_)
  exact (filter_or_perm wasReached (fun a => now a.1) (arrivals steps)).symm

theorem exists_of_mem_reached {steps : List (Step τ)} {m : Message} (h : m ∈ reached steps) :
    ∃ s ∈ steps, m.clock ≤ s.after.slice.minClock := by
  obtain ⟨a, ha, rfl⟩ := List.mem_map.mp h
  obtain ⟨ha, hreached⟩ := List.mem_filter.mp ha
  obtain ⟨s, hs, hclock⟩ := List.any_eq_true.mp hreached
  exact ⟨s, (suffix_of_mem_arrivals ha).mem hs, of_decide_eq_true hclock⟩

end Step

namespace Tablet

variable {spec : TableSpec} {range : Interval} {t : Tablet τ} {m : Message} {s : Step τ}
  {steps : List (Step τ)}

/-- The store is the sum of the updates that the minimum has reached at some time. -/
def Caught (range : Interval) (t : Tablet τ) (steps : List (Step τ)) : Prop :=
  ∃ landed, landed.Perm (Step.reached steps) ∧ t.Books range landed (Step.taken .add steps)

theorem caught_of_step (hs : t.Serves spec range) (hgate : t.gate = .barrier)
    (h : t.Caught range steps) (hstep : t.step m = .ok s) :
    s.after.Caught range (steps ++ [s]) := by
  obtain ⟨landed, hreached, hbooks⟩ := h
  obtain ⟨more, hnow, hafter⟩ := books_of_step hs hbooks hstep
  refine ⟨landed ++ more, ?_, by rw [Step.taken_append]; exact hafter⟩
  -- What had not landed before lands now or is still late.
  have hrest : (more ++ s.after.slice.waiting.asking .add).Perm
      (Step.unreached steps ++ Step.taken .add [s]) := by
    rw [← List.perm_append_left_iff landed]
    calc landed ++ (more ++ s.after.slice.waiting.asking .add)
        = landed ++ more ++ s.after.slice.waiting.asking .add := (List.append_assoc ..).symm
      _ |>.Perm (Step.taken .add steps ++ Step.taken .add [s]) := hafter.all
      _ |>.Perm (Step.reached steps ++ Step.unreached steps ++ Step.taken .add [s]) :=
        (Step.reached_append_unreached_perm steps).symm.append_right _
      _ |>.Perm (landed ++ Step.unreached steps ++ Step.taken .add [s]) :=
        (hreached.symm.append_right _).append_right _
      _ = landed ++ (Step.unreached steps ++ Step.taken .add [s]) := List.append_assoc ..
  have hlate := late_of_asking (serves_of_step hs hstep)
  have hmore : more.Perm ((Step.unreached steps ++ Step.taken .add [s]).filter
      fun m => decide (m.clock ≤ s.after.slice.minClock)) := by
    have hfilter := hrest.filter fun m => decide (m.clock ≤ s.after.slice.minClock)
    rw [List.filter_append, List.filter_eq_self.mpr (by simpa using hnow hgate),
      List.filter_eq_nil_iff.mpr (by simpa using hlate), List.append_nil] at hfilter
    exact hfilter
  exact (hreached.append hmore).trans (Step.reached_concat_perm steps s).symm

theorem caught_of_run (hmodel : spec.model = .bsp) {table : TableId} {shard : ThreadId}
    (hnew : Tablet.new τ spec table shard range = .ok t) {ms : List Message}
    (hrun : t.run ms = .ok steps) : (t.finish steps).Caught range steps := by
  have hstart : t.Serves spec range ∧ t.Caught range [] :=
    ⟨serves_new hnew, [], List.Perm.refl _, books_of_new hnew⟩
  refine (run_induction
    (P := fun steps u => u.Serves spec range ∧ u.Caught range steps) hstart ?_ hrun).2
  rintro steps u ⟨hu, hcaught⟩ m _ s hs
  have hgate := Gate.eq_barrier_of_follows hu.follows hmodel
  exact ⟨serves_of_step hu hs, caught_of_step hu hgate hcaught hs⟩

/-- The minimum falls only by a message of a stranger and when the roster is closed anew. -/
theorem stranger_of_fall (hs : t.Serves spec range) (hstep : t.step m = .ok s)
    (hfall : s.after.slice.minClock < t.slice.minClock) :
    s.verdict.isOk = true ∧ (m.op = .resetWorkers ∨
      (t.slice.roster.closed = false ∧ t.slice.roster.clockOf? m.sender = none)) := by
  rcases step_cases hs hstep with ⟨why, rfl⟩ | ⟨replies, t', rfl, hmove⟩
  · exact absurd hfall (UInt64.lt_irrefl _)
  · refine ⟨rfl, ?_⟩
    by_cases hop : m.op = .resetWorkers
    · exact Or.inl hop
    · right
      have hunknown : ∀ clock, t.slice.roster.clockOf? m.sender ≠ some clock := by
        intro clock hknown
        have hle := (minClock_le_of_known hs.tight hknown hop hmove).2
        exact absurd hfall (UInt64.not_lt.mpr hle)
      refine ⟨?_, Option.eq_none_iff_forall_ne_some.mpr hunknown⟩
      rw [← Bool.not_eq_true]
      intro hclosed
      obtain ⟨clock, hknown⟩ := known_of_move hmove hop hclosed
      exact hunknown clock hknown

/-- **What a read sees behind a barrier.** In any run of a new tablet, whoever turns up in the
middle and however often the roster is closed, each answer is to a read that the minimum has
reached, and is the sum of the updates that the minimum has reached at some time since they came. As
long as the minimum has never been higher, none of these is from beyond it. It has been higher only
if it fell, and it falls only by a message of a stranger to an open roster and when the roster is
closed anew. -/
theorem reflects_reached (hmodel : spec.model = .bsp) {table : TableId} {shard : ThreadId}
    {fresh : Tablet τ} (hnew : Tablet.new τ spec table shard range = .ok fresh)
    {ms : List Message} (hrun : fresh.run ms = .ok steps) :
    ∀ front s back, steps = front ++ s :: back →
      (∀ r ∈ s.answers, ∃ g ∈ Step.taken .get (front ++ [s]),
        g.clock ≤ s.after.slice.minClock ∧
        ∃ landed, landed.Perm (Step.reached (front ++ [s])) ∧ r.Reflects τ g landed) ∧
      ((∀ l ∈ front, l.after.slice.minClock ≤ s.after.slice.minClock) →
        ∀ m ∈ Step.reached (front ++ [s]), m.clock ≤ s.after.slice.minClock) ∧
      (s.after.slice.minClock < (fresh.finish front).slice.minClock →
        s.verdict.isOk = true ∧ (s.message.op = .resetWorkers ∨
          ((fresh.finish front).slice.roster.closed = false ∧
            (fresh.finish front).slice.roster.clockOf? s.message.sender = none))) := by
  rintro front s back rfl
  have hfront := (run_of_append hrun).1
  have hserves := serves_of_run (serves_new hnew) hfront
  have hstep := step_of_run hrun
  refine ⟨?_, ?_, stranger_of_fall hserves hstep⟩
  · intro r hr
    have hafter := serves_of_step hserves hstep
    have hgate := Gate.eq_barrier_of_follows hserves.follows hmodel
    have hgate' := Gate.eq_barrier_of_follows hafter.follows hmodel
    obtain ⟨landed, hreached, hbooks⟩ :=
      caught_of_step hserves hgate (caught_of_run hmodel hnew hfront) hstep
    have haccounted := accounted_of_run hnew hfront
    -- The read that is answered has waited since an earlier step or came in this one.
    obtain ⟨g, hg, hpasses, rfl⟩ := read_of_answer hserves hstep hr
    have htaken : g ∈ Step.taken .get (front ++ [s]) := by
      rw [Step.taken_append]
      rcases List.mem_append.mp hg with hold | hnew
      · obtain ⟨e, he, rfl⟩ := List.mem_map.mp (haccounted.waits.mem_iff.mp hold)
        exact List.mem_append_left _ (Step.mem_readsFrom (List.mem_filter.mp he).1).2.2
      · exact List.mem_append_right _ hnew
    have hfit : g.ReadsIn range := (accounted_of_step haccounted hstep).1.fit g htaken
    refine ⟨g, htaken, ?_, landed, hreached, g.keyList.map s.after.slice.store.value, rfl, ?_⟩
    · simpa [passes, hgate', Gate.passes, Gate.early, Gate.due] using hpasses
    · rw [List.forall₂_map_right_iff, List.forall₂_same]
      exact fun key hkey => hbooks.sums key (hfit.inside key hkey)
  · intro hhighest m hm
    obtain ⟨l, hl, hclock⟩ := Step.exists_of_mem_reached hm
    rcases List.mem_append.mp hl with hl | hl
    · exact UInt64.le_trans hclock (hhighest l hl)
    · rwa [← List.mem_singleton.mp hl]

/-- Worker 1 is the only one, and an iteration ahead, when worker 2 turns up with a read. -/
def latecomer : List Message := [
  ⟨.clock, 1, 7, 0, 1, 0, []⟩,
  ⟨.add, 1, 7, 0, 1, 0, [.keys [3], .integers [5]]⟩,
  ⟨.get, 2, 7, 0, 0, 1, [.keys [3]]⟩]

/-- Worker 1 is an iteration ahead when the roster is closed anew, and then reads. -/
def startedOver : List Message := [
  ⟨.resetWorkers, controlThread, 7, 0, 0, 0, [.keys [1]]⟩,
  ⟨.clock, 1, 7, 0, 1, 0, []⟩,
  ⟨.add, 1, 7, 0, 1, 0, [.keys [3], .integers [5]]⟩,
  ⟨.resetWorkers, controlThread, 7, 0, 0, 0, [.keys [1]]⟩,
  ⟨.get, 1, 7, 0, 0, 1, [.keys [3]]⟩]

theorem reflects_reached_latecomer :
    ∃ fresh front s,
      Tablet.new .integer (.bsp .sparse) 0 7 ⟨0, 10⟩ = .ok fresh ∧
      fresh.run latecomer = .ok (front ++ [s]) ∧
      s.answers = [⟨.response, 7, 2, 0, 0, 1, [.keys [3], .integers [5]]⟩] ∧
      ∀ r ∈ s.answers, ∃ g ∈ Step.taken .get (front ++ [s]), g.clock ≤ s.after.slice.minClock ∧
        ∃ landed, landed.Perm (Step.reached (front ++ [s])) ∧ r.Reflects .integer g landed := by
  let fresh : Tablet .integer := ⟨.new 0 7 ⟨0, 10⟩ (.sparse .empty), .barrier⟩
  have hnew : Tablet.new .integer (.bsp .sparse) 0 7 ⟨0, 10⟩ = .ok fresh := rfl
  obtain ⟨a, b, s, hrun, hanswers⟩ : ∃ a b s, fresh.run latecomer = .ok [a, b, s] ∧
      s.answers = [⟨.response, 7, 2, 0, 0, 1, [.keys [3], .integers [5]]⟩] :=
    ⟨_, _, _, rfl, by decide +kernel⟩
  refine ⟨fresh, [a, b], s, hnew, hrun, hanswers, ?_⟩
  exact (reflects_reached rfl hnew hrun [a, b] s [] rfl).1

/-- The last step of a run answers a read with what no updates come to that the minimum has reached
by then. -/
def SeesBeyond (t : Tablet τ) (ms : List Message) : Prop :=
  ∃ steps s, t.run ms = .ok steps ∧ steps.getLast? = some s ∧ ∃ r ∈ s.answers, ∀ g landed,
    (∀ m ∈ landed, m ∈ Step.taken .add steps ∧ m.clock ≤ s.after.slice.minClock) →
      ¬r.Reflects τ g landed

theorem eq_zero_of_reflects_nil {r g : Message} (h : r.Reflects τ g []) {values : List τ.Value}
    (hvalues : r.values τ = .ok values) : ∀ v ∈ values, v = τ.zero := by
  obtain ⟨sums, rfl, hsums⟩ := h
  obtain rfl := Except.ok.inj (hvalues.symm.trans (Message.values_eq_ok rfl))
  have hzero := hsums.flip.imp fun v key hsum =>
    (⟨(Except.ok.inj hsum).symm, trivial⟩ : v = τ.zero ∧ True)
  exact ((List.forall₂_and_left _ _).mp hzero).1

theorem seesBeyond_of_nonzero {ms : List Message} (hrun : t.run ms = .ok steps)
    (hlast : steps.getLast? = some s)
    (hbeyond : ∀ m ∈ Step.taken .add steps, s.after.slice.minClock < m.clock)
    {r : Message} (hr : r ∈ s.answers) {values : List τ.Value} (hvalues : r.values τ = .ok values)
    (hnonzero : ∃ v ∈ values, v ≠ τ.zero) : t.SeesBeyond ms := by
  refine ⟨steps, s, hrun, hlast, r, hr, ?_⟩
  intro g landed hlanded hreflects
  have hnil : landed = [] := by
    apply List.eq_nil_iff_forall_not_mem.mpr
    intro m hm
    obtain ⟨htaken, hclock⟩ := hlanded m hm
    exact UInt64.not_lt.mpr hclock (hbeyond m htaken)
  obtain ⟨v, hv, hne⟩ := hnonzero
  rw [hnil] at hreflects
  exact hne (eq_zero_of_reflects_nil hreflects hvalues v hv)

/-- Worker 2 sees the update of an iteration that it has not reached, and so does worker 1 when it
starts over. -/
theorem latecomer_sees_beyond :
    ∃ fresh, Tablet.new .integer (.bsp .sparse) 0 7 ⟨0, 10⟩ = .ok fresh ∧
      fresh.SeesBeyond latecomer ∧ fresh.SeesBeyond startedOver := by
  refine ⟨⟨.new 0 7 ⟨0, 10⟩ (.sparse .empty), .barrier⟩, rfl, ?_, ?_⟩
  · refine seesBeyond_of_nonzero (r := ⟨.response, 7, 2, 0, 0, 1, [.keys [3], .integers [5]]⟩)
      rfl rfl (by decide +kernel) (by decide +kernel) rfl ⟨5, by decide⟩
  · refine seesBeyond_of_nonzero (r := ⟨.response, 7, 1, 0, 0, 1, [.keys [3], .integers [5]]⟩)
      rfl rfl (by decide +kernel) (by decide +kernel) rfl ⟨5, by decide⟩

end Tablet

end ParamServer
