import ParamServer.Proofs.Tablet.Sound

/-!
# What comes in goes out or stays

One move, seen as a flow. A read that comes in, or has waited, is answered now or waits on, and
which of the two depends on the gate that the move leaves behind (`reads_of_move`). An update that
comes in, or has waited, lands in the store now or waits on (`updates_of_move`). Nothing else is
answered, and nothing else lands.
-/

namespace ParamServer

/-- What waits and asks for `op`. -/
def Waitlist.asking (op : Op) (w : Waitlist) : List Message :=
  (w.entries.filter fun e => decide (e.2.op = op)).map (·.2)

theorem Waitlist.asking_park (op : Op) (w : Waitlist) (clock : Clock) (m : Message) :
    ((w.park clock m).asking op).Perm (w.asking op ++ [m].filter fun m => decide (m.op = op)) := by
  have hpark := ((w.entries_park_perm clock m).filter fun e => decide (e.2.op = op)).map (·.2)
  refine hpark.trans ?_
  by_cases hop : m.op = op
  · simp only [asking, hop, decide_true, List.filter_cons_of_pos, List.filter_nil, List.map_cons]
    exact (List.perm_append_singleton ..).symm
  · simp [asking, hop]

theorem Waitlist.asking_eq_filter {w w' : Waitlist} {p : Message → Bool}
    (h : w'.entries = w.entries.filter fun e => p e.2) (op : Op) :
    w'.asking op = (w.asking op).filter p := by
  unfold asking
  rw [h, List.filter_map, List.filter_filter, List.filter_filter]
  simp only [Function.comp_def, Bool.and_comm]

namespace Tablet

variable {τ : ScalarType} {t t' : Tablet τ} {m : Message} {replies : List Message}

def passes (t : Tablet τ) (m : Message) : Bool := t.gate.passes t.slice.minClock m

theorem passes_of_shut (hshut : t.Shut) (op : Op) :
    ∀ m ∈ t.slice.waiting.asking op, t.passes m = false := by
  intro m hm
  obtain ⟨e, he, rfl⟩ := List.mem_map.mp hm
  exact hshut e (List.mem_filter.mp he).1

/-- Where there is no gate, nothing waits. -/
theorem asking_of_open (hs : t.Sound) (hgate : t.gate = .open) (op : Op) :
    t.slice.waiting.asking op = [] := by
  have hnil : t.slice.waiting.entries = [] :=
    List.eq_nil_iff_forall_not_mem.mpr fun e he => (hs.parked e he).gated hgate
  rw [Waitlist.asking, hnil]
  rfl

/-- What a risen minimum lets go of, by what it asks for. -/
theorem asking_freed (t : Tablet τ) (low : Clock) (op : Op) :
    ((t.freed low).filter fun e => decide (e.2.op = op)).map (·.2) =
      (t.slice.waiting.asking op).filter ((t.gate.forget low).passes low) := by
  rw [Waitlist.asking, List.filter_map, freed, List.filter_filter, List.filter_filter]
  simp only [Function.comp_def, Bool.and_comm]

/-- **Reads.** -/
theorem reads_of_move (hs : t.Sound) (hshut : t.Shut) (hop : m.op ≠ .resetWorkers)
    (h : t.Move m replies t') :
    let due := t.slice.waiting.asking .get ++ [m].filter fun m => decide (m.op = .get)
    replies.Perm ((due.filter t'.passes).map (·.answerFrom t'.slice.store)) ∧
      (t'.slice.waiting.asking .get).Perm (due.filter fun m => !t'.passes m) := by
  have hshut' : ∀ m ∈ t'.slice.waiting.asking .get, t'.passes m = false :=
    passes_of_shut (shut_of_move hs hshut h) .get
  -- Where what waited waits on, only the newcomer is to be looked at.
  cases h with
  | apply hadd =>
    obtain ⟨hnone, hall⟩ := filter_of_forall_false hshut'
    have hnew : ([m].filter fun m => decide (m.op = .get)) = [] := by simp [hadd]
    simp only
    rw [hnew, List.append_nil]
    exact ⟨List.Perm.of_eq (by rw [hnone]; rfl), List.Perm.of_eq hall.symm⟩
  | park hadd hadds henrol hgate hlate =>
    have hsame : (t.slice.waiting.park m.clock m).asking .get |>.Perm
        (t.slice.waiting.asking .get) := by
      simpa [hadd] using Waitlist.asking_park .get t.slice.waiting m.clock m
    obtain ⟨hnone, hall⟩ := filter_of_forall_false fun m hm => hshut' m (hsame.mem_iff.mpr hm)
    simp only [hadd, List.filter_cons, reduceCtorEq, decide_false, Bool.false_eq_true, if_false,
      List.filter_nil, List.append_nil]
    rw [hnone, hall]
    exact ⟨List.Perm.refl _, hsame⟩
  | @answer roster hget hreads henrol hpasses =>
    obtain ⟨hnone, hall⟩ := filter_of_forall_false hshut'
    have hnow : passes ⟨{ t.slice with roster }, t.gate⟩ m = true := hpasses
    simp only [hget, decide_true, List.filter_cons_of_pos, List.filter_nil, List.filter_append]
    rw [hnone, hall, List.filter_cons_of_pos hnow, List.filter_cons_of_neg (by simp [hnow])]
    simp
  | @wait roster hget hreads henrol hpasses =>
    have hpark := Waitlist.asking_park .get t.slice.waiting (t.gate.due m.clock) m
    obtain ⟨hnone, hall⟩ := filter_of_forall_false fun m hm => hshut' m (hpark.mem_iff.mpr hm)
    simp only
    rw [hnone, hall]
    exact ⟨List.Perm.refl _, hpark⟩
  | tick hclock =>
    obtain ⟨hnone, hall⟩ := filter_of_forall_false hshut'
    have hnew : ([m].filter fun m => decide (m.op = .get)) = [] := by simp [hclock]
    simp only
    rw [hnew, List.append_nil]
    exact ⟨List.Perm.of_eq (by rw [hnone]; rfl), List.Perm.of_eq hall.symm⟩
  | @release roster low _ _ hclock hadvance hrelease =>
    obtain ⟨rfl, -⟩ := Roster.minClock_of_risen hadvance
    obtain ⟨⟨store, waiting, rfl⟩, hkept, -, hanswered⟩ := hrelease
    have hnew : ([m].filter fun m => decide (m.op = .get)) = [] := by simp [hclock]
    simp only
    rw [hnew, List.append_nil]
    constructor
    · refine hanswered.trans (List.Perm.of_eq ?_)
      have hfreed := asking_freed (⟨{ t.slice with roster }, t.gate⟩ : Tablet τ) roster.minClock .get
      have hanswers := congrArg (List.map (·.answerFrom store)) hfreed
      rw [List.map_map] at hanswers
      exact hanswers
    · exact List.Perm.of_eq (Waitlist.asking_eq_filter hkept .get)
  | close hclose => exact absurd hclose hop

/-- **Updates.** Behind a barrier, only those land that the minimum has reached. -/
theorem updates_of_move (hs : t.Sound) (h : t.Move m replies t') :
    ∃ landed : List Message,
      (∀ m ∈ landed, m.AddsIn τ t.slice.range) ∧
      (t.gate = .barrier → ∀ m ∈ landed, m.clock ≤ t'.slice.minClock) ∧
      t.slice.store.addAll (landed.flatMap (·.updates τ)) = .ok () t'.slice.store ∧
      (landed ++ t'.slice.waiting.asking .add).Perm
        (t.slice.waiting.asking .add ++ [m].filter fun m => decide (m.op = .add)) := by
  cases h with
  | apply hadd hadds henrol hgate hstore =>
    refine ⟨[m], by simpa using hadds, ?_, by simpa using hstore, ?_⟩
    · intro hbarrier e he
      rw [List.mem_singleton.mp he]
      exact hgate hbarrier
    · simp only [hadd, decide_true, List.filter_cons_of_pos, List.filter_nil]
      exact List.perm_append_comm
  | park hadd hadds henrol hgate hlate =>
    refine ⟨[], by simp, by simp, rfl, ?_⟩
    exact Waitlist.asking_park .add t.slice.waiting m.clock m
  | answer hget => exact ⟨[], by simp, by simp, rfl, by simp [hget]⟩
  | wait hget =>
    refine ⟨[], by simp, by simp, rfl, ?_⟩
    exact Waitlist.asking_park .add t.slice.waiting (t.gate.due m.clock) m
  | tick hclock => exact ⟨[], by simp, by simp, rfl, by simp [hclock]⟩
  | close hclose => exact ⟨[], by simp, by simp, rfl, by simp [hclose]⟩
  | @release roster low _ _ hclock hadvance hrelease =>
    obtain ⟨rfl, -⟩ := Roster.minClock_of_risen hadvance
    obtain ⟨⟨store, waiting, rfl⟩, hkept, hadded, -⟩ := hrelease
    have hnew : ([m].filter fun m => decide (m.op = .add)) = [] := by simp [hclock]
    let gate := t.gate.forget roster.minClock
    have hfreed := t.asking_freed roster.minClock .add
    refine ⟨(t.slice.waiting.asking .add).filter (gate.passes roster.minClock), ?_, ?_, ?_, ?_⟩
    · intro m hm
      obtain ⟨e, he, rfl⟩ := List.mem_map.mp (List.mem_filter.mp hm).1
      rcases (hs.parked e (List.mem_filter.mp he).1).fit with hget | hadd
      · simp [hget.1] at he
      · exact hadd.2.2
    · intro hgate m hm
      have hpasses := (List.mem_filter.mp hm).2
      simp only [gate, hgate, Gate.forget, Gate.passes, Gate.due, Gate.early, Bool.or_false,
        decide_eq_true_eq] at hpasses
      exact hpasses
    · rw [← hfreed, List.flatMap_map]
      exact hadded
    · have hstay : waiting.asking .add = _ :=
        Waitlist.asking_eq_filter (w := t.slice.waiting)
          (p := fun m => !gate.passes roster.minClock m) hkept .add
      simp only
      rw [hnew, List.append_nil, hstay]
      exact List.filter_append_perm ..

end Tablet

end ParamServer
