import ParamServer.Proofs.Tablet.Sound

/-!
# Runs

A tablet driven by one message after the other. A refused message is a step like any other, and a
run records all of them with the tablet each one left behind; only a fault ends it, and then there
is no run. What every step keeps, every run keeps (`run_induction`).
-/

namespace ParamServer

/-- One message and what came of it. -/
structure Step (τ : ScalarType) where
  message : Message
  verdict : Except Error (List Message)
  after : Tablet τ

namespace Step

variable {τ : ScalarType}

/-- Whether a message that asks for `op` was taken in. -/
def took (op : Op) (s : Step τ) : Bool := s.verdict.isOk && decide (s.message.op = op)

@[simp]
theorem took_of_refused (op : Op) (m : Message) (why : Error) (t : Tablet τ) :
    took op ⟨m, .error why, t⟩ = false := rfl

@[simp]
theorem took_of_accepted (op : Op) (m : Message) (replies : List Message) (t : Tablet τ) :
    took op ⟨m, .ok replies, t⟩ = decide (m.op = op) := rfl

theorem op_of_took {op : Op} {s : Step τ} (h : s.took op = true) : s.message.op = op :=
  of_decide_eq_true (Bool.and_eq_true_iff.mp h).2

/-- What was answered to reads. That a roster is closed is acknowledged once, and whatever is sent
besides counts as an answer. -/
def answers (s : Step τ) : List Message :=
  let replies := s.verdict.toOption.getD []
  if s.message.op = .resetWorkers then replies.erase s.message.reply else replies

@[simp]
theorem answers_of_refused (m : Message) (why : Error) (t : Tablet τ) :
    answers ⟨m, .error why, t⟩ = [] := by
  unfold answers
  split <;> rfl

theorem answers_of_ne {m : Message} (h : m.op ≠ .resetWorkers) (replies : List Message)
    (t : Tablet τ) : answers ⟨m, .ok replies, t⟩ = replies :=
  if_neg h

theorem answers_of_close {m : Message} (h : m.op = .resetWorkers) (t : Tablet τ) :
    answers ⟨m, .ok [m.reply], t⟩ = [] := by
  unfold answers
  rw [if_pos h]
  exact List.erase_cons_head ..

/-- The messages of a run that ask for `op` and were taken in. -/
def taken (op : Op) (steps : List (Step τ)) : List Message :=
  (steps.filter (took op)).map (·.message)

theorem taken_append (op : Op) (front back : List (Step τ)) :
    taken op (front ++ back) = taken op front ++ taken op back := by
  simp [taken]

theorem mem_taken_iff {op : Op} {steps : List (Step τ)} {m : Message} :
    m ∈ taken op steps ↔ ∃ s ∈ steps, s.took op = true ∧ s.message = m := by
  simp [taken, and_assoc]

@[simp]
theorem taken_of_refused (op : Op) (m : Message) (why : Error) (t : Tablet τ) :
    taken op [⟨m, .error why, t⟩] = [] := rfl

theorem taken_of_accepted (op : Op) (m : Message) (replies : List Message) (t : Tablet τ) :
    taken op [⟨m, .ok replies, t⟩] = [m].filter fun m => decide (m.op = op) := by
  by_cases hop : m.op = op <;> simp [taken, hop]

theorem taken_of_ne {op : Op} {s : Step τ} (h : s.message.op ≠ op) : taken op [s] = [] := by
  simp [taken, took, h]

end Step

namespace Tablet

variable {τ : ScalarType}

def step (t : Tablet τ) (m : Message) : Except Fault (Step τ) :=
  match t.handle m with
  | .ok replies t' => .ok ⟨m, .ok replies, t'⟩
  | .error why t' => .ok ⟨m, .error why, t'⟩
  | .fault why => .error why

def run (t : Tablet τ) : List Message → Except Fault (List (Step τ))
  | [] => .ok []
  | m :: ms =>
    match t.step m with
    | .error why => .error why
    | .ok s => (run s.after ms).map (s :: ·)

def finish (t : Tablet τ) (steps : List (Step τ)) : Tablet τ :=
  (steps.getLast?.map (·.after)).getD t

@[simp]
theorem finish_nil (t : Tablet τ) : t.finish [] = t := rfl

theorem finish_cons (t : Tablet τ) (s : Step τ) (steps : List (Step τ)) :
    t.finish (s :: steps) = s.after.finish steps := by
  cases steps <;> simp [finish, List.getLast?_cons]

@[simp]
theorem finish_concat (t : Tablet τ) (steps : List (Step τ)) (s : Step τ) :
    t.finish (steps ++ [s]) = s.after := by
  simp [finish]

theorem run_cons_iff {t : Tablet τ} {m : Message} {ms : List Message} {steps : List (Step τ)} :
    t.run (m :: ms) = .ok steps ↔
      ∃ s later, t.step m = .ok s ∧ s.after.run ms = .ok later ∧ steps = s :: later := by
  rw [run]
  cases t.step m with
  | error why => simp
  | ok s =>
    cases hlater : s.after.run ms with
    | error why => simp [hlater, Except.map]
    | ok later => simp [hlater, Except.map, eq_comm]

theorem run_append_iff {t : Tablet τ} {front back : List Message} {steps : List (Step τ)} :
    t.run (front ++ back) = .ok steps ↔
      ∃ first later, t.run front = .ok first ∧ (t.finish first).run back = .ok later ∧
        steps = first ++ later := by
  induction front generalizing t steps with
  | nil =>
    constructor
    · intro h
      exact ⟨[], steps, rfl, h, rfl⟩
    · rintro ⟨first, later, hfirst, hlater, rfl⟩
      cases hfirst
      exact hlater
  | cons m rest ih =>
    rw [List.cons_append, run_cons_iff]
    constructor
    · rintro ⟨s, tail, hs, htail, rfl⟩
      obtain ⟨first, later, hfirst, hlater, rfl⟩ := ih.mp htail
      exact ⟨s :: first, later, run_cons_iff.mpr ⟨s, first, hs, hfirst, rfl⟩,
        by rw [finish_cons]; exact hlater, rfl⟩
    · rintro ⟨first, later, hfirst, hlater, rfl⟩
      obtain ⟨s, tail, hs, htail, rfl⟩ := run_cons_iff.mp hfirst
      rw [finish_cons] at hlater
      exact ⟨s, tail ++ later, hs, ih.mpr ⟨tail, later, htail, hlater, rfl⟩, rfl⟩

theorem run_concat_iff {t : Tablet τ} {ms : List Message} {m : Message} {steps : List (Step τ)} :
    t.run (ms ++ [m]) = .ok steps ↔
      ∃ front s, t.run ms = .ok front ∧ (t.finish front).step m = .ok s ∧
        steps = front ++ [s] := by
  rw [run_append_iff]
  constructor
  · rintro ⟨front, later, hfront, hlater, rfl⟩
    obtain ⟨s, rest, hs, hrest, rfl⟩ := run_cons_iff.mp hlater
    cases hrest
    exact ⟨front, s, hfront, hs, rfl⟩
  · rintro ⟨front, s, hfront, hs, rfl⟩
    exact ⟨front, [s], hfront, run_cons_iff.mpr ⟨s, [], hs, rfl, rfl⟩, rfl⟩

/-- **Induction along a run**, one step more at its end. -/
theorem run_induction {t : Tablet τ} {ms : List Message} {P : List (Step τ) → Tablet τ → Prop}
    (hstart : P [] t)
    (hstep : ∀ steps u, P steps u → ∀ m ∈ ms, ∀ s, u.step m = .ok s → P (steps ++ [s]) s.after)
    {steps : List (Step τ)} (h : t.run ms = .ok steps) : P steps (t.finish steps) := by
  suffices hfrom : ∀ before, P before t → P (before ++ steps) (t.finish steps) by
    simpa using hfrom [] hstart
  clear hstart
  induction ms generalizing t steps with
  | nil =>
    cases h
    intro before hbefore
    simpa using hbefore
  | cons m rest ih =>
    rw [run_cons_iff] at h
    obtain ⟨s, later, hs, hlater, rfl⟩ := h
    intro before hbefore
    have hnext := hstep before t hbefore m (List.mem_cons_self ..) s hs
    have hrest := ih (fun steps u hP k hk => hstep steps u hP k (List.mem_cons_of_mem _ hk)) hlater
      (before ++ [s]) hnext
    rw [List.append_assoc] at hrest
    rw [finish_cons]
    exact hrest

theorem message_of_step {t : Tablet τ} {m : Message} {s : Step τ} (h : t.step m = .ok s) :
    s.message = m := by
  unfold step at h
  split at h
  · rw [← Except.ok.inj h]
  · rw [← Except.ok.inj h]
  · cases h

theorem messages_of_run {t : Tablet τ} {ms : List Message} {steps : List (Step τ)}
    (h : t.run ms = .ok steps) : steps.map (·.message) = ms := by
  induction ms generalizing t steps with
  | nil =>
    cases h
    rfl
  | cons m rest ih =>
    rw [run_cons_iff] at h
    obtain ⟨s, later, hs, hlater, rfl⟩ := h
    rw [List.map_cons, ih hlater, message_of_step hs]

/-- Every prefix of a run is one, and what follows goes on from where it ended. -/
theorem run_of_append {t : Tablet τ} {ms : List Message} {front back : List (Step τ)}
    (h : t.run ms = .ok (front ++ back)) :
    t.run (front.map (·.message)) = .ok front ∧
      (t.finish front).run (back.map (·.message)) = .ok back := by
  have hmessages := messages_of_run h
  rw [List.map_append] at hmessages
  rw [← hmessages] at h
  rw [run_append_iff] at h
  obtain ⟨first, later, hfirst, hlater, hsteps⟩ := h
  have hcount := congrArg List.length (messages_of_run hfirst)
  simp only [List.length_map] at hcount
  obtain ⟨rfl, rfl⟩ := List.append_inj hsteps hcount.symm
  exact ⟨hfirst, hlater⟩

theorem step_of_run {t : Tablet τ} {ms : List Message} {front back : List (Step τ)} {s : Step τ}
    (h : t.run ms = .ok (front ++ s :: back)) : (t.finish front).step s.message = .ok s := by
  have hlast := (run_of_append h).2
  rw [List.map_cons, run_cons_iff] at hlast
  obtain ⟨s', later, hs', -, heq⟩ := hlast
  obtain ⟨rfl, -⟩ := List.cons.inj heq
  exact hs'

/-! ### What a step is, and what no step breaks -/

theorem step_cases {spec : TableSpec} {range : Interval} {t : Tablet τ} (hs : t.Serves spec range)
    {m : Message} {s : Step τ} (h : t.step m = .ok s) :
    (∃ why, s = ⟨m, .error why, t⟩) ∨
      ∃ replies t', s = ⟨m, .ok replies, t'⟩ ∧ t.Move m replies t' := by
  unfold step at h
  rcases handle_cases hs.toSound m with ⟨why, hcase⟩ | ⟨why, hcase⟩ | ⟨replies, t', hcase, hmove⟩
  · rw [hcase] at h
    exact Or.inl ⟨why, (Except.ok.inj h).symm⟩
  · rw [hcase] at h
    cases h
  · rw [hcase] at h
    exact Or.inr ⟨replies, t', (Except.ok.inj h).symm, hmove⟩

/-- A reset is acknowledged, and nothing else is sent. -/
theorem verdict_of_close {spec : TableSpec} {range : Interval} {t : Tablet τ}
    (hs : t.Serves spec range) {m : Message} {s : Step τ} (h : t.step m = .ok s)
    (htook : s.took .resetWorkers = true) : s.verdict = .ok [s.message.reply] := by
  rcases step_cases hs h with ⟨why, rfl⟩ | ⟨replies, t', rfl, hmove⟩
  · cases htook
  · have hop : m.op = .resetWorkers := Step.op_of_took htook
    cases hmove with
    | close => rfl
    | _ => simp_all only [reduceCtorEq]

theorem serves_of_step {spec : TableSpec} {range : Interval} {t : Tablet τ}
    (hs : t.Serves spec range) {m : Message} {s : Step τ} (h : t.step m = .ok s) :
    s.after.Serves spec range := by
  rcases step_cases hs h with ⟨why, rfl⟩ | ⟨replies, t', rfl, hmove⟩
  · exact hs
  · exact serves_of_move hs hmove

theorem check_of_step {spec : TableSpec} {range : Interval} {t : Tablet τ}
    (hs : t.Serves spec range) {m : Message} (hop : m.op ≠ .resetWorkers) {s : Step τ}
    (h : t.step m = .ok s) {worker : ThreadId} (hworker : t.slice.roster.check worker = .ok ()) :
    s.after.slice.roster.check worker = .ok () := by
  rcases step_cases hs h with ⟨why, rfl⟩ | ⟨replies, t', rfl, hmove⟩
  · exact hworker
  · exact check_of_move hop hmove hworker

/-- **Clocks.** In a closed roster no clock moves but that of a worker that says it has got
further. -/
theorem clockOf?_of_step {spec : TableSpec} {range : Interval} {t : Tablet τ}
    (hs : t.Serves spec range) (hclosed : t.slice.roster.closed = true) {m : Message}
    (hop : m.op ≠ .resetWorkers) {s : Step τ} (h : t.step m = .ok s) {seen : Clock}
    (hknown : t.slice.roster.clockOf? m.sender = some seen) (worker : ThreadId) :
    s.after.slice.roster.clockOf? worker =
      if m.op = .clock ∧ seen < m.clock ∧ worker = m.sender then some m.clock
      else t.slice.roster.clockOf? worker := by
  rcases step_cases hs h with ⟨why, rfl⟩ | ⟨replies, t', rfl, hmove⟩
  · -- A clock that is ahead is not refused.
    rw [if_neg]
    rintro ⟨hclock, hlt, -⟩
    have hadvance : t.slice.roster.advance m.sender m.clock = .ok _ :=
      Roster.advance_eq_ok_iff.mpr ⟨Roster.check_eq_ok_iff.mpr fun _ => ⟨seen, hknown⟩,
        by rwa [hknown], rfl, rfl⟩
    have hrefused : t.handle m = .error why t := by
      unfold step at h
      split at h
      case h_1 => cases h
      case h_2 hcase =>
        obtain ⟨⟩ := Except.ok.inj h
        exact hcase
      case h_3 => cases h
    rw [advance_of_refused hclock hrefused] at hadvance
    cases hadvance
  · rcases roster_of_move hop hmove with ⟨hclock, henrol⟩ | ⟨hclock, risen, hadvance⟩
    · rw [Roster.enrol_of_closed hclosed henrol, if_neg fun hall => hclock hall.1]
    · obtain ⟨-, hlt, -⟩ := Roster.advance_eq_ok_iff.mp hadvance
      rw [hknown, Option.getD_some] at hlt
      simp [Roster.clockOf?_advance hadvance, hclock, hlt]

theorem serves_of_run {spec : TableSpec} {range : Interval} {t : Tablet τ}
    (hs : t.Serves spec range) {ms : List Message} {steps : List (Step τ)}
    (h : t.run ms = .ok steps) : (t.finish steps).Serves spec range :=
  run_induction (P := fun _ u => u.Serves spec range) hs
    (fun _ _ hu _ _ _ hstep => serves_of_step hu hstep) h

/-- Sound messages of a worker that the roster knows are all taken in. -/
theorem taken_of_known {spec : TableSpec} {range : Interval} {t : Tablet τ}
    (hs : t.Serves spec range) {m : Message} {clock : Clock}
    (hknown : t.slice.roster.clockOf? m.sender = some clock)
    (hadds : m.op = .add → m.AddsIn τ range) (hreads : m.op = .get → m.ReadsIn range)
    {s : Step τ} (h : t.step m = .ok s) {op : Op} (hop : op = .add ∨ op = .get) :
    Step.taken op [s] = [m].filter fun m => decide (m.op = op) := by
  have hmessage := message_of_step h
  by_cases hsame : m.op = op
  · have hfit : (m.op = .add ∧ m.AddsIn τ t.slice.range) ∨
        (m.op = .get ∧ m.ReadsIn t.slice.range) := by
      rw [hs.range_eq]
      rcases hop with rfl | rfl
      · exact Or.inl ⟨hsame, hadds hsame⟩
      · exact Or.inr ⟨hsame, hreads hsame⟩
    unfold step at h
    split at h
    case h_1 =>
      obtain rfl := Except.ok.inj h
      exact Step.taken_of_accepted ..
    case h_2 why t' hrefused =>
      exact absurd hrefused (handle_ne_error hs.toSound m hknown hfit why t')
    case h_3 => cases h
  · rw [Step.taken_of_ne (hmessage ▸ hsame)]
    simp [hsame]

end Tablet

end ParamServer
