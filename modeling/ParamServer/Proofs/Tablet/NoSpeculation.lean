import ParamServer.Proofs.Tablet.Lockstep

/-!
# Speculation with a threshold of zero

A speculative tablet with a threshold of zero still logs every write, and still goes over all that
waits when the minimum rises. But no key has fewer than zero foreign writes, so nothing is answered
early and the log makes no difference to anybody outside (`run_eq_of_zero`). The two tablets may file
what waits differently, as long as they read the same.
-/

namespace ParamServer.Tablet

variable {τ : ScalarType} {S : Clock} {t u : Tablet τ}

/-- A plain gate and a watchful one that never opens early, and the same entries before both. -/
structure Idle (S : Clock) (g g' : Gate) (w w' : Waitlist) : Prop where
  plain : g = .bounded S
  watchful : ∃ log, g' = .speculative S 0 log
  entries_eq : w'.entries = w.entries

theorem idle_note {g g' : Gate} {w w' : Waitlist} (h : Idle S g g' w w') (m : Message) :
    Idle S (g.note m) (g'.note m) w w' := by
  obtain ⟨rfl, ⟨log, rfl⟩, hentries⟩ := h
  obtain ⟨log', hnote⟩ := Gate.exists_note_eq log m
  exact ⟨rfl, ⟨log', hnote S 0⟩, hentries⟩

theorem idle_park {g g' : Gate} {w w' : Waitlist} (h : Idle S g g' w w') (clock : Clock)
    (m : Message) : Idle S g g' (w.park clock m) (w'.park clock m) := by
  refine ⟨h.plain, h.watchful, ?_⟩
  rw [Waitlist.entries_park, Waitlist.entries_park, h.entries_eq]

theorem early_of_zero (log : WriteLog) (m : Message) :
    Gate.early (.speculative S 0 log) m = false := rfl

/-- The second pass over what waits finds nothing. -/
theorem release_idle (h : t.Level (Idle S) u) (low : Clock) :
    (t.release low).Alike Eq (Level (Idle S)) (u.release low) := by
  obtain ⟨⟨waiting, hslice⟩, hplain, ⟨log, hwatchful⟩, hentries⟩ := h
  obtain ⟨slice, gate⟩ := t
  obtain rfl : gate = .bounded S := hplain
  obtain ⟨slice', gate'⟩ := u
  obtain rfl : gate' = .speculative S 0 log := hwatchful
  obtain rfl : slice' = { slice with waiting } := hslice
  let picked := (waiting.takeThrough low).2.takeWhere
    (Gate.early (.speculative S 0 (log.forgetBelow low)))
  have hnone : picked.1 = [] := by
    rw [Waitlist.takeWhere_fst]
    simp [early_of_zero]
  have hrest : picked.2.entries = (slice.waiting.takeThrough low).2.entries := by
    rw [Waitlist.takeWhere_snd, Waitlist.takeThrough_snd, Waitlist.takeThrough_snd, hentries]
    simp [early_of_zero]
  have hdue : (waiting.takeThrough low).1 = (slice.waiting.takeThrough low).1 := by
    rw [Waitlist.takeThrough_fst, Waitlist.takeThrough_fst, hentries]
  refine .ok ?_ ⟨⟨_, rfl⟩, rfl, ⟨_, rfl⟩, hrest⟩
  show Slice.answerAll { slice with waiting := (slice.waiting.takeThrough low).2 }
      (slice.waiting.takeThrough low).1 =
    Slice.answerAll { slice with waiting := picked.2 } ((waiting.takeThrough low).1 ++ picked.1)
  rw [hnone, hdue, List.append_nil]
  rfl

theorem handle_idle (ht : t.Sound) (hu : u.Sound) (h : t.Level (Idle S) u) (m : Message) :
    (t.handle m).Alike Eq (Level (Idle S)) (u.handle m) := by
  have hsame := h
  obtain ⟨⟨waiting, hslice⟩, hplain, ⟨log, hwatchful⟩, -⟩ := h
  obtain ⟨slice, gate⟩ := t
  obtain rfl : gate = .bounded S := hplain
  obtain ⟨slice', gate'⟩ := u
  obtain rfl : gate' = .speculative S 0 log := hwatchful
  obtain rfl : slice' = { slice with waiting } := hslice
  refine handle_level ht hu hsame m (fun _ => rfl) ⟨by simp, by simp⟩ (idle_note hsame.kept m) ?_ ?_
  · intro roster hreads henrol
    rw [onGet_eq ht m hreads henrol, onGet_eq hu m hreads henrol]
    have hpasses : Gate.passes (.speculative S 0 log) roster.minClock m =
        Gate.passes (.bounded S) roster.minClock m := rfl
    rw [hpasses]
    split
    · exact .ok rfl ⟨⟨waiting, rfl⟩, hsame.kept⟩
    · exact .ok rfl ⟨⟨_, rfl⟩, idle_park hsame.kept _ m⟩
  · intro roster low
    have hmoved : Level (Idle S) ⟨{ slice with roster }, .bounded S⟩
        ⟨{ slice with waiting, roster }, .speculative S 0 log⟩ := ⟨⟨waiting, rfl⟩, hsame.kept⟩
    exact release_idle hmoved low

theorem status_of_idle (h : t.Level (Idle S) u) :
    t.status = { u.status with model := .ssp } := by
  obtain ⟨⟨waiting, hslice⟩, hplain, -, hentries⟩ := h
  have hsize : t.slice.waiting.size = u.slice.waiting.size := by
    rw [Waitlist.size_eq_length, Waitlist.size_eq_length, hentries]
  unfold status
  rw [hsize, hplain, hslice]
  rfl

/-- The plain tablet asks for less than the watchful one, so it can be had as well. -/
theorem exists_new_plain {storage recorder : Backing} {table : TableId} {shard : ThreadId}
    {range : Interval} {watchful : Tablet τ}
    (hnew : Tablet.new τ (.sparseSsp storage S 0 recorder) table shard range = .ok watchful) :
    ∃ plain, Tablet.new τ (.ssp storage S) table shard range = .ok plain ∧
      plain.Level (Idle S) watchful := by
  obtain ⟨_, store, log, -, hstore, -, rfl⟩ := eq_of_new_speculative rfl hnew
  have hstore' : Store.new τ (TableSpec.ssp storage S).storage range = .ok store := hstore
  refine ⟨⟨.new table shard range store, .bounded S⟩, ?_, ⟨⟨_, rfl⟩, rfl, ⟨log, rfl⟩, rfl⟩⟩
  simp only [new, assemble, hstore']
  rfl

/-- **A threshold of zero is no speculation.** Beside a new speculative tablet with a threshold of
zero stands a plain one with the same bound, storage and range. Whatever is sent to both, they give
the same replies in the same order, refuse the same messages for the same reasons, break down on the
same one if at all, and show the same status after each, but for the name of the model. -/
theorem run_eq_of_zero {storage recorder : Backing} {table : TableId} {shard : ThreadId}
    {range : Interval} {watchful : Tablet τ}
    (hnew : Tablet.new τ (.sparseSsp storage S 0 recorder) table shard range = .ok watchful) :
    ∃ plain, Tablet.new τ (.ssp storage S) table shard range = .ok plain ∧
      plain.status = { watchful.status with model := .ssp } ∧
      ∀ ms : List Message,
        (plain.run ms).map (List.map fun s => (s.verdict, s.after.status)) =
          (watchful.run ms).map (List.map fun s =>
            (s.verdict, { s.after.status with model := .ssp })) := by
  obtain ⟨plain, hplain, hlevel⟩ := exists_new_plain hnew
  refine ⟨plain, hplain, status_of_idle hlevel, fun ms => ?_⟩
  refine run_map_eq (fun ht hu h => handle_idle ht.toSound hu.toSound h) (serves_new hplain)
    (serves_new hnew) hlevel ?_ ms
  intro a b halike
  rw [status_of_idle halike.after, halike.verdict_eq]

/-- Worker 2 is too far ahead for its first read, and its second one asks for a key that the shard
does not have. -/
def brisk : List Message := [
  ⟨.add, 1, 7, 0, 0, 0, [.keys [3], .integers [5]]⟩,
  ⟨.clock, 2, 7, 0, 2, 0, []⟩,
  ⟨.get, 2, 7, 0, 2, 1, [.keys [3]]⟩,
  ⟨.get, 2, 7, 0, 2, 2, [.keys [12]]⟩,
  ⟨.clock, 1, 7, 0, 1, 0, []⟩,
  ⟨.resetWorkers, 9, 7, 0, 0, 3, [.keys [2, 4]]⟩]

theorem run_eq_of_zero_brisk :
    ∃ plain watchful,
      Tablet.new .integer (.ssp .sparse 1) 0 7 ⟨0, 10⟩ = .ok plain ∧
      Tablet.new .integer (.sparseSsp .sparse 1 0 .sparse) 0 7 ⟨0, 10⟩ = .ok watchful ∧
      (watchful.run brisk).toOption.map (List.map fun s =>
          (s.verdict.toOption.map List.length, s.after.status.waiting)) =
        some [(some 0, 0), (some 0, 0), (some 0, 1), (none, 1), (some 1, 0), (some 1, 0)] ∧
      (plain.run brisk).map (List.map fun s => (s.verdict, s.after.status)) =
        (watchful.run brisk).map (List.map fun s =>
          (s.verdict, { s.after.status with model := .ssp })) := by
  let watchful : Tablet .integer :=
    ⟨.new 0 7 ⟨0, 10⟩ (.sparse .empty), .speculative 1 0 (.sparse .empty)⟩
  have hnew : Tablet.new .integer (.sparseSsp .sparse 1 0 .sparse) 0 7 ⟨0, 10⟩ = .ok watchful := rfl
  obtain ⟨plain, hplain, -, hrun⟩ := run_eq_of_zero hnew
  refine ⟨plain, watchful, hplain, hnew, ?_, hrun brisk⟩
  decide +kernel

end ParamServer.Tablet
