import ParamServer.Proofs.Tablet.Overflow
import ParamServer.Shard

/-!
# What keeps a shard going

A shard lives from its start through whatever is sent to it and asked of it, in any order. All the
tablets that it hosts were new once, so no message can make one of them fail in any other way than
by a sum that leaves its type (`Shard.crashed_of_turn`). Short of that a message changes the tablet
that it is for and nothing else.
-/

namespace ParamServer

variable {τ : ScalarType}

namespace Tablet

theorem serves_of_handle {spec : TableSpec} {range : Interval} {t t' : Tablet τ}
    (hs : t.Serves spec range) {m : Message}
    (h : (∃ replies, t.handle m = .ok replies t') ∨ ∃ why, t.handle m = .error why t') :
    t'.Serves spec range := by
  rcases h with ⟨replies, h⟩ | ⟨why, h⟩
  · exact serves_of_move hs (move_of_handle hs.toSound m h)
  · rw [eq_of_handle_error hs.toSound m h]
    exact hs

end Tablet

/-- What a cluster asks a shard to host is new. -/
def Request.Fresh : Request → Prop
  | .install _ hosted => ∃ spec table shard range,
      Tablet.new hosted.type spec table shard range = .ok hosted.tablet
  | _ => True

/-- Whether the loop goes on. -/
def Phase.runs : Phase → Bool
  | .serving | .draining => true
  | .stopped | .crashed _ => false

namespace Shard

/-- A shard at any time of its life. Between two turns the queues may change as they like. -/
inductive Lives : Shard → Prop
  | start (id : ThreadId) (channel : ChannelId) : Lives { id, channel }
  | asked {s : Shard} (h : Lives s) {r : Request} (hfresh : r.Fresh) :
      Lives { s with requests := s.requests ++ [r] }
  | turn {s : Shard} (h : Lives s) (e : Exchange) (which : Turn) : Lives (s.turn e which).2.1

/-- The tablets are as their specifications want them, and so are those that are to come. -/
structure Sound (s : Shard) : Prop where
  hosted : ∀ table hosted, s.tablets.get? table = some hosted →
    ∃ spec range, hosted.tablet.Serves spec range
  asked : ∀ r ∈ s.requests, r.Fresh

/-- A message takes a sum of the tablet that it is for out of its type. -/
def Overflows (s : Shard) (m : Message) : Prop :=
  ∃ hosted, s.tablets.get? m.table = some hosted ∧ hosted.tablet.Admits m ∧
    hosted.tablet.Overflows m

variable {s : Shard}

theorem hosted_insert (h : s.Sound) {table : TableId} {hosted : Hosted}
    (hserves : ∃ spec range, hosted.tablet.Serves spec range) (other : TableId) (found : Hosted)
    (hfound : (s.tablets.insert table hosted).get? other = some found) :
    ∃ spec range, found.tablet.Serves spec range := by
  rw [SortedMap.get?_insert] at hfound
  split at hfound
  · obtain rfl := Option.some.inj hfound
    exact hserves
  · exact h.hosted other found hfound

/-- **One message.** It changes the tablet that it is for, if that, or it ends the shard. -/
theorem handle_cases (h : s.Sound) (e : Exchange) (m : Message) :
    (s.handle e m).2.1 = s ∨
    (∃ hosted, (∃ spec range, hosted.tablet.Serves spec range) ∧
      (s.handle e m).2.1 = { s with tablets := s.tablets.insert m.table hosted }) ∨
    (s.Overflows m ∧ (s.handle e m).2.1 = (s.leave e (.crashed .addOverflow)).1) := by
  unfold handle
  cases hfind : s.tablets.get? m.table with
  | none => exact Or.inl rfl
  | some hosted =>
    obtain ⟨spec, range, hserves⟩ := h.hosted m.table hosted hfind
    obtain ⟨τ, t⟩ := hosted
    right
    cases hcase : t.handle m with
    | ok replies t' =>
      refine Or.inl ⟨⟨τ, t'⟩, ⟨spec, range, ?_⟩, by simp only [Hosted.handle, hcase]; rfl⟩
      exact Tablet.serves_of_handle hserves (Or.inl ⟨replies, hcase⟩)
    | error why t' =>
      refine Or.inl ⟨⟨τ, t'⟩, ⟨spec, range, ?_⟩, by simp only [Hosted.handle, hcase]; rfl⟩
      exact Tablet.serves_of_handle hserves (Or.inr ⟨why, hcase⟩)
    | fault why =>
      obtain ⟨rfl, hadmits, hlarge⟩ := (Tablet.fault_iff hserves.toSound).mp hcase
      exact Or.inr ⟨⟨⟨τ, t⟩, hfind, hadmits, hlarge⟩, by simp only [Hosted.handle, hcase]; rfl⟩

theorem sound_of_handle (h : s.Sound) (e : Exchange) (m : Message) :
    (s.handle e m).2.1.Sound := by
  rcases handle_cases h e m with hsame | ⟨hosted, hserves, hcase⟩ | ⟨-, hcase⟩
  · rw [hsame]
    exact h
  · rw [hcase]
    exact ⟨hosted_insert h hserves, h.asked⟩
  · rw [hcase]
    exact ⟨h.hosted, by simp [leave]⟩

theorem sound_of_serve (h : s.Sound) {r : Request} (hfresh : r.Fresh) : (s.serve r).2.Sound := by
  cases r with
  | install table hosted =>
    simp only [serve]
    split
    · exact h
    · obtain ⟨spec, _, _, range, hnew⟩ := hfresh
      exact ⟨hosted_insert h ⟨spec, range, Tablet.serves_new hnew⟩, h.asked⟩
  | report => exact h
  | stop => exact ⟨h.hosted, h.asked⟩

/-- **One turn.** It does nothing, or carries out a request, or handles a message, or closes or ends
the shard. -/
theorem turn_cases (s : Shard) (e : Exchange) (which : Turn) :
    s.turn e which = (.idle, s, e) ∨
    (∃ r rest served, which = .request ∧ s.phase = .serving ∧ s.requests = r :: rest ∧
      served = Shard.serve { s with requests := rest } r ∧
      s.turn e which = (served.1, served.2, e)) ∨
    (∃ m e', e.receive s.channel = some (m, e') ∧ s.phase.runs = true ∧
      s.turn e which = s.handle e' m) ∨
    (s.phase = .serving ∧ s.turn e which = (.closing, { s with phase := .draining }, e)) ∨
    (e.receive s.channel = none ∧ s.phase = .draining ∧
      s.turn e which = (.ended, s.leave e .stopped)) := by
  unfold turn
  split
  · next hserving =>
    split
    · exact Or.inl rfl
    · next r rest hrequests =>
      exact Or.inr (Or.inl ⟨r, rest, _, rfl, hserving, hrequests, rfl, rfl⟩)
  · next hserving =>
    split
    · next m e' hreceive =>
      exact Or.inr (Or.inr (Or.inl ⟨m, e', hreceive, by rw [hserving]; rfl, rfl⟩))
    · split
      · exact Or.inl rfl
      · exact Or.inr (Or.inr (Or.inr (Or.inl ⟨hserving, rfl⟩)))
  · next hdraining =>
    split
    · next m e' hreceive =>
      exact Or.inr (Or.inr (Or.inl ⟨m, e', hreceive, by rw [hdraining]; rfl, rfl⟩))
    · next hreceive => exact Or.inr (Or.inr (Or.inr (Or.inr ⟨hreceive, hdraining, rfl⟩)))
  · exact Or.inl rfl
  · exact Or.inl rfl

theorem sound_of_turn (h : s.Sound) (e : Exchange) (which : Turn) :
    (s.turn e which).2.1.Sound := by
  rcases turn_cases s e which with
    hcase | ⟨r, rest, _, -, -, hrequests, rfl, hcase⟩ | ⟨m, e', -, -, hcase⟩ | ⟨-, hcase⟩ |
      ⟨-, -, hcase⟩
  all_goals rw [hcase]
  · exact h
  · have hall := h.asked
    rw [hrequests, List.forall_mem_cons] at hall
    exact sound_of_serve (s := { s with requests := rest }) ⟨h.hosted, hall.2⟩ hall.1
  · exact sound_of_handle h e' m
  · exact ⟨h.hosted, h.asked⟩
  · exact ⟨h.hosted, by simp [leave]⟩

theorem sound_of_lives (h : s.Lives) : s.Sound := by
  induction h with
  | start id channel =>
    constructor
    · intro table hosted hfind
      cases hfind
    · intro r hr
      cases hr
  | asked h hfresh ih =>
    refine ⟨ih.hosted, fun r hr => ?_⟩
    rcases List.mem_append.mp hr with hold | hnew
    · exact ih.asked r hold
    · rwa [List.mem_singleton.mp hnew]
  | turn h e which ih => exact sound_of_turn ih e which

theorem crashed_of_handle (h : s.Sound) {e : Exchange} {m : Message} {why : Fault}
    (hcrash : (s.handle e m).2.1.phase = .crashed why) :
    s.phase = .crashed why ∨ (why = .addOverflow ∧ s.Overflows m) := by
  rcases handle_cases h e m with hsame | ⟨hosted, -, hcase⟩ | ⟨hlarge, hcase⟩
  · rw [hsame] at hcrash
    exact Or.inl hcrash
  · rw [hcase] at hcrash
    exact Or.inl hcrash
  · rw [hcase] at hcrash
    exact Or.inr ⟨(Phase.crashed.inj hcrash).symm, hlarge⟩

theorem phase_of_serve (s : Shard) (r : Request) :
    (s.serve r).2.phase = s.phase ∨ (s.serve r).2.phase = .draining := by
  cases r with
  | install table hosted =>
    simp only [serve]
    split <;> exact Or.inl rfl
  | report => exact Or.inl rfl
  | stop => exact Or.inr rfl

/-- **A shard crashes** in the turn in which a message takes a sum of one of its tablets out of its
type, and in no other. -/
theorem crashed_of_turn (h : s.Lives) {e : Exchange} {which : Turn} {why : Fault}
    (hcrash : (s.turn e which).2.1.phase = .crashed why) :
    s.phase = .crashed why ∨
      (why = .addOverflow ∧ ∃ m e', e.receive s.channel = some (m, e') ∧ s.Overflows m) := by
  rcases turn_cases s e which with
    hcase | ⟨r, rest, _, -, -, -, rfl, hcase⟩ | ⟨m, e', hreceive, -, hcase⟩ | ⟨-, hcase⟩ |
      ⟨-, -, hcase⟩
  all_goals rw [hcase] at hcrash
  · exact Or.inl hcrash
  · rcases phase_of_serve { s with requests := rest } r with hsame | hdraining
    · exact Or.inl (hsame ▸ hcrash)
    · exact absurd (hdraining.symm.trans hcrash) (by simp)
  · rcases crashed_of_handle (sound_of_lives h) hcrash with hsame | ⟨hwhy, hlarge⟩
    · exact Or.inl hsame
    · exact Or.inr ⟨hwhy, m, e', hreceive, hlarge⟩
  · cases hcrash
  · cases hcrash

/-- **What brings a shard down.** In every state that messages can bring a new tablet into, a
message breaks the tablet exactly if it is admitted and what it makes land, be it the message itself
or updates that have waited for it, takes a sum of integers out of 64 bits. Then the shard is gone.
Whatever else the message is, the shard goes on with all its other tablets as they were. -/
theorem goes_on_unless_overflow {spec : TableSpec} {table : TableId} {id : ThreadId}
    {range : Interval} {fresh : Tablet τ} (hnew : Tablet.new τ spec table id range = .ok fresh)
    {ms : List Message} {steps : List (Step τ)} (hrun : fresh.run ms = .ok steps) (m : Message) :
    let t := fresh.finish steps
    (∀ why, t.handle m = .fault why ↔ why = .addOverflow ∧ t.Admits m ∧ t.Overflows m) ∧
    (t.Overflows m → τ = .integer) ∧
    ∀ (s : Shard) (e : Exchange), s.tablets.get? m.table = some ⟨τ, t⟩ →
      (t.Admits m ∧ t.Overflows m → (s.handle e m).2.1.phase = .crashed .addOverflow) ∧
      (¬(t.Admits m ∧ t.Overflows m) → ∃ t',
        (s.handle e m).2.1 = { s with tablets := s.tablets.insert m.table ⟨τ, t'⟩ }) := by
  intro t
  have hs : t.Sound := (Tablet.serves_of_run (Tablet.serves_new hnew) hrun).toSound
  refine ⟨fun why => Tablet.fault_iff hs, Store.integer_of_overflows, ?_⟩
  intro s e hhosted
  unfold handle
  simp only [hhosted, Hosted.handle]
  cases hcase : t.handle m with
  | fault why =>
    obtain ⟨rfl, hlarge⟩ := (Tablet.fault_iff hs).mp hcase
    exact ⟨fun _ => rfl, fun hfit => absurd hlarge hfit⟩
  | ok replies t' =>
    refine ⟨fun hlarge => ?_, fun _ => ⟨t', rfl⟩⟩
    rw [(Tablet.fault_iff hs).mpr ⟨rfl, hlarge⟩] at hcase
    cases hcase
  | error why t' =>
    refine ⟨fun hlarge => ?_, fun _ => ⟨t', rfl⟩⟩
    rw [(Tablet.fault_iff hs).mpr ⟨rfl, hlarge⟩] at hcase
    cases hcase

def hosting (first second : Hosted) : Shard :=
  { id := 7, channel := 0, tablets := (SortedMap.empty.insert 0 first).insert 5 second }

/-- The key is filled up in the first iteration, and one more waits for the second. -/
def overdue : List Message := [
  ⟨.add, 1, 7, 0, 1, 0, [.keys [3], .integers [1]]⟩,
  ⟨.add, 1, 7, 0, 0, 0, [.keys [3], .integers [Int64.maxValue]]⟩]

theorem goes_on_unless_overflow_overdue :
    ∃ fresh steps,
      Tablet.new .integer (.bsp .sparse) 0 7 ⟨0, 10⟩ = .ok fresh ∧
      fresh.run overdue = .ok steps ∧
      ∀ (second : Hosted) (e : Exchange),
        let s := hosting ⟨.integer, fresh.finish steps⟩ second
        ∃ t', (s.handle e ⟨.get, 1, 7, 0, 0, 1, [.keys [3]]⟩).2.1 =
          { s with tablets := s.tablets.insert 0 ⟨.integer, t'⟩ } := by
  have hnew : Tablet.new .integer (.bsp .sparse) 0 7 ⟨0, 10⟩ =
      .ok ⟨.new 0 7 ⟨0, 10⟩ (.sparse .empty), .barrier⟩ := rfl
  have hrun : Tablet.run (τ := .integer) ⟨.new 0 7 ⟨0, 10⟩ (.sparse .empty), .barrier⟩ overdue =
      .ok _ := rfl
  refine ⟨_, _, hnew, hrun, fun second e => ?_⟩
  obtain ⟨hfault, -, hshard⟩ :=
    goes_on_unless_overflow hnew hrun ⟨.get, 1, 7, 0, 0, 1, [.keys [3]]⟩
  refine (hshard (hosting _ second) e rfl).2 fun hlarge => ?_
  have hbroken := (hfault .addOverflow).mpr ⟨rfl, hlarge⟩
  cases hbroken

/-- The worker moves on, and with that its own update of before brings the shard down, and every
other table with it. -/
theorem clock_brings_shard_down :
    ∃ fresh steps,
      Tablet.new .integer (.bsp .sparse) 0 7 ⟨0, 10⟩ = .ok fresh ∧
      fresh.run overdue = .ok steps ∧
      (fresh.finish steps).handle ⟨.clock, 1, 7, 0, 1, 0, []⟩ = .fault .addOverflow ∧
      ∀ (second : Hosted) (e : Exchange),
        ((hosting ⟨.integer, fresh.finish steps⟩ second).handle e
          ⟨.clock, 1, 7, 0, 1, 0, []⟩).2.1.phase = .crashed .addOverflow :=
  ⟨_, _, rfl, rfl, rfl, fun _ _ => rfl⟩

end Shard

end ParamServer
