import ParamServer.Proofs.Tablet.Lockstep

/-!
# The layouts are interchangeable

A dense layout has a slot for each key of the range, a sparse one an entry for each key that was
written, and forgetting empties the slot of the one where it drops the entry of the other. What is
read from them is the same. So two tablets that keep the same values and the same stamps in
different layouts cannot be told apart from outside, except by the room that they take
(`run_eq_of_relaid`). A dense layout is never asked for a key that it has no slot for: what is taken
in has its keys in the range, and what waits has been taken in.
-/

namespace ParamServer

variable {τ : ScalarType} {range : Interval}

/-- The same table in other layouts. A rule that keeps no log has none to lay out. -/
def TableSpec.relaid (spec : TableSpec) (storage recorder : Backing) : TableSpec :=
  { spec with storage, recorder := spec.recorder.map fun _ => recorder }

/-- Whether a specification makes sense has nothing to do with layouts. -/
theorem TableSpec.validate_relaid (spec : TableSpec) (storage recorder : Backing) :
    (spec.relaid storage recorder).validate = spec.validate := by
  obtain ⟨model, _, staleness, speculation, recorder'⟩ := spec
  cases model <;> cases recorder' <;> rfl

/-- The place of a key does not lie before the first slot or behind the last. -/
def Slots.Has {α : Type} (slots : Slots α range) (key : Key) : Prop :=
  range.lo ≤ key ∧ range.offset key < slots.toArray.size

theorem Slots.has_of_mem {α : Type} (slots : Slots α range) {key : Key} (hkey : key ∈ range) :
    slots.Has key := by
  refine ⟨hkey.1, ?_⟩
  rw [Vector.size_toArray]
  exact Interval.offset_lt_width hkey

/-! ### Values -/

def Store.HasSlot : Store τ → Key → Prop
  | .sparse _, _ => True
  | .dense _ slots, key => slots.Has key

structure Store.SameOn (range : Interval) (s s' : Store τ) : Prop where
  covers : s.Covers range
  covers' : s'.Covers range
  value_eq : ∀ key ∈ range, s'.value key = s.value key

namespace Store

theorem hasSlot_of_covers {s : Store τ} (hcovers : s.Covers range) {key : Key}
    (hkey : key ∈ range) : s.HasSlot key := by
  cases s with
  | sparse values => trivial
  | dense slotted slots =>
    obtain rfl : slotted = range := hcovers
    exact slots.has_of_mem hkey

theorem exists_new_of_dense {dense : Store τ} (h : new τ .dense range = .ok dense)
    (backing : Backing) : ∃ s, new τ backing range = .ok s ∧ dense.SameOn range s := by
  obtain ⟨s, hs⟩ : ∃ s, new τ backing range = .ok s := by
    cases backing with
    | sparse => exact ⟨_, rfl⟩
    | dense => exact ⟨dense, h⟩
  refine ⟨s, hs, covers_new h, covers_new hs, ?_⟩
  intro key _
  rw [value_new h, value_new hs]

/-- **The same batch** leaves the same values, or leaves the type in both layouts. -/
theorem SameOn.addAll {s s' : Store τ} (h : s.SameOn range s') {pairs : List (Key × τ.Value)}
    (hpairs : ∀ e ∈ pairs, e.1 ∈ range) :
    (s.addAll pairs).Alike Eq (Store.SameOn range) (s'.addAll pairs) := by
  have hoverflows : s'.Overflows range pairs ↔ s.Overflows range pairs :=
    overflows_congr h.value_eq
  rcases addAll_cases h.covers hpairs with ⟨hfit, t, ht⟩ | ⟨hlarge, hfault⟩
  · rcases addAll_cases h.covers' hpairs with ⟨-, t', ht'⟩ | ⟨hlarge', -⟩
    · obtain ⟨hcovers, hsums⟩ := addAll_ok h.covers hpairs ht
      obtain ⟨hcovers', hsums'⟩ := addAll_ok h.covers' hpairs ht'
      rw [ht, ht']
      refine .ok rfl ⟨hcovers, hcovers', ?_⟩
      intro key hkey
      have hsame := hsums' key hkey
      rw [h.value_eq key hkey, hsums key hkey] at hsame
      exact (Except.ok.inj hsame).symm
    · exact absurd (hoverflows.mp hlarge') hfit
  · rcases addAll_cases h.covers' hpairs with ⟨hfit', -⟩ | ⟨-, hfault'⟩
    · exact absurd (hoverflows.mpr hlarge) hfit'
    · rw [hfault, hfault']
      exact .fault

end Store

/-! ### Stamps -/

def WriteLog.HasSlot : WriteLog → Key → Prop
  | .sparse _, _ => True
  | .dense _ slots, key => slots.Has key

structure WriteLog.SameOn (range : Interval) (log log' : WriteLog) : Prop where
  covers : log.Covers range
  covers' : log'.Covers range
  tidy : log.Tidy
  tidy' : log'.Tidy
  stamps_eq : ∀ key, log'.stamps key = log.stamps key

namespace WriteLog

theorem hasSlot_of_covers {log : WriteLog} (hcovers : log.Covers range) {key : Key}
    (hkey : key ∈ range) : log.HasSlot key := by
  cases log with
  | sparse stamps => trivial
  | dense slotted slots =>
    obtain rfl : slotted = range := hcovers
    exact slots.has_of_mem hkey

theorem exists_new_of_dense {dense : WriteLog} (h : new .dense range = .ok dense)
    (backing : Backing) : ∃ log, new backing range = .ok log ∧ dense.SameOn range log := by
  obtain ⟨log, hlog⟩ : ∃ log, new backing range = .ok log := by
    cases backing with
    | sparse => exact ⟨_, rfl⟩
    | dense => exact ⟨dense, h⟩
  obtain ⟨htidy, hnil⟩ := tidy_new h
  obtain ⟨htidy', hnil'⟩ := tidy_new hlog
  refine ⟨log, hlog, covers_new h, covers_new hlog, htidy, htidy', ?_⟩
  intro key
  rw [hnil, hnil']

variable {log log' : WriteLog}

theorem SameOn.record (h : log.SameOn range log') {key : Key} (hkey : key ∈ range)
    (writer : ThreadId) (clock : Clock) :
    ∃ next next', log.record key writer clock = .ok () next ∧
      log'.record key writer clock = .ok () next' ∧ next.SameOn range next' := by
  obtain ⟨next, hnext, hcovers, hstamps⟩ := record_of_covers h.covers hkey writer clock
  obtain ⟨next', hnext', hcovers', hstamps'⟩ := record_of_covers h.covers' hkey writer clock
  refine ⟨next, next', hnext, hnext', hcovers, hcovers',
    tidy_record h.covers h.tidy hkey hnext, tidy_record h.covers' h.tidy' hkey hnext', ?_⟩
  intro j
  rw [hstamps', hstamps, h.stamps_eq, h.stamps_eq]

/-- **The same keys stamped** are remembered alike. -/
theorem SameOn.recordAll (h : log.SameOn range log') {keys : List Key}
    (hkeys : ∀ key ∈ keys, key ∈ range) (writer : ThreadId) (clock : Clock) :
    ∃ next next', log.recordAll writer clock keys = .ok () next ∧
      log'.recordAll writer clock keys = .ok () next' ∧ next.SameOn range next' := by
  induction keys generalizing log log' with
  | nil => exact ⟨log, log', rfl, rfl, h⟩
  | cons key rest ih =>
    obtain ⟨mid, mid', hmid, hmid', hsame⟩ :=
      h.record (hkeys key (List.mem_cons_self ..)) writer clock
    rw [WriteLog.recordAll, WriteLog.recordAll, hmid, hmid']
    exact ih hsame fun k hk => hkeys k (List.mem_cons_of_mem _ hk)

/-- What is forgotten is the same, although one layout drops a key where the other empties it. -/
theorem SameOn.forgetBelow (h : log.SameOn range log') (low : Clock) :
    SameOn range (log.forgetBelow low) (log'.forgetBelow low) := by
  refine ⟨covers_forgetBelow h.covers low, covers_forgetBelow h.covers' low,
    tidy_forgetBelow h.tidy low, tidy_forgetBelow h.tidy' low, ?_⟩
  intro key
  rw [stamps_forgetBelow, stamps_forgetBelow, h.stamps_eq]

theorem SameOn.size_eq (h : log.SameOn range log') : log'.size = log.size := by
  obtain ⟨keys, hnodup, hsize, hmem⟩ := exists_keys_of_tidy h.tidy
  obtain ⟨keys', hnodup', hsize', hmem'⟩ := exists_keys_of_tidy h.tidy'
  have hperm : keys'.Perm keys := by
    rw [List.perm_ext_iff_of_nodup hnodup' hnodup]
    intro key
    rw [hmem, hmem', h.stamps_eq]
  rw [hsize, hsize', hperm.length_eq]

theorem SameOn.foreignWrites_eq (h : log.SameOn range log') :
    log'.foreignWrites = log.foreignWrites := by
  funext key reader
  rw [WriteLog.foreignWrites, WriteLog.foreignWrites, h.stamps_eq]

end WriteLog

/-! ### Gates -/

/-- The same rule, with its log in another layout. -/
inductive Gate.Relaid (range : Interval) : Gate → Gate → Prop
  | open : Relaid range .open .open
  | barrier : Relaid range .barrier .barrier
  | bounded (staleness : Clock) : Relaid range (.bounded staleness) (.bounded staleness)
  | speculative (staleness : Clock) (threshold : UInt64) {log log' : WriteLog}
      (hlog : log.SameOn range log') :
      Relaid range (.speculative staleness threshold log) (.speculative staleness threshold log')

namespace Gate

variable {g g' : Gate}

def tracked : Gate → Option Nat
  | .speculative _ _ log => some log.size
  | _ => none

def HasSlot : Gate → Key → Prop
  | .speculative _ _ log, key => log.HasSlot key
  | _, _ => True

theorem hasSlot_of_covers (hcovers : g.Covers range) {key : Key} (hkey : key ∈ range) :
    g.HasSlot key := by
  cases g with
  | speculative staleness threshold log => exact WriteLog.hasSlot_of_covers hcovers hkey
  | _ => trivial

theorem Relaid.model_eq (h : g.Relaid range g') : g'.model = g.model := by
  cases h <;> rfl

theorem Relaid.barrier_iff (h : g.Relaid range g') : g' = .barrier ↔ g = .barrier := by
  rw [eq_barrier_iff, eq_barrier_iff, h.model_eq]

theorem Relaid.due_eq (h : g.Relaid range g') : g'.due = g.due := by
  cases h <;> rfl

theorem Relaid.early_eq (h : g.Relaid range g') : g'.early = g.early := by
  cases h with
  | speculative staleness threshold hlog =>
    funext m
    simp only [early, hlog.foreignWrites_eq]
  | _ => rfl

theorem Relaid.passes_eq (h : g.Relaid range g') : g'.passes = g.passes := by
  funext low m
  rw [passes, passes, h.due_eq, h.early_eq]

theorem Relaid.tracked_eq (h : g.Relaid range g') : g'.tracked = g.tracked := by
  cases h with
  | speculative staleness threshold hlog =>
    simp only [tracked, hlog.size_eq]
  | _ => rfl

theorem Relaid.note (h : g.Relaid range g') {m : Message} (hreads : m.ReadsIn range) :
    (g.note m).Relaid range (g'.note m) := by
  cases h with
  | speculative staleness threshold hlog =>
    obtain ⟨next, next', hnext, hnext', hsame⟩ :=
      hlog.recordAll hreads.inside m.sender m.clock
    simp only [Gate.note, hnext, hnext']
    exact .speculative staleness threshold hsame
  | «open» => exact .open
  | barrier => exact .barrier
  | bounded staleness => exact .bounded staleness

theorem Relaid.forget (h : g.Relaid range g') (low : Clock) :
    (g.forget low).Relaid range (g'.forget low) := by
  cases h with
  | speculative staleness threshold hlog =>
    exact .speculative staleness threshold (hlog.forgetBelow low)
  | «open» => exact .open
  | barrier => exact .barrier
  | bounded staleness => exact .bounded staleness

theorem relaid_ofSpec {spec : TableSpec} {dense : Gate}
    (h : ofSpec (spec.relaid .dense .dense) range = .ok dense) (storage recorder : Backing) :
    ∃ g, ofSpec (spec.relaid storage recorder) range = .ok g ∧ dense.Relaid range g := by
  unfold ofSpec TableSpec.relaid at h ⊢
  cases hmodel : spec.model <;> simp only [hmodel] at h ⊢
  case sparseSsp =>
    cases hrecorder : spec.recorder with
    | none => simp [hrecorder] at h
    | some backing =>
      simp only [hrecorder, Option.map_some] at h ⊢
      cases hlog : WriteLog.new .dense range with
      | error why => simp [hlog, Except.map] at h
      | ok log =>
        obtain ⟨log', hlog', hsame⟩ := WriteLog.exists_new_of_dense hlog recorder
        rw [hlog] at h
        rw [hlog']
        obtain rfl := Except.ok.inj h
        exact ⟨_, rfl, .speculative _ _ hsame⟩
  case asp =>
    cases h
    exact ⟨_, rfl, .open⟩
  case bsp =>
    cases h
    exact ⟨_, rfl, .barrier⟩
  case ssp =>
    cases h
    exact ⟨_, rfl, .bounded _⟩

end Gate

/-! ### Tablets -/

namespace Tablet

/-- The same tablet, with its values and its log in other layouts. -/
structure Relaid (t u : Tablet τ) : Prop where
  slice_eq : ∃ store, u.slice = { t.slice with store }
  store : t.slice.store.SameOn t.slice.range u.slice.store
  gate : t.gate.Relaid t.slice.range u.gate

/-- What shows from outside but for the room taken, and how many keys were written of late. -/
def seen (t : Tablet τ) : TabletStatus × Option Nat :=
  ({ t.status with stored := 0 }, t.gate.tracked)

/-- Every key of the range has its place in both layouts. -/
def HasSlot (t : Tablet τ) (key : Key) : Prop := t.slice.store.HasSlot key ∧ t.gate.HasSlot key

end Tablet

/-- Only keys of the range are looked up, now or later, and for these there is a slot. -/
structure Step.InBounds (range : Interval) (s : Step τ) : Prop where
  now : s.took .add = true ∨ s.took .get = true → ∀ key ∈ s.message.keyList, key ∈ range
  later : ∀ e ∈ s.after.slice.waiting.entries, ∀ key ∈ e.2.keyList, key ∈ range
  slots : ∀ key ∈ range, s.after.HasSlot key

theorem Message.answerFrom_sameOn {m : Message} (hreads : m.ReadsIn range) {s s' : Store τ}
    (h : s.SameOn range s') : m.answerFrom s' = m.answerFrom s := by
  have hvalues : m.keyList.map s'.value = m.keyList.map s.value :=
    List.map_congr_left fun key hkey => h.value_eq key (hreads.inside key hkey)
  rw [answerFrom, answerFrom, hvalues]

namespace Tablet

variable {t u : Tablet τ}

theorem answerAll_sameOn {slice slice' : Slice τ} (h : slice.store.SameOn slice.range slice'.store)
    (hrange : slice'.range = slice.range) {ms : List Message}
    (hreads : ∀ m ∈ ms, m.ReadsIn slice.range) : slice.answerAll ms = slice'.answerAll ms := by
  have hcovers' : slice'.store.Covers slice'.range := hrange ▸ h.covers'
  calc slice.answerAll ms
      = ms.map (·.answerFrom slice.store) := Slice.answerAll_of_readsIn h.covers hreads
    _ = ms.map (·.answerFrom slice'.store) :=
      List.map_congr_left fun m hm => (Message.answerFrom_sameOn (hreads m hm) h).symm
    _ = slice'.answerAll ms := (Slice.answerAll_of_readsIn hcovers' (hrange ▸ hreads)).symm

/-- What is let go of, and what is answered to it, is the same in other layouts. -/
theorem release_relaid (ht : t.Sound) (hu : u.Sound) (h : t.Relaid u) (low : Clock) :
    (t.release low).Alike Eq Relaid (u.release low) := by
  obtain ⟨⟨store, hslice⟩, hstore, hgate⟩ := h
  obtain ⟨slice, gate⟩ := t
  obtain ⟨slice', gate'⟩ := u
  obtain rfl : slice' = { slice with store } := hslice
  cases hgate with
  | «open» => exact .ok rfl ⟨⟨store, rfl⟩, hstore, .open⟩
  | barrier =>
    -- The two stores agree before the freed updates land, so they agree on how these land.
    have hfreed : freed ⟨{ slice with store }, .barrier⟩ low = freed ⟨slice, .barrier⟩ low := rfl
    have hadd := hstore.addAll (inside_freed ht low)
    have hreads : ∀ e ∈ (freed ⟨slice, .barrier⟩ low).filter fun e => e.2.op = .get,
        e.2.ReadsIn slice.range := by
      intro e he
      obtain ⟨he, hop⟩ := List.mem_filter.mp he
      rcases (ht.parked e (List.mem_filter.mp he).1).fit with hget | hfit
      · exact hget.2
      · exact hfit.2.2.toReadsIn
    rcases Store.addAll_cases ht.store (inside_freed ht low) with ⟨-, s, hs⟩ | ⟨-, hfault⟩
    · rw [hs] at hadd
      obtain ⟨_, s', hs', -, hsame⟩ := hadd.exists_eq_ok
      rw [release_of_addAll_ok ht rfl hs, release_of_addAll_ok hu rfl (hfreed ▸ hs'), hfreed]
      refine .ok ?_ ⟨⟨s', rfl⟩, hsame, .barrier⟩
      exact List.map_congr_left fun e he => (Message.answerFrom_sameOn (hreads e he) hsame).symm
    · rw [hfault] at hadd
      rw [release_of_addAll_fault ht rfl hfault,
        release_of_addAll_fault hu rfl (hfreed ▸ hadd.eq_fault)]
      exact .fault
  | bounded staleness =>
    refine .ok (answerAll_sameOn hstore rfl ?_) ⟨⟨store, rfl⟩, hstore, .bounded staleness⟩
    intro m hm
    obtain ⟨clock, he⟩ := Waitlist.mem_of_takeThrough hm
    exact (ht.reads (by simp) _ he).2
  | @speculative staleness threshold log log' hlog =>
    have hgate := Gate.Relaid.speculative staleness threshold (hlog.forgetBelow low)
    simp only [release, hgate.early_eq]
    refine .ok (answerAll_sameOn hstore rfl ?_) ⟨⟨store, rfl⟩, hstore, hgate⟩
    intro m hm
    rcases List.mem_append.mp hm with hdue | hquiet
    · obtain ⟨clock, he⟩ := Waitlist.mem_of_takeThrough hdue
      exact (ht.reads (by simp) _ he).2
    · obtain ⟨clock, he⟩ := Waitlist.mem_of_takeWhere hquiet
      rw [Waitlist.takeThrough_snd] at he
      exact (ht.reads (by simp) _ (List.mem_filter.mp he).1).2

theorem handle_relaid (ht : t.Sound) (hu : u.Sound) (h : t.Relaid u) (m : Message) :
    (t.handle m).Alike Eq Relaid (u.handle m) := by
  have hsame := h
  obtain ⟨⟨store, hslice⟩, hstore, hgate⟩ := h
  obtain ⟨slice, gate⟩ := t
  obtain ⟨slice', gate'⟩ := u
  obtain rfl : slice' = { slice with store } := hslice
  have hmoved : ∀ roster, Relaid (⟨{ slice with roster }, gate⟩ : Tablet τ)
      ⟨{ slice with store, roster }, gate'⟩ := fun roster => ⟨⟨store, rfl⟩, hstore, hgate⟩
  refine handle_alike m (fun _ => rfl) hsame rfl rfl rfl hmoved ?_ ?_ ?_
  · intro roster hadds henrol
    by_cases hin : gate = .barrier → m.clock ≤ roster.minClock
    · rw [onAdd_eq ht m hadds henrol hin,
        onAdd_eq hu m hadds henrol fun hbarrier => hin (hgate.barrier_iff.mp hbarrier)]
      have hadd := hstore.addAll hadds.inside_updates
      generalize slice.store.addAll (m.updates τ) = o, store.addAll (m.updates τ) = o' at hadd ⊢
      cases hadd with
      | ok _ hsame => exact .ok rfl ⟨⟨_, rfl⟩, hsame, hgate.note hadds.toReadsIn⟩
      | error hsame => exact .error ⟨⟨_, rfl⟩, hsame, hgate.note hadds.toReadsIn⟩
      | fault => exact .fault
    · obtain ⟨hbarrier, hlate⟩ := Classical.not_imp.mp hin
      have hlate := UInt64.not_le.mp hlate
      rw [onAdd_eq_park m hadds henrol hbarrier hlate,
        onAdd_eq_park (t := ⟨{ slice with store }, gate'⟩) m hadds henrol
          (hgate.barrier_iff.mpr hbarrier) hlate]
      exact .ok rfl ⟨⟨store, rfl⟩, hstore, hgate⟩
  · intro roster hreads henrol
    rw [onGet_eq ht m hreads henrol, onGet_eq hu m hreads henrol, hgate.passes_eq, hgate.due_eq,
      Message.answerFrom_sameOn hreads hstore]
    split
    · exact .ok rfl (hmoved roster)
    · exact .ok rfl ⟨⟨store, rfl⟩, hstore, hgate⟩
  · intro roster low
    exact release_relaid (ht.moved roster) (hu.moved roster) (hmoved roster) low

theorem seen_eq_of_relaid (h : t.Relaid u) : u.seen = t.seen := by
  obtain ⟨⟨store, hslice⟩, -, hgate⟩ := h
  simp only [seen, status, hslice, hgate.model_eq, hgate.tracked_eq]
  rfl

theorem exists_new_of_dense {spec : TableSpec} {table : TableId} {shard : ThreadId}
    {dense : Tablet τ}
    (hdense : Tablet.new τ (spec.relaid .dense .dense) table shard range = .ok dense)
    (storage recorder : Backing) :
    ∃ t, Tablet.new τ (spec.relaid storage recorder) table shard range = .ok t ∧
      dense.Relaid t := by
  have hvalid : (spec.relaid .dense .dense).validate = .ok () := validate_of_new hdense
  rw [spec.validate_relaid] at hvalid
  obtain ⟨store, gate, hstore, hgate, rfl⟩ := eq_of_new hdense
  obtain ⟨store', hstore', hsame⟩ := Store.exists_new_of_dense hstore storage
  obtain ⟨gate', hgate', hrelaid⟩ := Gate.relaid_ofSpec hgate storage recorder
  refine ⟨⟨.new table shard range store', gate'⟩, ?_, ⟨store', rfl⟩, hsame, hrelaid⟩
  have hstorage : Store.new τ (spec.relaid storage recorder).storage range = .ok store' := hstore'
  rw [Tablet.new, spec.validate_relaid, hvalid, assemble, hstorage, hgate']
  rfl

theorem Serves.hasSlot {spec : TableSpec} (ht : t.Serves spec range) :
    ∀ key ∈ range, t.HasSlot key := by
  intro key hkey
  rw [← ht.range_eq] at hkey
  exact ⟨Store.hasSlot_of_covers ht.store hkey, Gate.hasSlot_of_covers ht.gate hkey⟩

theorem inBounds_of_step {spec : TableSpec} (ht : t.Serves spec range) {m : Message} {s : Step τ}
    (h : t.step m = .ok s) : s.InBounds range := by
  have hafter := serves_of_step ht h
  refine ⟨?_, ?_, ?_⟩
  · rw [← ht.range_eq]
    rcases step_cases ht h with ⟨why, rfl⟩ | ⟨replies, t', rfl, hmove⟩
    · intro htook
      simp at htook
    · intro htook
      have hop : m.op = .add ∨ m.op = .get := by
        simpa using htook
      rcases hop with hop | hop
      · exact (addsIn_of_move hmove hop).inside
      · exact (readsIn_of_move hmove hop).inside
  · intro e he
    rw [← hafter.range_eq]
    rcases (hafter.parked e he).fit with hget | hadd
    · exact hget.2.inside
    · exact hadd.2.2.inside
  · exact hafter.hasSlot

theorem inBounds_of_run {spec : TableSpec} (ht : t.Serves spec range) {ms : List Message}
    {steps : List (Step τ)} (h : t.run ms = .ok steps) : ∀ s ∈ steps, s.InBounds range := by
  intro s hs
  obtain ⟨front, back, rfl⟩ := List.append_of_mem hs
  have hfront := serves_of_run ht (run_of_append h).1
  exact inBounds_of_step hfront (step_of_run h)

/-- **The layouts are interchangeable.** Where a table can be had with dense layouts, it can be had
with any. Whatever the tablets are sent, they give the same replies, refuse the same messages for
the same reasons, break down on the same one for the same reason if at all, and look the same after
each but for the room that the values take. No layout is asked for a key that it has no place
for. -/
theorem run_eq_of_relaid {spec : TableSpec} {table : TableId} {shard : ThreadId}
    {dense : Tablet τ}
    (hdense : Tablet.new τ (spec.relaid .dense .dense) table shard range = .ok dense)
    (storage recorder : Backing) :
    ∃ t, Tablet.new τ (spec.relaid storage recorder) table shard range = .ok t ∧
      t.seen = dense.seen ∧ (∀ key ∈ range, t.HasSlot key) ∧
      ∀ ms : List Message,
        (t.run ms).map (List.map fun s => (s.verdict, s.after.seen)) =
          (dense.run ms).map (List.map fun s => (s.verdict, s.after.seen)) ∧
        ∀ steps, t.run ms = .ok steps → ∀ s ∈ steps, s.InBounds range := by
  obtain ⟨t, hnew, hrelaid⟩ := exists_new_of_dense hdense storage recorder
  have hserves := serves_new hnew
  refine ⟨t, hnew, seen_eq_of_relaid hrelaid, hserves.hasSlot, fun ms => ?_⟩
  refine ⟨?_, fun steps hrun => inBounds_of_run hserves hrun⟩
  symm
  refine run_map_eq (fun ht hu h => handle_relaid ht.toSound hu.toSound h) (serves_new hdense)
    hserves hrelaid ?_ ms
  intro a b halike
  rw [halike.verdict_eq, seen_eq_of_relaid halike.after]

/-- Both ends of the range are written, a key beyond it is asked for, and a read waits until the
writes that it waits for are forgotten. -/
def patchy : List Message := [
  ⟨.add, 1, 7, 0, 0, 0, [.keys [4, 8], .integers [5, 6]]⟩,
  ⟨.clock, 2, 7, 0, 1, 0, []⟩,
  ⟨.get, 2, 7, 0, 1, 1, [.keys [4, 5, 8]]⟩,
  ⟨.get, 2, 7, 0, 1, 2, [.keys [9]]⟩,
  ⟨.add, 2, 7, 0, 1, 0, [.keys [8], .integers [1]]⟩,
  ⟨.clock, 1, 7, 0, 1, 0, []⟩]

theorem run_eq_of_relaid_patchy :
    ∃ dense sparse,
      Tablet.new .integer (.sparseSsp .dense 0 1 .dense) 0 7 ⟨4, 9⟩ = .ok dense ∧
      Tablet.new .integer (.sparseSsp .sparse 0 1 .sparse) 0 7 ⟨4, 9⟩ = .ok sparse ∧
      (sparse.run patchy).toOption.map (List.map fun s =>
          (s.verdict.toOption.map List.length, s.after.seen.1.waiting, s.after.seen.2)) =
        some [(some 0, 0, some 2), (some 0, 0, some 2), (some 0, 1, some 2), (none, 1, some 2),
          (some 0, 1, some 2), (some 1, 0, some 1)] ∧
      (sparse.run patchy).map (List.map fun s => (s.verdict, s.after.seen)) =
        (dense.run patchy).map (List.map fun s => (s.verdict, s.after.seen)) := by
  let dense : Tablet .integer := ⟨.new 0 7 ⟨4, 9⟩ (.dense ⟨4, 9⟩ (Vector.replicate 5 0)),
    .speculative 0 1 (.dense ⟨4, 9⟩ (Vector.replicate 5 []))⟩
  let sparse : Tablet .integer :=
    ⟨.new 0 7 ⟨4, 9⟩ (.sparse .empty), .speculative 0 1 (.sparse .empty)⟩
  have hdense : Tablet.new .integer
      (TableSpec.relaid (.sparseSsp .dense 0 1 .dense) .dense .dense) 0 7 ⟨4, 9⟩ = .ok dense := rfl
  have hsparse : Tablet.new .integer (.sparseSsp .sparse 0 1 .sparse) 0 7 ⟨4, 9⟩ = .ok sparse := rfl
  obtain ⟨t, ht, -, -, hrun⟩ := run_eq_of_relaid hdense .sparse .sparse
  obtain rfl : sparse = t := Except.ok.inj (hsparse.symm.trans ht)
  exact ⟨dense, sparse, hdense, hsparse, by decide +kernel, (hrun patchy).1⟩

end Tablet

end ParamServer
