import ParamServer.Proofs.Layout
import ParamServer.Proofs.Lists
import ParamServer.Proofs.Outcome
import ParamServer.Proofs.Shard
import ParamServer.Proofs.SortedMap
import ParamServer.Workload

/-!
# What a creation leaves behind

A table is put on one shard after the other. A shard that has come to its end does not answer, and
then those before it keep what they have: the register does not know the table, and these shards do
not take it a second time (`Cluster.half_created`). Nothing else can cut a creation short, because
what a shard hosts is in the register as long as all shards are running (`Cluster.Coherent`).
-/

namespace ParamServer

namespace Shard

variable {s s' s'' : Shard} {table : TableId}

def Hosts (s : Shard) (table : TableId) : Prop := s.tablets.contains table = true

/-- The shard with one more tablet. -/
def join (s : Shard) (table : TableId) (hosted : Hosted) : Shard :=
  { s with tablets := s.tablets.insert table hosted }

theorem hosts_join (s : Shard) (table other : TableId) (hosted : Hosted) :
    (s.join table hosted).Hosts other ↔ other = table ∨ s.Hosts other :=
  SortedMap.contains_insert

/-! ### Messages -/

/-- A shard, and the same some messages later. -/
structure Later (s s' : Shard) : Prop where
  id : s'.id = s.id
  requests : s.requests = [] → s'.requests = []
  hosts : ∀ table, s'.Hosts table ↔ s.Hosts table
  phase : s'.phase = .serving → s.phase = .serving

theorem later_refl (s : Shard) : s.Later s := ⟨rfl, fun h => h, fun _ => Iff.rfl, fun h => h⟩

theorem later_leave (s : Shard) (e : Exchange) {phase : Phase} (h : phase ≠ .serving) :
    s.Later (s.leave e phase).1 :=
  ⟨rfl, fun _ => rfl, fun _ => Iff.rfl, fun hserving => absurd hserving h⟩

theorem later_of_handle (s : Shard) (e : Exchange) (m : Message) :
    s.Later (s.handle e m).2.1 := by
  have hjoin : ∀ {found hosted : Hosted}, s.tablets.get? m.table = some found →
      s.Later (s.join m.table hosted) := by
    intro found hosted hfind
    have hhosts : s.Hosts m.table := SortedMap.contains_iff.mpr ⟨found, hfind⟩
    refine ⟨rfl, fun h => h, fun table => ?_, fun h => h⟩
    rw [hosts_join]
    exact or_iff_right_of_imp fun hsame => hsame ▸ hhosts
  unfold handle
  cases hfind : s.tablets.get? m.table with
  | none => exact later_refl s
  | some hosted =>
    cases hcase : hosted.handle m with
    | ok replies next =>
      simp only [hcase]
      exact hjoin hfind
    | error why next =>
      simp only [hcase]
      exact hjoin hfind
    | fault why =>
      simp only [hcase]
      exact later_leave s e (by simp)

theorem later_of_turn (s : Shard) (e : Exchange) : s.Later (s.turn e .message).2.1 := by
  rcases turn_cases s e .message with
    hcase | ⟨_, _, _, hother, -⟩ | ⟨m, e', -, -, hcase⟩ | ⟨-, hcase⟩ | ⟨-, -, hcase⟩
  · rw [hcase]
    exact later_refl s
  · cases hother
  · rw [hcase]
    exact later_of_handle s e' m
  · rw [hcase]
    exact ⟨rfl, fun h => h, fun _ => Iff.rfl, fun h => by cases h⟩
  · rw [hcase]
    exact later_leave s e (by simp)

/-! ### Installing -/

theorem install_of_gone (h : s.phase ≠ .serving) (e : Exchange) (hosted : Hosted) :
    s.install e table hosted = .error (.transport (.notRunning s.id)) := by
  simp only [install, ask, if_neg h]
  rfl

theorem install_of_hosts (hidle : s.requests = []) (hserving : s.phase = .serving)
    (h : s.Hosts table) (e : Exchange) (hosted : Hosted) :
    s.install e table hosted = .error (.config (.tableHosted table s.id)) := by
  unfold Hosts at h
  simp only [install, ask, turn, serve, hserving, hidle, List.nil_append, h, ↓reduceIte]
  rfl

theorem install_eq_join (hidle : s.requests = []) (hserving : s.phase = .serving)
    (h : ¬s.Hosts table) (e : Exchange) (hosted : Hosted) :
    s.install e table hosted = .ok (s.join table hosted, e) := by
  unfold Hosts at h
  simp only [install, ask, turn, serve, join, hserving, hidle, List.nil_append, if_neg h,
    ↓reduceIte]
  rfl

end Shard

namespace Cluster

variable {τ : ScalarType} {spec : TableSpec} {table : TableId} {c c' : Cluster}

/-- **One shard after the other.** The first that has come to its end cuts the installation
short. -/
theorem installAll_cases {pairs : List (Shard × Hosted)} (hidle : ∀ p ∈ pairs, p.1.requests = [])
    (hnew : ∀ p ∈ pairs, ¬p.1.Hosts table) (e : Exchange) :
    ((∀ p ∈ pairs, p.1.phase = .serving) ∧
      installAll table e pairs = .ok () (pairs.map fun p => p.1.join table p.2, e)) ∨
    ∃ joined gone rest, pairs = joined ++ gone :: rest ∧ (∀ p ∈ joined, p.1.phase = .serving) ∧
      gone.1.phase ≠ .serving ∧
      installAll table e pairs = .error (.transport (.notRunning gone.1.id))
        (joined.map (fun p => p.1.join table p.2) ++ gone.1 :: rest.map (·.1), e) := by
  induction pairs with
  | nil => exact Or.inl ⟨by simp, rfl⟩
  | cons p rest ih =>
    obtain ⟨s, hosted⟩ := p
    obtain ⟨hs, hrest⟩ := List.forall_mem_cons.mp hidle
    obtain ⟨hnot, hnone⟩ := List.forall_mem_cons.mp hnew
    by_cases hserving : s.phase = .serving
    case neg =>
      refine Or.inr ⟨[], (s, hosted), rest, rfl, by simp, hserving, ?_⟩
      simp only [installAll, Shard.install_of_gone hserving]
      rfl
    have hone := Shard.install_eq_join hs hserving hnot e hosted
    rcases ih hrest hnone with ⟨hall, hok⟩ | ⟨joined, gone, later, rfl, hjoined, hgone, herror⟩
    · refine Or.inl ⟨List.forall_mem_cons.mpr ⟨hserving, hall⟩, ?_⟩
      simp only [installAll, hone, hok, Outcome.mapState, List.map_cons]
    · refine Or.inr ⟨(s, hosted) :: joined, gone, later, rfl,
        List.forall_mem_cons.mpr ⟨hserving, hjoined⟩, hgone, ?_⟩
      simp only [installAll, hone, herror, Outcome.mapState, List.map_cons, List.cons_append]

/-- A first shard that hosts the table already, or has come to its end, leaves all as it was. -/
theorem installAll_of_first {p : Shard × Hosted} (hidle : p.1.requests = [])
    (h : p.1.Hosts table) (rest : List (Shard × Hosted)) (e : Exchange) :
    ∃ why, installAll table e (p :: rest) = .error why ((p :: rest).map (·.1), e) := by
  obtain ⟨s, hosted⟩ := p
  by_cases hserving : s.phase = .serving
  · exact ⟨.config (.tableHosted table s.id),
      by simp only [installAll, Shard.install_of_hosts hidle hserving h, List.map_cons]⟩
  · exact ⟨.transport (.notRunning s.id),
      by simp only [installAll, Shard.install_of_gone hserving, List.map_cons]⟩

/-- What the register and the shards have to do with each other. -/
structure Coherent (c : Cluster) : Prop where
  idle : ∀ s ∈ c.shards, s.requests = []
  listed : ∀ table, c.tables.contains table = true → ∀ s ∈ c.shards, s.Hosts table
  /-- What any shard hosts, the first one hosts. -/
  first : ∀ table, (∃ s ∈ c.shards, s.Hosts table) → ∀ s ∈ c.shards.head?, s.Hosts table
  /-- As long as all are running, there is no table that is not in the register. -/
  whole : (∀ s ∈ c.shards, s.phase = .serving) →
    ∀ table, (∃ s ∈ c.shards, s.Hosts table) → c.tables.contains table = true

/-- A shard and the tablet that the layout has for it. -/
def Suits (τ : ScalarType) (spec : TableSpec) (table : TableId) (p : Shard × Hosted)
    (piece : Piece) : Prop :=
  piece.shard = p.1.id ∧
    ∃ t, Tablet.new τ spec table p.1.id piece.range = .ok t ∧ p.2 = ⟨τ, t⟩

/-- All shards have got their tablets, and the register knows. -/
def Created (c : Cluster) (τ : ScalarType) (table : TableId) (spec : TableSpec) (layout : Layout)
    (c' : Cluster) : Prop :=
  c.tables.contains table = false ∧
  ∃ pairs, pairs.map (·.1) = c.shards ∧ (∀ p ∈ pairs, p.1.phase = .serving) ∧
    List.Forall₂ (Suits τ spec table) pairs layout.pieces ∧
    c' = { c with
      shards := pairs.map fun p => p.1.join table p.2
      tables := c.tables.insert table ⟨layout, spec, τ⟩ }

/-- The shards before the first that has come to its end have got their tablets. -/
def CutShort (c : Cluster) (τ : ScalarType) (table : TableId) (spec : TableSpec) (why : Error)
    (c' : Cluster) : Prop :=
  ∃ (joined : List (Shard × Hosted)) (gone : Shard) (rest : List Shard),
    c.shards = joined.map (·.1) ++ gone :: rest ∧
    (∀ p ∈ joined, p.1.phase = .serving ∧ ¬p.1.Hosts table ∧
      ∃ piece, Suits τ spec table p piece) ∧
    gone.phase ≠ .serving ∧ why = .transport (.notRunning gone.id) ∧
    c' = { c with shards := joined.map (fun p => p.1.join table p.2) ++ gone :: rest }

theorem suits_of_mapM {shards : List Shard} {ranges : List Interval} {pairs : List (Shard × Hosted)}
    (hlen : ranges.length = shards.length)
    (h : List.Forall₂ (fun (a : Shard × Interval) p =>
      (return (a.1, Hosted.mk τ (← Tablet.new τ spec table a.1.id a.2)) :
        Except Error (Shard × Hosted)) = .ok p) (shards.zip ranges) pairs) :
    pairs.map (·.1) = shards ∧ List.Forall₂ (Suits τ spec table) pairs
      (Layout.zipPieces ranges (shards.map (·.id))) := by
  induction shards generalizing ranges pairs with
  | nil =>
    cases ranges with
    | nil =>
      cases h
      exact ⟨rfl, .nil⟩
    | cons => simp at hlen
  | cons s rest ih =>
    cases ranges with
    | nil => simp at hlen
    | cons range ranges =>
      rw [List.zip_cons_cons] at h
      cases h with
      | @cons _ p _ pairs hone hrest =>
        obtain ⟨hshards, hsuits⟩ := ih (Nat.succ.inj hlen) hrest
        obtain ⟨t, hnew, hsame⟩ := exists_of_bind hone
        obtain rfl := Except.ok.inj hsame
        exact ⟨by rw [List.map_cons, hshards], .cons ⟨rfl, t, hnew, rfl⟩ hsuits⟩

theorem ids_of_suits {pairs : List (Shard × Hosted)} {pieces : List Piece}
    (h : List.Forall₂ (Suits τ spec table) pairs pieces) :
    pairs.map (·.1.id) = pieces.map (·.shard) := by
  induction h with
  | nil => rfl
  | cons hone _ ih => rw [List.map_cons, List.map_cons, ih, hone.1]

/-- **One creation.** -/
theorem createTable_cases (h : c.Coherent) (τ : ScalarType) (table : TableId)
    (ranges : List Interval) (spec : TableSpec) :
    (∃ why, c.createTable τ table ranges spec = .error why c) ∨
    (∃ layout c', c.createTable τ table ranges spec = .ok layout c' ∧
      c.Created τ table spec layout c') ∨
    ∃ why c', c.createTable τ table ranges spec = .error why c' ∧
      c.CutShort τ table spec why c' := by
  unfold createTable
  cases hvalid : spec.validate with
  | error why => exact Or.inl ⟨why, rfl⟩
  | ok _ =>
  cases hfree : c.tables.contains table with
  | true => exact Or.inl ⟨.config (.tableExists table), rfl⟩
  | false =>
  by_cases hlen : ranges.length = c.shards.length
  case neg =>
    refine Or.inl ⟨.config (.tableRangeCount table ranges.length c.shards.length), ?_⟩
    simp only [Bool.false_eq_true, ↓reduceIte, ne_eq, hlen, not_false_eq_true]
    rfl
  simp only [Bool.false_eq_true, ↓reduceIte, ne_eq, hlen, not_true_eq_false]
  cases hlayout : Layout.ofRanges ranges c.shardIds with
  | error why => exact Or.inl ⟨why, rfl⟩
  | ok layout =>
  generalize hbuilt : List.mapM (m := Except Error) _ (c.shards.zip ranges) = built
  cases built with
  | error why => exact Or.inl ⟨why, rfl⟩
  | ok pairs =>
  obtain ⟨hpairs, hsuits⟩ := suits_of_mapM hlen (forall₂_of_mapM hbuilt)
  rw [← shardIds, ← Layout.pieces_of_ofRanges hlayout] at hsuits
  have hidle : ∀ p ∈ pairs, p.1.requests = [] := fun p hp =>
    h.idle p.1 (hpairs ▸ List.mem_map_of_mem hp)
  simp only [bind, Except.bind, pure, Except.pure]
  by_cases hhosted : ∃ s ∈ c.shards, s.Hosts table
  case pos =>
    cases pairs with
    | nil =>
      obtain ⟨s, hs, -⟩ := hhosted
      rw [← hpairs] at hs
      cases hs
    | cons p rest =>
      have hfirst := h.first table hhosted p.1 (by rw [← hpairs]; rfl)
      obtain ⟨why, hcase⟩ :=
        installAll_of_first (hidle p List.mem_cons_self) hfirst rest c.exchange
      refine Or.inl ⟨why, ?_⟩
      simp only [hcase, hpairs]
  have hnew : ∀ p ∈ pairs, ¬p.1.Hosts table := fun p hp hhosts =>
    hhosted ⟨p.1, hpairs ▸ List.mem_map_of_mem hp, hhosts⟩
  rcases installAll_cases hidle hnew c.exchange with
    ⟨hall, hcase⟩ | ⟨joined, gone, rest, rfl, hjoined, hgone, hcase⟩
  · refine Or.inr (Or.inl ⟨layout, _, by simp only [hcase], hfree, pairs, hpairs, hall,
      hsuits, rfl⟩)
  · refine Or.inr (Or.inr ⟨_, _, by simp only [hcase], joined, gone.1, rest.map (·.1), ?_, ?_,
      hgone, rfl, rfl⟩)
    · rw [← hpairs, List.map_append, List.map_cons]
    · intro p hp
      have hmem : p ∈ joined ++ gone :: rest := List.mem_append_left _ hp
      obtain ⟨piece, -, hsuit⟩ := exists_of_forall₂ hsuits hmem
      exact ⟨hjoined p hp, hnew p hmem, piece, hsuit⟩

/-! ### Every state of a cluster -/

/-- Either way to create a table. -/
inductive Creates (c : Cluster) (τ : ScalarType) (table : TableId) (spec : TableSpec) :
    Outcome Cluster Layout → Prop
  | ranges (ranges : List Interval) :
      Creates c τ table spec (c.createTable τ table ranges spec)
  | even (keys : UInt64) : Creates c τ table spec (c.createTableEven τ table keys spec)

/-- A cluster at any time of its life. Between creations anything may go through the exchange, and
any shard may take its next message or come to its end. -/
inductive Lives : Cluster → Prop
  | start {spec : ClusterSpec} {c : Cluster} (h : start spec = .ok c) : Lives c
  | create {c c' : Cluster} {τ : ScalarType} {table : TableId} {spec : TableSpec}
      {o : Outcome Cluster Layout} (h : Lives c) (hcall : c.Creates τ table spec o)
      (hleft : o.Leaves c') : Lives c'
  | network {c : Cluster} (h : Lives c) (exchange : Exchange) : Lives { c with exchange }
  | turn {c : Cluster} {before behind : List Shard} {s : Shard} (h : Lives c)
      (hshards : c.shards = before ++ s :: behind) :
      Lives { c with
        shards := before ++ (s.turn c.exchange .message).2.1 :: behind
        exchange := (s.turn c.exchange .message).2.2 }

theorem creates_cases (h : c.Coherent) {o : Outcome Cluster Layout}
    (hcall : c.Creates τ table spec o) :
    (∃ why, o = .fault why) ∨ (∃ why, o = .error why c) ∨
    (∃ layout c', o = .ok layout c' ∧ c.Created τ table spec layout c') ∨
    ∃ why c', o = .error why c' ∧ c.CutShort τ table spec why c' := by
  cases hcall with
  | ranges ranges => exact Or.inr (createTable_cases h τ table ranges spec)
  | even keys =>
    unfold createTableEven
    cases Layout.even keys c.shardIds with
    | ok layout => exact Or.inr (createTable_cases h τ table layout.ranges spec)
    | error failure =>
      cases failure with
      | error why => exact Or.inr (Or.inl ⟨why, rfl⟩)
      | fault why => exact Or.inl ⟨why, rfl⟩

/-! ### The register and the shards -/

theorem bare_of_openShards {e : Exchange} {ids : List ThreadId} {opened : List Shard × Exchange}
    (h : openShards e ids = .ok opened) :
    ∀ s ∈ opened.1, s.requests = [] ∧ ∀ table, ¬s.Hosts table := by
  induction ids generalizing e opened with
  | nil =>
    obtain rfl := Except.ok.inj h
    simp
  | cons id rest ih =>
    rw [openShards] at h
    obtain ⟨first, -, hlater⟩ := exists_of_bind h
    obtain ⟨later, hrest, hsame⟩ := exists_of_bind hlater
    obtain rfl := Except.ok.inj hsame
    rw [List.forall_mem_cons]
    refine ⟨⟨rfl, fun table hhosts => ?_⟩, ih hrest⟩
    cases hhosts

theorem coherent_of_start {spec : ClusterSpec} (h : start spec = .ok c) : c.Coherent := by
  obtain ⟨_, -, hids⟩ := exists_of_bind h
  obtain ⟨ids, -, hopened⟩ := exists_of_bind hids
  obtain ⟨opened, hopen, hsame⟩ := exists_of_bind hopened
  obtain rfl := Except.ok.inj hsame
  have hbare := bare_of_openShards (ok_of_lift hopen)
  constructor
  · exact fun s hs => (hbare s hs).1
  · intro table hknown
    cases hknown
  · rintro table ⟨s, hs, hhosts⟩
    exact absurd hhosts ((hbare s hs).2 table)
  · rintro - table ⟨s, hs, hhosts⟩
    exact absurd hhosts ((hbare s hs).2 table)

theorem coherent_of_later (h : c.Coherent) (hshards : List.Forall₂ Shard.Later c.shards c'.shards)
    (htables : c'.tables = c.tables) : c'.Coherent := by
  have hback : ∀ s' ∈ c'.shards, ∃ s ∈ c.shards, s.Later s' := fun s' hs' =>
    exists_of_forall₂ hshards.flip hs'
  have hhosted : ∀ table, (∃ s' ∈ c'.shards, s'.Hosts table) → ∃ s ∈ c.shards, s.Hosts table := by
    rintro table ⟨s', hs', hhosts⟩
    obtain ⟨s, hs, hlater⟩ := hback s' hs'
    exact ⟨s, hs, (hlater.hosts table).mp hhosts⟩
  constructor
  · intro s' hs'
    obtain ⟨s, hs, hlater⟩ := hback s' hs'
    exact hlater.requests (h.idle s hs)
  · intro table hknown s' hs'
    obtain ⟨s, hs, hlater⟩ := hback s' hs'
    exact (hlater.hosts table).mpr (h.listed table (htables ▸ hknown) s hs)
  · intro table hany s' hs'
    obtain ⟨s, hs, hlater⟩ := exists_head_of_forall₂ hshards hs'
    exact (hlater.hosts table).mpr (h.first table (hhosted table hany) s hs)
  · intro hserving table hany
    rw [htables]
    refine h.whole (fun s hs => ?_) table (hhosted table hany)
    obtain ⟨s', hs', hlater⟩ := exists_of_forall₂ hshards hs
    exact hlater.phase (hserving s' hs')

theorem coherent_of_created {layout : Layout} (h : c.Coherent)
    (hcreated : c.Created τ table spec layout c') : c'.Coherent := by
  obtain ⟨-, pairs, hpairs, hserving, -, rfl⟩ := hcreated
  have hpair : ∀ p ∈ pairs, p.1 ∈ c.shards := fun p hp => hpairs ▸ List.mem_map_of_mem hp
  constructor
  · intro s hs
    obtain ⟨p, hp, rfl⟩ := List.mem_map.mp hs
    exact h.idle p.1 (hpair p hp)
  · intro other hknown s hs
    obtain ⟨p, hp, rfl⟩ := List.mem_map.mp hs
    rw [Shard.hosts_join]
    exact (SortedMap.contains_insert.mp hknown).imp_right
      fun hknown => h.listed other hknown p.1 (hpair p hp)
  · rintro other ⟨s, hs, hhosts⟩ first hfirst
    obtain ⟨p, hp, rfl⟩ := List.mem_map.mp hs
    rw [List.head?_map] at hfirst
    obtain ⟨q, hq, rfl⟩ := Option.map_eq_some_iff.mp hfirst
    rw [Shard.hosts_join] at hhosts ⊢
    refine hhosts.imp_right fun hhosts => h.first other ⟨p.1, hpair p hp, hhosts⟩ q.1 ?_
    rw [← hpairs, List.head?_map, hq]
    rfl
  · rintro - other ⟨s, hs, hhosts⟩
    obtain ⟨p, hp, rfl⟩ := List.mem_map.mp hs
    rw [SortedMap.contains_insert]
    refine ((Shard.hosts_join ..).mp hhosts).imp_right fun hhosts =>
      h.whole (fun s hs => ?_) other ⟨p.1, hpair p hp, hhosts⟩
    rw [← hpairs] at hs
    obtain ⟨q, hq, rfl⟩ := List.mem_map.mp hs
    exact hserving q hq

theorem coherent_of_cutShort {why : Error} (h : c.Coherent)
    (hcut : c.CutShort τ table spec why c') : c'.Coherent := by
  obtain ⟨joined, gone, rest, hshards, hjoined, hgone, -, rfl⟩ := hcut
  have hmem : ∀ s ∈ joined.map (fun p => p.1.join table p.2) ++ gone :: rest,
      (∃ p ∈ joined, s = p.1.join table p.2 ∧ p.1 ∈ c.shards) ∨ s ∈ c.shards := by
    intro s hs
    rw [hshards]
    rcases List.mem_append.mp hs with hs | hs
    · obtain ⟨p, hp, rfl⟩ := List.mem_map.mp hs
      exact Or.inl ⟨p, hp, rfl, List.mem_append_left _ (List.mem_map_of_mem hp)⟩
    · exact Or.inr (List.mem_append_right _ hs)
  constructor
  · intro s hs
    rcases hmem s hs with ⟨p, -, rfl, hp⟩ | hs
    · exact h.idle p.1 hp
    · exact h.idle s hs
  · intro other hknown s hs
    rcases hmem s hs with ⟨p, -, rfl, hp⟩ | hs
    · exact (Shard.hosts_join ..).mpr (Or.inr (h.listed other hknown p.1 hp))
    · exact h.listed other hknown s hs
  · rintro other ⟨s, hs, hhosts⟩ first hfirst
    cases joined with
    | nil => exact h.first other ⟨s, hshards ▸ hs, hhosts⟩ first (hshards ▸ hfirst)
    | cons q joined =>
      obtain rfl := Option.some.inj hfirst
      have hhead : q.1 ∈ c.shards.head? := by
        rw [hshards]
        rfl
      rw [Shard.hosts_join]
      rcases hmem s hs with ⟨p, -, rfl, hp⟩ | hs
      · exact ((Shard.hosts_join ..).mp hhosts).imp_right
          fun hhosts => h.first other ⟨p.1, hp, hhosts⟩ q.1 hhead
      · exact Or.inr (h.first other ⟨s, hs, hhosts⟩ q.1 hhead)
  · intro hserving
    exact absurd (hserving gone (List.mem_append_right _ List.mem_cons_self)) hgone

theorem coherent_of_creates (h : c.Coherent) {o : Outcome Cluster Layout}
    (hcall : c.Creates τ table spec o) (hleft : o.Leaves c') : c'.Coherent := by
  rcases creates_cases h hcall with
    ⟨why, rfl⟩ | ⟨why, rfl⟩ | ⟨layout, c₁, rfl, hcreated⟩ | ⟨why, c₁, rfl, hcut⟩
  · exact (Outcome.leaves_fault.mp hleft).elim
  · obtain rfl := Outcome.leaves_error.mp hleft
    exact h
  · obtain rfl := Outcome.leaves_ok.mp hleft
    exact coherent_of_created h hcreated
  · obtain rfl := Outcome.leaves_error.mp hleft
    exact coherent_of_cutShort h hcut

theorem coherent_of_lives (h : c.Lives) : c.Coherent := by
  induction h with
  | start h => exact coherent_of_start h
  | create _ hcall hleft ih => exact coherent_of_creates ih hcall hleft
  | network _ exchange ih => exact ⟨ih.idle, ih.listed, ih.first, ih.whole⟩
  | @turn c before behind s _ hshards ih =>
    refine coherent_of_later ih ?_ rfl
    rw [hshards]
    refine List.rel_append ?_ (.cons (Shard.later_of_turn s c.exchange) ?_)
    all_goals exact List.forall₂_same.mpr fun s _ => Shard.later_refl s

/-- **All or up to the first that is gone.** In every state of a cluster: a creation that succeeds
leaves every shard running and with a new tablet over the range that the layout gives it, and the
table in the register. One that is refused leaves all as it was, but for this: if a shard has come
to its end, those before it may have got their tablets, although the register does not know the
table. As long as every shard is running, a creation is all or nothing. -/
theorem created_or_cut_short (h : c.Lives) {o : Outcome Cluster Layout}
    (hcall : c.Creates τ table spec o) :
    (∀ layout c', o = .ok layout c' →
      c.tables.contains table = false ∧
      c'.tables = c.tables.insert table ⟨layout, spec, τ⟩ ∧
      c'.shards.map (·.id) = layout.shards ∧
      ∀ s ∈ c'.shards, s.phase = .serving ∧ ∃ t range,
        s.tablets.get? table = some ⟨τ, t⟩ ∧ layout.rangeOf? s.id = some range ∧
        Tablet.new τ spec table s.id range = .ok t) ∧
    (∀ why c', o = .error why c' → c' = c ∨ c.CutShort τ table spec why c') ∧
    ((∀ s ∈ c.shards, s.phase = .serving) → ∀ why c', o = .error why c' → c' = c) := by
  have herror : ∀ why c', o = .error why c' → c' = c ∨ c.CutShort τ table spec why c' := by
    rintro why c' rfl
    rcases creates_cases (coherent_of_lives h) hcall with
      ⟨_, hcase⟩ | ⟨_, hcase⟩ | ⟨_, _, hcase, -⟩ | ⟨_, _, hcase, hcut⟩
    all_goals cases hcase
    · exact Or.inl rfl
    · exact Or.inr hcut
  refine ⟨?_, herror, ?_⟩
  · rintro layout c' rfl
    rcases creates_cases (coherent_of_lives h) hcall with
      ⟨_, hcase⟩ | ⟨_, hcase⟩ | ⟨_, _, hcase, hcreated⟩ | ⟨_, _, hcase, -⟩
    all_goals cases hcase
    obtain ⟨hfree, pairs, -, hserving, hsuits, rfl⟩ := hcreated
    refine ⟨hfree, rfl, ?_, ?_⟩
    · rw [List.map_map]
      exact ids_of_suits hsuits
    · intro s hs
      obtain ⟨p, hp, rfl⟩ := List.mem_map.mp hs
      obtain ⟨piece, hpiece, hshard, t, hnew, hsame⟩ := exists_of_forall₂ hsuits hp
      refine ⟨hserving p hp, t, piece.range, ?_, ?_, hnew⟩
      · rw [← hsame]
        exact (SortedMap.get?_insert ..).trans (if_pos rfl)
      · exact hshard ▸ Layout.rangeOf?_of_mem hpiece
  · intro hserving why c' hcase
    refine (herror why c' hcase).resolve_right ?_
    rintro ⟨joined, gone, rest, hshards, -, hgone, -, -⟩
    refine hgone (hserving gone ?_)
    rw [hshards]
    exact List.mem_append_right _ List.mem_cons_self

/-! ### What can be done with a cluster -/

theorem lives_run (n : Nat) {c : Cluster} (h : c.Lives) {before behind : List Shard} {s : Shard}
    (hshards : c.shards = before ++ s :: behind) :
    Lives { c with
      shards := before ++ (s.run n c.exchange).1 :: behind
      exchange := (s.run n c.exchange).2 } := by
  induction n generalizing c s with
  | zero =>
    rw [Shard.run, ← hshards]
    exact h
  | succ n ih =>
    have hturn := h.turn hshards
    rw [Shard.run]
    rcases hcase : s.turn c.exchange .message with ⟨event, s', e'⟩
    rw [hcase] at hturn
    cases event with
    | idle => exact hturn
    | _ => exact ih hturn rfl

theorem lives_settleShards {c : Cluster} (h : c.Lives) {before rest : List Shard}
    (hshards : c.shards = before ++ rest) :
    Lives { c with
      shards := before ++ (settleShards c.exchange rest).1
      exchange := (settleShards c.exchange rest).2 } := by
  induction rest generalizing c before with
  | nil =>
    rw [settleShards, ← hshards]
    exact h
  | cons s rest ih =>
    have hone := lives_run ((c.exchange.queue s.channel).length + 2) h hshards
    have hsplit : before ++ (s.settle c.exchange).1 :: rest =
        (before ++ [(s.settle c.exchange).1]) ++ rest := by
      rw [List.append_assoc]
      rfl
    have hrest := ih hone hsplit
    rw [List.append_assoc] at hrest
    exact hrest

theorem lives_settle (h : c.Lives) : c.settle.Lives := by
  have hsplit : c.shards = [] ++ c.shards := rfl
  exact lives_settleShards h hsplit

theorem lives_push (h : c.Lives) {hd : Handle τ} {keys : List Key} {values : List τ.Value}
    (hleft : (c.push hd keys values).Leaves c') : c'.Lives := by
  obtain ⟨exchange, -, rfl⟩ := Outcome.exists_of_leaves_mapState hleft
  exact lives_settle (h.network exchange)

theorem lives_tick (h : c.Lives) {hd : Handle τ} {left : Cluster × Handle τ}
    (hleft : (c.tick hd).Leaves left) : left.1.Lives := by
  obtain ⟨⟨_, exchange⟩, -, rfl⟩ := Outcome.exists_of_leaves_mapState hleft
  exact lives_settle (h.network exchange)

theorem lives_startPull (h : c.Lives) {hd : Handle τ} {keys : List Key}
    {left : Cluster × Handle τ} (hleft : (c.startPull hd keys).Leaves left) : left.1.Lives := by
  obtain ⟨⟨_, exchange⟩, -, rfl⟩ := Outcome.exists_of_leaves_mapState hleft
  exact lives_settle (h.network exchange)

theorem lives_pull (h : c.Lives) {hd : Handle τ} {keys : List Key}
    {left : Cluster × Handle τ} (hleft : (c.pull hd keys).Leaves left) : left.1.Lives := by
  rcases Outcome.exists_of_leaves_bind hleft with ⟨why, hstart⟩ | ⟨p, after, hstart, hread⟩
  · exact lives_startPull h (Or.inr ⟨why, hstart⟩)
  · obtain ⟨⟨session, unread⟩, -, rfl⟩ := Outcome.exists_of_leaves_mapState hread
    exact (lives_startPull h (Or.inl ⟨p, hstart⟩)).network _

theorem openHandle_eq_ok {worker : ThreadId} {hd : Handle τ}
    (h : c.openHandle τ worker table = .ok (hd, c')) :
    ∃ entry inbox exchange, c.tables.get? table = some entry ∧ entry.type = τ ∧
      c.reserved worker = false ∧ c.exchange.openInbox worker table = .ok (inbox, exchange) ∧
      hd = { session := { worker, table, layout := entry.layout }, inbox } ∧
      c' = { c with exchange } := by
  obtain ⟨entry, hfound, hentry⟩ := exists_of_bind h
  have hknown : c.tables.get? table = some entry := by
    unfold Cluster.entry at hfound
    split at hfound
    · next known hknown => rw [hknown, Except.ok.inj hfound]
    · cases hfound
  by_cases htype : entry.type = τ
  case neg =>
    simp only [ne_eq, htype, not_false_eq_true, ↓reduceIte] at hentry
    cases hentry
  cases hreserved : c.reserved worker with
  | true =>
    simp only [ne_eq, htype, not_true_eq_false, hreserved, ↓reduceIte] at hentry
    cases hentry
  | false =>
  simp only [ne_eq, htype, not_true_eq_false, hreserved, Bool.false_eq_true, ↓reduceIte] at hentry
  obtain ⟨⟨inbox, exchange⟩, hopened, hsame⟩ := exists_of_bind hentry
  obtain ⟨rfl, rfl⟩ := Prod.mk.inj (Except.ok.inj hsame)
  exact ⟨entry, inbox, exchange, hknown, htype, rfl, hopened, rfl, rfl⟩

theorem lives_openHandle (h : c.Lives) {worker : ThreadId} {hd : Handle τ}
    (hopen : c.openHandle τ worker table = .ok (hd, c')) : c'.Lives := by
  obtain ⟨_, _, exchange, -, -, -, -, -, rfl⟩ := openHandle_eq_ok hopen
  exact h.network exchange

theorem lives_closeHandle (h : c.Lives) (hd : Handle τ) : (c.closeHandle hd).Lives := h.network _

/-- Between opening the inbox for the acknowledgements and closing it the shards are told and have
their turn, whatever comes of that. -/
theorem exists_of_initTable {workers : List ThreadId}
    (h : (c.initTable table workers).Leaves c') :
    c' = c ∨ ∃ inbox exchange calls settled,
      c.exchange.openInbox controlThread table = .ok (inbox, exchange) ∧
      settled = { c with exchange := (Courier.sendAll exchange calls).courier }.settle ∧
      c' = { settled with
        exchange := (settled.exchange.closeInbox controlThread table).hangUp inbox } := by
  unfold initTable at h
  extract_lets opened at h
  cases hopened : opened with
  | error why =>
    simp only [hopened] at h
    exact Or.inl (Outcome.leaves_error.mp h)
  | ok result =>
    obtain ⟨layout, inbox, exchange⟩ := result
    simp only [hopened] at h
    right
    obtain ⟨known, -, hrest⟩ := exists_of_bind hopened
    split at hrest
    · cases hrest
    obtain ⟨taken, hopen, hsame⟩ := exists_of_bind hrest
    obtain rfl : taken = (inbox, exchange) := (Prod.mk.inj (Except.ok.inj hsame)).2
    split at h
    · exact ⟨inbox, exchange, _, _, hopen, rfl, Outcome.leaves_error.mp h⟩
    · split at h
      · exact ⟨inbox, exchange, _, _, hopen, rfl, Outcome.leaves_error.mp h⟩
      · exact ⟨inbox, exchange, _, _, hopen, rfl, Outcome.leaves_ok.mp h⟩
      · exact ⟨inbox, exchange, _, _, hopen, rfl, Outcome.leaves_error.mp h⟩

theorem lives_initTable (h : c.Lives) {workers : List ThreadId}
    (hleft : (c.initTable table workers).Leaves c') : c'.Lives := by
  rcases exists_of_initTable hleft with rfl | ⟨inbox, exchange, calls, settled, -, rfl, rfl⟩
  · exact h
  · exact (lives_settle (h.network _)).network _

/-! ### A shard that is gone -/

/-- Two shards. A sum at the second one leaves its type, and that brings the shard down. -/
def bereft : Attempt Cluster := do
  let c ← start ⟨2, 0, false⟩
  let (_, c) ← Workload.require (c.createTable .integer 1 [⟨0, 10⟩, ⟨10, 20⟩] (.asp .sparse))
  let (h, c) ← c.openHandle .integer 8 1
  let (_, c) ← Workload.require (c.push h [13] [Int64.maxValue])
  let (_, c) ← Workload.require (c.push h [13] [(1 : Int64)])
  return c

def secondTable (c : Cluster) : Outcome Cluster Layout :=
  c.createTable .integer 2 [⟨0, 10⟩, ⟨10, 20⟩] (.asp .sparse)

def hosted (c : Cluster) : List (List TableId) := c.shards.map (·.tablets.keys)

/-- What the shards host before and after a creation that fails, and why it and the next one do. -/
def glance (c : Cluster) : Option (List (List TableId) × Error × List (List TableId) × Error) :=
  match c.secondTable with
  | .error why c' =>
    match c'.secondTable with
    | .error why' _ => some (c.hosted, why, c'.hosted, why')
    | _ => none
  | _ => none

theorem glance_bereft : bereft.toOption.map glance =
    some (some ([[1], [1]], .transport (.notRunning 1), [[1, 2], [1]],
      .config (.tableHosted 2 0))) := by
  decide +kernel

theorem exists_secondTable :
    ∃ c c' c'', bereft = .ok c ∧
      c.secondTable = .error (.transport (.notRunning 1)) c' ∧
      c'.secondTable = .error (.config (.tableHosted 2 0)) c'' ∧
      c.hosted = [[1], [1]] ∧ c'.hosted = [[1, 2], [1]] := by
  have hseen := glance_bereft
  cases hrun : bereft with
  | error why =>
    rw [hrun] at hseen
    cases hseen
  | ok c =>
    rw [hrun] at hseen
    have hglance : glance c = _ := Option.some.inj hseen
    unfold glance at hglance
    split at hglance
    case h_1 why c' hfirst =>
      split at hglance
      case h_1 why' c'' hsecond =>
        simp only [Option.some.injEq, Prod.mk.injEq] at hglance
        obtain ⟨hbefore, rfl, hafter, rfl⟩ := hglance
        exact ⟨c, c', c'', rfl, hfirst, hsecond, hbefore, hafter⟩
      case h_2 => cases hglance
    case h_2 => cases hglance

/-- **Half created.** The creation fails at the second shard, and the first one keeps its tablet.
The same creation then fails at the first shard, for another reason. -/
theorem half_created :
    ∃ c c' c'', bereft = .ok c ∧
      c.secondTable = .error (.transport (.notRunning 1)) c' ∧ c'.hosted ≠ c.hosted ∧
      c'.secondTable = .error (.config (.tableHosted 2 0)) c'' := by
  obtain ⟨c, c', c'', hrun, hfirst, hsecond, hbefore, hafter⟩ := exists_secondTable
  refine ⟨c, c', c'', hrun, hfirst, ?_, hsecond⟩
  rw [hbefore, hafter]
  decide

theorem of_require {σ α : Type} {o : Outcome σ α} {r : α × σ} (h : Workload.require o = .ok r) :
    o = .ok r.1 r.2 := by
  cases o with
  | ok a s => rw [← Except.ok.inj h]
  | error why s => cases h
  | fault why => cases h

theorem lives_bereft (h : bereft = .ok c) : c.Lives := by
  obtain ⟨c₀, hstart, h₀⟩ := exists_of_bind h
  obtain ⟨⟨_, c₁⟩, hcreate, h₁⟩ := exists_of_bind h₀
  obtain ⟨⟨hd, c₂⟩, hopen, h₂⟩ := exists_of_bind h₁
  obtain ⟨⟨_, c₃⟩, hpush, h₃⟩ := exists_of_bind h₂
  obtain ⟨⟨_, c₄⟩, hbreak, h₄⟩ := exists_of_bind h₃
  obtain rfl := Except.ok.inj h₄
  have hlives := (Lives.start hstart).create (.ranges _) (Or.inl ⟨_, of_require hcreate⟩)
  have hopened := lives_openHandle hlives (ok_of_lift hopen)
  have hpushed := lives_push hopened (Or.inl ⟨_, of_require hpush⟩)
  exact lives_push hpushed (Or.inl ⟨_, of_require hbreak⟩)

theorem created_or_cut_short_bereft :
    ∃ c c', bereft = .ok c ∧ c.secondTable = .error (.transport (.notRunning 1)) c' ∧
      c.CutShort .integer 2 (.asp .sparse) (.transport (.notRunning 1)) c' := by
  obtain ⟨c, c', -, hrun, hfirst, -, hbefore, hafter⟩ := exists_secondTable
  have hcall : c.Creates .integer 2 (.asp .sparse) c.secondTable := .ranges _
  have herror := (created_or_cut_short (lives_bereft hrun) hcall).2.1
  refine ⟨c, c', hrun, hfirst, (herror _ c' hfirst).resolve_left ?_⟩
  rintro rfl
  rw [hbefore] at hafter
  exact absurd hafter (by decide)

end Cluster

end ParamServer
