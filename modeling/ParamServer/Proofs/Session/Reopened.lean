import ParamServer.Proofs.Session.Honest
import ParamServer.Workload

/-!
# Handles that come and go

A worker may give its handle at a table up and take a new one. Shards may still have reads of the
old one then, and answer them to whoever holds the inbox at that time. Numbers of reads start anew
with every handle, so the new one cannot tell such an answer from one to a read of its own, or takes
it for a violation (`Cluster.late_answer_disturbs`).

A handle is safe from this as long as no such answer comes in (`Tenancy.undisturbed`), and so it is
from beginning to end if it was taken when the shards had answered all that its predecessors had
asked (`Tenancy.strays_eq_nil`).
-/

namespace ParamServer

namespace Desk

variable {τ : ScalarType} {σ : Type} {d d' : Desk τ σ}

/-- Whatever has come in answers a read that was sent from here. -/
structure Own (d : Desk τ σ) : Prop where
  asked : ∀ g ∈ d.out, g ∈ d.network.taken ∧ g.op = .get
  heard : ∀ a ∈ d.read ++ d.inbox, ∃ g ∈ d.network.taken, g.op = .get ∧ Session.IsAnswer τ g a

/-- The network has taken more, and some of it are reads. -/
theorem Own.send (h : d.Own) {ms reads : List Message}
    (hreads : ∀ g ∈ reads, g ∈ d.network.taken ++ ms ∧ g.op = .get)
    (htaken : d'.network.taken = d.network.taken ++ ms) (hout : d'.out = d.out ++ reads)
    (hheard : d'.read ++ d'.inbox = d.read ++ d.inbox) : d'.Own where
  asked g hg := by
    rw [htaken]
    rcases List.mem_append.mp (hout ▸ hg) with hold | hnew
    · exact ⟨List.mem_append_left _ (h.asked g hold).1, (h.asked g hold).2⟩
    · exact hreads g hnew
  heard a ha := by
    obtain ⟨g, hg, hanswers⟩ := h.heard a (hheard ▸ ha)
    exact ⟨g, htaken ▸ List.mem_append_left _ hg, hanswers⟩

/-- The session has read some of its inbox. -/
theorem Own.keep (h : d.Own) (hnetwork : d'.network = d.network)
    (hout : d'.out = d.out) (hheard : d'.read ++ d'.inbox = d.read ++ d.inbox) : d'.Own where
  asked := by
    rw [hnetwork, hout]
    exact h.asked
  heard := by
    rw [hnetwork, hheard]
    exact h.heard

variable [Courier σ]

theorem own_of_still (h : d.Own) (ms : List Message) {session : Session τ} :
    Own { d with session, network := (Courier.sendAll d.network ms).courier } :=
  h.send (fun g hg => by cases hg) (Recorded.sendAll_recorded d.network ms).1
    (List.append_nil _).symm rfl

theorem own_of_ask (h : d.Own) {network : Recorded σ}
    (hnetwork : network = d.network ∨ ∃ runs,
      network = (Courier.sendAll d.network (d.session.numbered.requests runs)).courier)
    {session : Session τ} {pull : Option (List Key × Pull τ)} {failed : List RequestId} :
    Own { d with session, network, out := d.out ++ d.fresh network, pull, failed } := by
  rcases hnetwork with rfl | ⟨runs, rfl⟩
  · exact h.keep rfl (by simp [fresh]) rfl
  · have htaken := (Recorded.sendAll_recorded d.network (d.session.numbered.requests runs)).1
    refine h.send ?_ htaken rfl rfl
    intro g hg
    rw [fresh, htaken, List.drop_left] at hg
    exact ⟨List.mem_append_right _ hg, Session.op_of_requests g (List.mem_of_mem_take hg)⟩

theorem own_of_step (h : d.Own) {report : Report τ} (hstep : d.Step report d') : d'.Own := by
  cases hstep with
  | weather inner => exact ⟨h.asked, h.heard⟩
  | push hidle hpush =>
    obtain ⟨-, runs, -, -, rfl⟩ := Session.push_eq_ok hpush
    exact own_of_still h _
  | pushFails hidle hpush =>
    rcases Session.push_eq_error hpush with ⟨rfl, -⟩ | ⟨runs, -, -, -, rfl⟩
    · exact h
    · exact own_of_still h _
  | tick hidle htick =>
    obtain ⟨-, rfl, -, rfl⟩ := Session.tick_eq_ok htick
    exact own_of_still h _
  | tickFails hidle htick =>
    obtain ⟨rfl, -, rfl⟩ := Session.tick_eq_error htick
    exact own_of_still h _
  | ask hidle hask =>
    refine own_of_ask h ?_
    rcases Session.startPull_eq_ok hask with ⟨-, -, -, rfl⟩ | ⟨runs, -, -, -, -, -, rfl⟩
    · exact Or.inl rfl
    · exact Or.inr ⟨runs, rfl⟩
  | askFails hidle hask =>
    refine own_of_ask h ?_
    rcases Session.startPull_eq_error hask with ⟨-, rfl, -⟩ | ⟨runs, -, -, -, -, rfl⟩
    · exact Or.inl rfl
    · exact Or.inr ⟨runs, rfl⟩
  | @answer g a rest hout ha =>
    obtain ⟨htaken, hget⟩ := h.asked g (hout.mem_iff.mpr (List.mem_cons_self ..))
    refine ⟨fun k hk => h.asked k (hout.mem_iff.mpr (List.mem_cons_of_mem _ hk)), ?_⟩
    intro b hb
    rw [← List.append_assoc] at hb
    rcases List.mem_append.mp hb with hold | hnew
    · exact h.heard b hold
    · rw [List.mem_singleton.mp hnew]
      exact ⟨g, htaken, hget, ha⟩
  | wait hpull hinbox hcollect =>
    exact h.keep rfl rfl (by rw [hinbox, List.append_assoc])
  | finish hpull hinbox hcollect =>
    exact h.keep rfl rfl (by rw [hinbox]; simp only [List.append_assoc])
  | finishFails hpull hinbox hcollect =>
    exact h.keep rfl rfl (by rw [hinbox]; simp only [List.append_assoc])

theorem own_of_reachable {worker : ThreadId} {table : TableId} {layout : Layout}
    (h : Reachable worker table layout d) : d.Own := by
  induction h with
  | start inner => exact ⟨by simp, by simp⟩
  | step _ hstep ih => exact own_of_step ih hstep

end Desk

namespace Exchange

theorem route_ne_violation (e : Exchange) (m : Message) (v : Violation) :
    e.route m ≠ .error (.protocol v) := by
  unfold route
  extract_lets found
  cases found <;> rintro ⟨⟩

theorem carry_ne_violation (e : Exchange) (m : Message) (v : Violation) :
    e.carry m ≠ .error (.protocol v) := by
  unfold carry
  split
  · cases Message.decode m.encode <;> rintro ⟨⟩
  · rintro ⟨⟩

/-- Violations are found by sessions, and not by the exchange. -/
theorem send_ne_violation (e : Exchange) (m : Message) (v : Violation) :
    Courier.send e m ≠ .error (.protocol v) := by
  simp only [Courier.send, send, bind, Except.bind]
  cases hroute : e.route m with
  | error why =>
    rintro ⟨⟩
    exact route_ne_violation e m v hroute
  | ok channel =>
    cases hcarry : e.carry m with
    | error why =>
      rintro ⟨⟩
      exact carry_ne_violation e m v hcarry
    | ok carried =>
      dsimp only
      split <;> rintro ⟨⟩

end Exchange

/-- A worker at one table, over many handles. -/
structure Tenancy (τ : ScalarType) (σ : Type) where
  /-- The network, while no handle is in use. -/
  network : σ
  desk : Option (Desk τ σ) := none
  /-- Reads of earlier handles that no shard has answered. -/
  left : List Message := []
  /-- Answers to such reads that have come to the handle in use. -/
  strays : List Message := []

namespace Tenancy

variable {τ : ScalarType} {σ : Type} [Courier σ]

/-- What can happen. A `patient` worker takes a handle only when nothing is left of earlier ones. -/
inductive Step (worker : ThreadId) (table : TableId) (layout : Layout) (patient : Prop)
    (t : Tenancy τ σ) : Tenancy τ σ → Prop
  | use {d d' : Desk τ σ} {report : Desk.Report τ} (hd : t.desk = some d)
      (h : d.Step report d') : Step worker table layout patient t { t with desk := some d' }
  | take (hd : t.desk = none) (hleft : patient → t.left = []) :
      Step worker table layout patient t
        { t with
          desk := some { session := { worker, table, layout }, network := { inner := t.network } } }
  | leave {d : Desk τ σ} (hd : t.desk = some d) (hidle : d.pull = none) :
      Step worker table layout patient t
        { network := d.session.close d.network.inner, left := t.left ++ d.out }
  | weather (hd : t.desk = none) (network : σ) :
      Step worker table layout patient t { t with network }
  /-- A shard gets to a read of an earlier handle, and its answer comes to the present one. -/
  | late {d : Desk τ σ} {g a : Message} {rest : List Message} (hd : t.desk = some d)
      (hleft : t.left.Perm (g :: rest)) (ha : Session.IsAnswer τ g a) :
      Step worker table layout patient t
        { t with
          desk := some { d with inbox := d.inbox ++ [a] }, left := rest, strays := t.strays ++ [a] }
  /-- A shard gets to a read of an earlier handle, and there is nobody to take the answer. -/
  | lost {g : Message} {rest : List Message} (hd : t.desk = none)
      (hleft : t.left.Perm (g :: rest)) :
      Step worker table layout patient t { t with left := rest }

inductive Reachable (worker : ThreadId) (table : TableId) (layout : Layout) (patient : Prop) :
    Tenancy τ σ → Prop
  | start (network : σ) : Reachable worker table layout patient { network }
  | step {t t' : Tenancy τ σ} (h : Reachable worker table layout patient t)
      (hstep : Step worker table layout patient t t') : Reachable worker table layout patient t'

variable {worker : ThreadId} {table : TableId} {layout : Layout} {patient : Prop}
  {t : Tenancy τ σ} {d d' : Desk τ σ}

/-- A handle that no stray answer has come to is as any handle is that there was none before. -/
theorem desk_of_reachable (h : Reachable worker table layout patient t) :
    (t.desk = none → t.strays = []) ∧
      (t.strays = [] → ∀ d, t.desk = some d → Desk.Reachable worker table layout d) := by
  induction h with
  | start network => exact ⟨fun _ => rfl, fun _ d hd => by cases hd⟩
  | step _ hstep ih =>
    cases hstep with
    | use hd hnext =>
      refine ⟨fun hnone => (Option.some_ne_none _ hnone).elim, ?_⟩
      intro hstrays d' hd'
      obtain rfl := Option.some.inj hd'
      exact (ih.2 hstrays _ hd).step hnext
    | take hd hleft =>
      refine ⟨fun hnone => (Option.some_ne_none _ hnone).elim, ?_⟩
      intro _ d' hd'
      obtain rfl := Option.some.inj hd'
      exact .start _
    | leave hd hidle => exact ⟨fun _ => rfl, fun _ d hnone => by cases hnone⟩
    | weather hd network =>
      refine ⟨ih.1, fun _ d hsome => ?_⟩
      rw [hd] at hsome
      cases hsome
    | late hd hleft ha =>
      exact ⟨fun hnone => (Option.some_ne_none _ hnone).elim, fun hstrays => by simp at hstrays⟩
    | lost hd hleft =>
      refine ⟨ih.1, fun _ d hsome => ?_⟩
      rw [hd] at hsome
      cases hsome

/-- **Patience pays.** -/
theorem strays_eq_nil (hpatient : patient) (h : Reachable worker table layout patient t) :
    t.strays = [] ∧ (t.desk ≠ none → t.left = []) := by
  induction h with
  | start network => exact ⟨rfl, fun hsome => absurd rfl hsome⟩
  | step hbefore hstep ih =>
    cases hstep with
    | use hd hnext => exact ⟨ih.1, fun _ => ih.2 (by simp [hd])⟩
    | take hd hleft => exact ⟨ih.1, fun _ => hleft hpatient⟩
    | leave hd hidle => exact ⟨rfl, fun hsome => absurd rfl hsome⟩
    | weather hd network => exact ⟨ih.1, fun hsome => absurd hd hsome⟩
    | late hd hleft ha =>
      rw [ih.2 (by simp [hd])] at hleft
      exact absurd hleft.length_eq (by simp)
    | lost hd hleft => exact ⟨ih.1, fun hsome => absurd hd hsome⟩

/-- **An undisturbed handle** is not misled by what was before it: no call ends in a violation, and
a read that ends well has from each owner what it said in answer to that read and no other. -/
theorem undisturbed (hnet : ∀ (c : σ) (m : Message) (v : Violation),
      Courier.send c m ≠ .error (.protocol v))
    (h : Reachable worker table layout patient t) (hclear : patient ∨ t.strays = [])
    (hd : t.desk = some d) {report : Desk.Report τ} (hstep : d.Step report d') :
    (∀ v, report ≠ .failed (.protocol v)) ∧
    ∀ request keys values, report = .got request keys values → ∃ answers,
      Sourced layout answers request keys values ∧
      ∀ a ∈ answers, ∃ g ∈ d'.network.taken, g.op = .get ∧ Session.IsAnswer τ g a := by
  have hstrays : t.strays = [] := hclear.elim (fun hpatient => (strays_eq_nil hpatient h).1) id
  have hreachable := (desk_of_reachable h).2 hstrays d hd
  have hfine := Desk.fine_of_reachable hreachable
  constructor
  · rintro v rfl
    rcases Desk.failed_of_step hfine hstep with
      ⟨m, hwhy⟩ | ⟨key, hwhy⟩ | ⟨c, m, hsend⟩ | ⟨silence, _, _, hwhy⟩
    · cases hwhy
    · cases hwhy
    · exact hnet c m v hsend
    · cases silence <;> cases hwhy
  · rintro request keys values rfl
    have hown := Desk.own_of_step (Desk.own_of_reachable hreachable) hstep
    cases hstep with
    | finish hpull hinbox hcollect =>
      exact ⟨_, Desk.sourced_of_finish hfine hpull hinbox hcollect,
        fun a ha => hown.heard a (List.mem_append_left _ ha)⟩

/-- Worker 9 gives up a read and its handle. The shard gets to the read before the worker takes the
next handle, so that one is safe. -/
theorem undisturbed_patient :
    ∃ (t : Tenancy .integer Exchange) (d d' : Desk .integer Exchange) (answers : List Message)
      (values : List (ScalarType.Value .integer)), values = [(7 : Int64)] ∧
      Reachable 9 0 Desk.halves True t ∧ t.desk = some d ∧ d.Step (.got 1 [4] values) d' ∧
      Sourced Desk.halves answers 1 [4] values ∧
      ∀ a ∈ answers, ∃ g ∈ d'.network.taken, g.op = .get ∧ Session.IsAnswer .integer g a := by
  let network : Exchange := ⟨false, SortedMap.empty.insert 1 0, .empty, #[{}]⟩
  let ask : Key → Message := fun key => ⟨.get, 9, 1, 0, 0, 1, [.keys [key]]⟩
  let later : Exchange := ⟨false, SortedMap.empty.insert 1 0, .empty, #[{ queue := [ask 3] }]⟩
  let fresh : Exchange → Desk .integer Exchange := fun inner =>
    { session := { worker := 9, table := 0, layout := Desk.halves }, network := { inner } }
  let answer : Message := ⟨.response, 1, 9, 0, 0, 1, [.keys [4], .integers [7]]⟩
  let pull : Key → Pull .integer := fun key => Session.asking 1 [⟨1, 0, [key]⟩]
  let asked : Session .integer := (fresh network).session.numbered
  have hask3 : (fresh network).session.startPull (fresh network).network [3] =
    .ok (pull 3) (asked, ⟨later, [ask 3]⟩) := rfl
  have hask4 : (fresh later).session.startPull (fresh later).network [4] =
    .ok (pull 4) (asked, ⟨later.setQueue 0 [ask 3, ask 4], [ask 4]⟩) := rfl
  have hquiet : Session.giveUp .deadline (asked.collect (pull 3) []) =
    .error (.timeout 1) (_, []) := rfl
  have hread : Session.giveUp .deadline (asked.collect (pull 4) [answer]) =
    .ok [(7 : Int64)] (_, []) := rfl
  have hanswer : Session.IsAnswer .integer (ask 4) answer := by
    refine ⟨rfl, rfl, rfl, ?_⟩
    intro keys hkeys
    obtain rfl := Except.ok.inj hkeys
    exact ⟨_, rfl, rfl⟩
  have h0 : Reachable 9 0 Desk.halves True ({ network } : Tenancy .integer Exchange) :=
    .start network
  have h1 := h0.step (.take rfl fun _ => rfl)
  have h2 := h1.step (.use rfl (Desk.Step.ask rfl hask3))
  have h3 := h2.step (.use rfl (@Desk.Step.finishFails _ _ _ _ _ _ _ _ _ [] [] [] rfl rfl hquiet))
  have h4 := h3.step (.leave rfl rfl)
  have h5 := h4.step (@Step.lost _ _ _ _ _ _ _ _ (ask 3) [] rfl (List.Perm.refl _))
  have h6 := h5.step (.take rfl fun _ => rfl)
  have h7 := h6.step (.use rfl (Desk.Step.ask rfl hask4))
  let heard : Desk .integer Exchange :=
    { session := asked, network := ⟨later.setQueue 0 [ask 3, ask 4], [ask 4]⟩, inbox := [answer],
      pull := some ([4], pull 4) }
  have h8 : Reachable 9 0 Desk.halves True { network := later, desk := some heard } :=
    h7.step (.use rfl (Desk.Step.answer (g := ask 4) (List.Perm.refl _) hanswer))
  have hnext := @Desk.Step.finish _ _ _ heard [4] (pull 4) _ _ _ [answer] [] [] rfl rfl hread
  obtain ⟨answers, hsourced, hown⟩ :=
    (undisturbed Exchange.send_ne_violation h8 (Or.inl trivial) rfl hnext).2 _ _ _ rfl
  exact ⟨_, _, _, answers, _, rfl, h8, rfl, hnext, hsourced, hown⟩

end Tenancy

namespace Cluster

/-- Worker 8 reads a key while worker 9 is an iteration behind, gives up, and takes a new handle.
Then worker 9 catches up, so that the read is answered after all, and adds 5 to the key. -/
def reopened : Attempt (Cluster × Handle .integer) := do
  let c ← start ⟨1, 0, false⟩
  let (_, c) ← Workload.require (c.createTable .integer 1 [⟨0, 10⟩] (.bsp .sparse))
  let (_, c) ← Workload.require (c.initTable 1 [8, 9])
  let (first, c) ← c.openHandle .integer 8 1
  let (other, c) ← c.openHandle .integer 9 1
  let (_, c, first) ← Workload.require (c.tick first)
  match c.pull first [3] with
  | .error (.timeout 1) (c, first) =>
    let (second, c) ← (c.closeHandle first).openHandle .integer 8 1
    let (_, c, other) ← Workload.require (c.tick other)
    let (_, c) ← Workload.require (c.push other [3] [(5 : Int64)])
    return (c, second)
  | _ => throw (.error (.timeout 0))

/-- What is to be seen of two reads by a new handle: the answer that waits in its inbox, what the
first read returns, the answer it leaves behind, and why the second read fails. -/
def glimpse : Cluster × Handle .integer →
    Option (List Message × List Int64 × List Message × Error)
  | (c, h) =>
    match c.pull h [3], c.pull h [4] with
    | .ok values (c', h'), .error why _ =>
      some (c.exchange.queue h.inbox, values, c'.exchange.queue h'.inbox, why)
    | _, _ => none

/-- The new handle finds the late answer in its inbox and takes it for one to its own read, which
the shard answers with 5. A read of another key it breaks off as violated. -/
theorem late_answer_disturbs :
    ∃ c h, reopened = .ok (c, h) ∧
      c.exchange.queue h.inbox = [⟨.response, 0, 8, 1, 1, 1, [.keys [3], .integers [0]]⟩] ∧
      (∃ c' h', c.pull h [3] = .ok [(0 : Int64)] (c', h') ∧
        c'.exchange.queue h'.inbox = [⟨.response, 0, 8, 1, 0, 1, [.keys [3], .integers [5]]⟩]) ∧
      ∃ after, c.pull h [4] = .error (.protocol (.wrongPayload 0 1 1 1)) after := by
  have hseen : reopened.toOption.map glimpse =
      some (some ([⟨.response, 0, 8, 1, 1, 1, [.keys [3], .integers [0]]⟩], [0],
        [⟨.response, 0, 8, 1, 0, 1, [.keys [3], .integers [5]]⟩],
        .protocol (.wrongPayload 0 1 1 1))) := by
    decide +kernel
  cases hrun : reopened with
  | error why =>
    rw [hrun] at hseen
    cases hseen
  | ok both =>
    obtain ⟨c, h⟩ := both
    rw [hrun] at hseen
    have hreads : glimpse (c, h) = _ := Option.some.inj hseen
    simp only [glimpse] at hreads
    split at hreads
    case h_1 values c' h' why after hread hbroken =>
      simp only [Option.some.injEq, Prod.mk.injEq] at hreads
      obtain ⟨hlate, rfl, hunread, rfl⟩ := hreads
      exact ⟨c, h, rfl, hlate, ⟨c', h', hread, hunread⟩, after, hbroken⟩
    case h_2 => cases hreads

end Cluster

end ParamServer
