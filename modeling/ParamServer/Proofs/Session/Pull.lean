import ParamServer.Proofs.Layout
import ParamServer.Session

/-!
# A read in parts

A read is put together from one part a shard. Whatever has been filled in was said in an answer
(`Backed`), and a read that is complete has at each position of its batch what the owner of the key
said there (`sourced_of_backed`).
-/

namespace ParamServer

variable {τ : ScalarType}

/-- Each value is where the owner of its key put it in an answer to this read. -/
structure Sourced (layout : Layout) (answers : List Message) (request : RequestId)
    (keys : List Key) {τ : ScalarType} (values : List τ.Value) : Prop where
  length_eq : values.length = keys.length
  source : ∀ i (hi : i < keys.length), ∃ before run behind,
    keys = before ++ run ++ behind ∧ before.length ≤ i ∧ i < before.length + run.length ∧
    ∃ a ∈ answers, a.request = request ∧ layout.owner keys[i] = .ok a.sender ∧
      a.keys = .ok run ∧ ∃ vs, a.values τ = .ok vs ∧ vs.length = run.length ∧
        values[i]? = vs[i - before.length]?

theorem Sourced.exists_answer {layout : Layout} {answers : List Message} {request : RequestId}
    {keys : List Key} {values : List τ.Value} (h : Sourced layout answers request keys values)
    {key : Key} (hkey : key ∈ keys) {shard : ThreadId} (howner : layout.owner key = .ok shard) :
    ∃ a ∈ answers, a.sender = shard := by
  obtain ⟨i, hi, rfl⟩ := List.getElem_of_mem hkey
  obtain ⟨_, _, _, -, -, -, a, ha, -, hsender, -⟩ := h.source i hi
  exact ⟨a, ha, Except.ok.inj (hsender.symm.trans howner)⟩

/-- An answer that has a value for each of its keys gives the read the one for its position. -/
theorem Sourced.exists_value {layout : Layout} {answers : List Message} {request : RequestId}
    {keys : List Key} {values : List τ.Value} (h : Sourced layout answers request keys values)
    {i : Nat} (hi : i < keys.length) :
    ∃ a ∈ answers, a.request = request ∧ layout.owner keys[i] = .ok a.sender ∧
      ∃ run, a.keys = .ok run ∧ keys[i] ∈ run ∧ ∀ value : Key → τ.Value,
        a.values τ = .ok (run.map value) → values[i]? = some (value keys[i]) := by
  obtain ⟨before, run, behind, hkeys, hle, hlt, a, ha, hrequest, howner, hrun, vs, hvs, -,
    hsource⟩ := h.source i hi
  have hkey : run[i - before.length]? = some keys[i] := by
    rw [← List.getElem?_eq_getElem hi, hkeys, List.append_assoc, List.getElem?_append_right hle,
      List.getElem?_append_left (by omega)]
  refine ⟨a, ha, hrequest, howner, run, hrun, List.mem_of_getElem? hkey, ?_⟩
  intro value hvalue
  obtain rfl := Except.ok.inj (hvs.symm.trans hvalue)
  rw [hsource, List.getElem?_map, hkey]
  rfl

/-- Where every answer says the same of a key, so does the read. -/
theorem Sourced.values_eq {layout : Layout} {answers : List Message} {request : RequestId}
    {keys : List Key} {values : List τ.Value} (h : Sourced layout answers request keys values)
    {value : Key → τ.Value}
    (hvalue : ∀ a ∈ answers, ∀ run, a.keys = .ok run → a.values τ = .ok (run.map value)) :
    values = keys.map value := by
  apply List.ext_getElem?
  intro i
  by_cases hi : i < keys.length
  · obtain ⟨a, ha, -, -, run, hrun, -, hsource⟩ := h.exists_value hi
    rw [hsource value (hvalue a ha run hrun), List.getElem?_map, List.getElem?_eq_getElem hi]
    rfl
  · rw [List.getElem?_eq_none (by rw [h.length_eq]; omega),
      List.getElem?_eq_none (by rw [List.length_map]; omega)]

/-- An answer to what a shard was asked for: the same keys, and as many values. -/
structure Run.AnsweredBy (τ : ScalarType) (r : Run) (a : Message) (values : List τ.Value) :
    Prop where
  sender_eq : a.sender = r.shard
  keys_eq : a.keys = .ok r.keys
  values_eq : a.values τ = .ok values
  length_eq : values.length = r.keys.length

namespace Pull

/-- The shards whose answer has not come yet. -/
def unanswered (p : Pull τ) : List ThreadId :=
  (p.parts.filter (·.answer.isNone)).map (·.run.shard)

theorem missing_eq (p : Pull τ) : p.missing = p.unanswered.length := by
  rw [missing, List.countP_eq_length_filter, unanswered, List.length_map]

theorem parts_ne_nil {p : Pull τ} (h : p.missing ≠ 0) : p.parts ≠ [] := by
  intro hnil
  exact h (by rw [missing, hnil, List.countP_nil])

theorem unanswered_fill (p : Pull τ) (shard : ThreadId) (values : List τ.Value) :
    (p.fill shard values).unanswered = p.unanswered.filter fun other => decide (other ≠ shard) := by
  unfold unanswered fill
  induction p.parts with
  | nil => rfl
  | cons part rest ih =>
    simp only [List.map_cons, List.filter_cons]
    by_cases hshard : part.run.shard = shard <;> by_cases hnone : part.answer.isNone = true
    · simpa [hshard, hnone] using ih
    · simpa [hshard, hnone] using ih
    · simpa [hshard, hnone] using ih
    · simpa [hshard, hnone] using ih

theorem runs_fill (p : Pull τ) (shard : ThreadId) (values : List τ.Value) :
    (p.fill shard values).parts.map (·.run) = p.parts.map (·.run) := by
  simp only [fill, List.map_map]
  apply List.map_congr_left
  intro part _
  simp only [Function.comp_apply]
  split <;> rfl

theorem shards_fill (p : Pull τ) (shard : ThreadId) (values : List τ.Value) :
    (p.fill shard values).parts.map (·.run.shard) = p.parts.map (·.run.shard) := by
  have hruns := congrArg (List.map (·.shard)) (runs_fill p shard values)
  simpa only [List.map_map, Function.comp_def] using hruns

theorem nodup_unanswered {p : Pull τ} (hdistinct : (p.parts.map (·.run.shard)).Nodup) :
    p.unanswered.Nodup :=
  hdistinct.sublist (List.Sublist.map _ List.filter_sublist)

/-- A part is there once, so nothing but its own shard is answered with it. -/
theorem unanswered_perm_fill {p : Pull τ} (hdistinct : (p.parts.map (·.run.shard)).Nodup)
    {part : Part τ} (hpart : part ∈ p.parts) (hnone : part.answer = none) (values : List τ.Value) :
    p.unanswered.Perm (part.run.shard :: (p.fill part.run.shard values).unanswered) := by
  have hnodup := nodup_unanswered hdistinct
  have hmem : part.run.shard ∈ p.unanswered :=
    List.mem_map.mpr ⟨part, List.mem_filter.mpr ⟨hpart, by rw [hnone]; rfl⟩, rfl⟩
  rw [unanswered_fill, show (fun other => decide (other ≠ part.run.shard)) =
    fun other => other != part.run.shard by funext other; simp [bne, beq_eq_decide],
    ← hnodup.erase_eq_filter]
  exact List.perm_cons_erase hmem

/-- Where the shard has not answered, neither has its part. -/
theorem answer_eq_none {p : Pull τ} (hdistinct : (p.parts.map (·.run.shard)).Nodup)
    {part : Part τ} (hpart : part ∈ p.parts) (h : part.run.shard ∈ p.unanswered) :
    part.answer = none := by
  obtain ⟨other, hother, hshard⟩ := List.mem_map.mp h
  obtain ⟨hmem, hisNone⟩ := List.mem_filter.mp hother
  obtain rfl := List.inj_on_of_nodup_map hdistinct hmem hpart hshard
  simpa using hisNone

/-- A part that has been asked for still is, answered or not. -/
theorem exists_part_fill {p : Pull τ} {part : Part τ} (hpart : part ∈ p.parts) (shard : ThreadId)
    (values : List τ.Value) : ∃ filled ∈ (p.fill shard values).parts, filled.run = part.run := by
  have hmem : part.run ∈ (p.fill shard values).parts.map (·.run) := by
    rw [runs_fill]
    exact List.mem_map_of_mem hpart
  exact List.mem_map.mp hmem

theorem partOf?_of_mem {p : Pull τ} (hdistinct : (p.parts.map (·.run.shard)).Nodup)
    {part : Part τ} (hpart : part ∈ p.parts) : p.partOf? part.run.shard = some part := by
  unfold partOf?
  cases hfind : p.parts.find? (·.run.shard = part.run.shard) with
  | none =>
    have hnone := List.find?_eq_none.mp hfind part hpart
    simp at hnone
  | some other =>
    have hshard : other.run.shard = part.run.shard := by simpa using List.find?_some hfind
    rw [List.inj_on_of_nodup_map hdistinct (List.mem_of_find?_eq_some hfind) hpart hshard]

/-- Whatever has been filled in was taken from one of the messages. -/
def Backed (p : Pull τ) (ms : List Message) : Prop :=
  ∀ part ∈ p.parts, ∀ values, part.answer = some values →
    ∃ a ∈ ms, a.request = p.request ∧ part.run.AnsweredBy τ a values

theorem Backed.mono {p : Pull τ} {ms more : List Message} (h : p.Backed ms)
    (hmore : ∀ m ∈ ms, m ∈ more) : p.Backed more := by
  intro part hpart values hvalues
  obtain ⟨a, ha, hanswered⟩ := h part hpart values hvalues
  exact ⟨a, hmore a ha, hanswered⟩

theorem Backed.fill {p : Pull τ} {ms : List Message} (h : p.Backed ms)
    (hdistinct : (p.parts.map (·.run.shard)).Nodup) {part : Part τ} (hpart : part ∈ p.parts)
    {a : Message} (ha : a ∈ ms) (hrequest : a.request = p.request) {values : List τ.Value}
    (hanswered : part.run.AnsweredBy τ a values) :
    (p.fill part.run.shard values).Backed ms := by
  intro filled hfilled vs hvs
  obtain ⟨old, hold, rfl⟩ := List.mem_map.mp hfilled
  split at hvs
  case isTrue hshard =>
    obtain rfl := List.inj_on_of_nodup_map hdistinct hold hpart hshard
    obtain rfl := Option.some.inj hvs
    exact ⟨a, ha, hrequest, by simpa using hanswered⟩
  case isFalse hshard =>
    obtain ⟨a, ha, hrequest, hanswered⟩ := h old hold vs hvs
    exact ⟨a, ha, hrequest, by simpa [hshard] using hanswered⟩

/-- Complete parts, side by side, give each position what its owner said. -/
theorem sourced_of_parts {layout : Layout} {answers : List Message} {request : RequestId}
    {parts : List (Part τ)}
    (hparts : ∀ part ∈ parts, (∀ key ∈ part.run.keys, layout.owner key = .ok part.run.shard) ∧
      ∃ vs, part.answer = some vs ∧ ∃ a ∈ answers, a.request = request ∧
        part.run.AnsweredBy τ a vs) :
    Sourced layout answers request (parts.flatMap (·.run.keys))
      (parts.flatMap (·.answer.getD [])) := by
  induction parts with
  | nil => exact ⟨rfl, fun i hi => absurd hi (Nat.not_lt_zero i)⟩
  | cons part rest ih =>
    obtain ⟨howner, vs, hvs, a, ha, hrequest, hanswered⟩ := hparts part (List.mem_cons_self ..)
    obtain ⟨hlength, hsource⟩ := ih fun part hpart => hparts part (List.mem_cons_of_mem _ hpart)
    have hhere := hanswered.length_eq
    simp only [List.flatMap_cons, hvs, Option.getD_some]
    refine ⟨by rw [List.length_append, List.length_append, hlength, hhere], ?_⟩
    intro i hi
    by_cases hfirst : i < part.run.keys.length
    · refine ⟨[], part.run.keys, rest.flatMap (·.run.keys), rfl, Nat.zero_le _,
        by simpa using hfirst, a, ha, hrequest, ?_, hanswered.keys_eq, vs, hanswered.values_eq,
        hhere, ?_⟩
      · rw [List.getElem_append_left hfirst, hanswered.sender_eq]
        exact howner _ (List.getElem_mem _)
      · rw [List.getElem?_append_left (by omega)]
        rfl
    · rw [List.length_append] at hi
      obtain ⟨before, run, behind, hkeys, hle, hlt, a', ha', hrequest', howner', hkeys', vs', hvs',
        hlength', hvalue⟩ := hsource (i - part.run.keys.length) (by omega)
      refine ⟨part.run.keys ++ before, run, behind, by rw [hkeys]; simp, ?_, ?_, a', ha', hrequest',
        ?_, hkeys', vs', hvs', hlength', ?_⟩
      · rw [List.length_append]
        omega
      · rw [List.length_append]
        omega
      · rw [List.getElem_append_right (by omega)]
        exact howner'
      · rw [List.getElem?_append_right (by omega), hhere, hvalue, List.length_append]
        congr 1
        omega

theorem sourced_of_backed {layout : Layout} {answers : List Message} {keys : List Key} {p : Pull τ}
    (hcut : layout.Cut 0 keys (p.parts.map (·.run))) (hmissing : p.missing = 0)
    (h : p.Backed answers) : Sourced layout answers p.request keys p.values := by
  have hwhole := hcut.whole
  rw [List.flatMap_map] at hwhole
  rw [← hwhole]
  refine sourced_of_parts ?_
  intro part hpart
  refine ⟨(hcut.owned part.run (List.mem_map_of_mem hpart)).2, ?_⟩
  rw [missing, List.countP_eq_zero] at hmissing
  obtain ⟨vs, hvs⟩ := Option.ne_none_iff_exists'.mp (by simpa using hmissing part hpart)
  exact ⟨vs, hvs, h part hpart vs hvs⟩

end Pull

end ParamServer
