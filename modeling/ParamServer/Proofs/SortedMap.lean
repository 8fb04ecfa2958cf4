import ParamServer.SortedMap

/-!
# How a sorted map changes

A change at one key leaves everything before and behind that key where it is
(`exists_split_alter`). That is stronger than what `get?_alter` says of the look-ups, and it is what
an argument about the order or the number of entries needs.
-/

namespace ParamServer.SortedMap

variable {α β γ : Type} [Ranked α]

theorem contains_iff {m : SortedMap α β} {k : α} :
    m.contains k = true ↔ ∃ b, m.get? k = some b := by
  rw [contains, Option.isSome_iff_exists]

theorem contains_insert {m : SortedMap α β} {k j : α} {b : β} :
    (m.insert k b).contains j = true ↔ j = k ∨ m.contains j = true := by
  rw [contains, get?_insert]
  split
  case isTrue hsame => simp [rank_inj hsame]
  case isFalse hne =>
    have hne : j ≠ k := fun hsame => hne (hsame ▸ rfl)
    simp [hne, contains]

theorem mem_values_iff {m : SortedMap α β} {b : β} : b ∈ m.values ↔ ∃ k, m.get? k = some b := by
  simp only [values, List.mem_map, get?_eq_some_iff]
  constructor
  · rintro ⟨⟨k, b⟩, hmem, rfl⟩
    exact ⟨k, hmem⟩
  · rintro ⟨k, hmem⟩
    exact ⟨(k, b), hmem, rfl⟩

/-! ### One change -/

theorem alterEntries_of_lt {k : α} {f : Option β → Option β} {l : List (α × β)}
    (h : ∀ e ∈ l, rank k < rank e.1) :
    alterEntries k f l = (f none).toList.map (k, ·) ++ l := by
  cases l with
  | nil => simp [alterEntries]
  | cons head rest => rw [alterEntries, if_pos (h head (List.mem_cons_self ..))]

/-- **One change.** The entries below the key and those above it stay as they are. -/
theorem exists_split_alterEntries (k : α) (f : Option β → Option β) {l : List (α × β)}
    (hl : l.Pairwise fun a b => rank a.1 < rank b.1) :
    ∃ before behind,
      l = before ++ ((lookup k l).toList.map (k, ·) ++ behind) ∧
      alterEntries k f l = before ++ ((f (lookup k l)).toList.map (k, ·) ++ behind) ∧
      (∀ e ∈ before, rank e.1 < rank k) ∧ ∀ e ∈ behind, rank k < rank e.1 := by
  induction l with
  | nil => exact ⟨[], [], by simp [lookup], by simp [alterEntries, lookup], by simp, by simp⟩
  | cons head rest ih =>
    obtain ⟨a, b⟩ := head
    obtain ⟨hhead, hrest⟩ := List.pairwise_cons.mp hl
    by_cases hak : rank a < rank k
    · obtain ⟨before, behind, hold, hnew, hbefore, hbehind⟩ := ih hrest
      have hlookup : lookup k ((a, b) :: rest) = lookup k rest := by
        rw [lookup, if_neg (by omega)]
      refine ⟨(a, b) :: before, behind, ?_, ?_, ?_, hbehind⟩
      · rw [hlookup, List.cons_append, ← hold]
      · rw [hlookup, alterEntries, if_neg (by omega), if_pos hak, hnew, List.cons_append]
      · intro e he
        rcases List.mem_cons.mp he with rfl | he
        · exact hak
        · exact hbefore e he
    · by_cases hka : rank k < rank a
      · have habove : ∀ e ∈ (a, b) :: rest, rank k < rank e.1 := by
          intro e he
          rcases List.mem_cons.mp he with rfl | he
          · exact hka
          · exact Nat.lt_trans hka (hhead e he)
        have hnone := lookup_eq_none_of_lt habove
        refine ⟨[], (a, b) :: rest, ?_, ?_, by simp, habove⟩
        · rw [hnone]
          rfl
        · rw [hnone, alterEntries_of_lt habove, List.nil_append]
      · obtain rfl : a = k := rank_inj (by omega)
        have hsome : lookup a ((a, b) :: rest) = some b := by rw [lookup, if_pos rfl]
        refine ⟨[], rest, ?_, ?_, by simp, hhead⟩
        · rw [hsome]
          rfl
        · rw [hsome, alterEntries, if_neg (by omega), if_neg (by omega), List.nil_append]

theorem exists_split_alter (m : SortedMap α β) (k : α) (f : Option β → Option β) :
    ∃ before behind,
      m.entries = before ++ ((m.get? k).toList.map (k, ·) ++ behind) ∧
      (m.alter k f).entries = before ++ ((f (m.get? k)).toList.map (k, ·) ++ behind) ∧
      (∀ e ∈ before, rank e.1 < rank k) ∧ ∀ e ∈ behind, rank k < rank e.1 :=
  exists_split_alterEntries k f m.sorted

theorem entries_insert_perm {m : SortedMap α β} {k : α} (h : m.get? k = none) (b : β) :
    (m.insert k b).entries.Perm ((k, b) :: m.entries) := by
  obtain ⟨before, behind, hold, hnew, -⟩ := m.exists_split_alter k fun _ => some b
  rw [h] at hold
  rw [insert, hnew, hold]
  exact List.perm_middle

theorem entries_perm_erase {m : SortedMap α β} {k : α} {b : β} (h : m.get? k = some b) :
    m.entries.Perm ((k, b) :: (m.erase k).entries) := by
  obtain ⟨before, behind, hold, hnew, -⟩ := m.exists_split_alter k fun _ => none
  rw [h] at hold
  rw [erase, hnew, hold]
  exact List.perm_middle

theorem erase_insert {m : SortedMap α β} {k : α} (h : m.get? k = none) (b : β) :
    (m.insert k b).erase k = m := by
  refine ext_get? fun j => ?_
  rw [get?_erase, get?_insert]
  split
  case isTrue hsame => rw [rank_inj hsame, h]
  case isFalse => rfl

/-! ### Maps from lists -/

theorem get?_foldl_insert [DecidableEq α] (l : List α) (b : β) (m : SortedMap α β) (k : α) :
    ((l.map (·, b)).foldl (fun m e => m.insert e.1 e.2) m).get? k =
      if k ∈ l then some b else m.get? k := by
  induction l generalizing m with
  | nil => simp
  | cons a rest ih =>
    rw [List.map_cons, List.foldl_cons, ih, get?_insert]
    by_cases hrest : k ∈ rest
    · simp [hrest]
    · by_cases hka : k = a
      · simp [hka]
      · have hrank : rank k ≠ rank a := fun h => hka (rank_inj h)
        simp [hrest, hka, hrank]

theorem get?_ofList_const [DecidableEq α] (l : List α) (b : β) (k : α) :
    (ofList (l.map (·, b))).get? k = if k ∈ l then some b else none := by
  rw [ofList, get?_foldl_insert, get?_empty]

/-! ### Keys, and maps that drop some of them -/

theorem get?_filterMap (m : SortedMap α β) (f : α → β → Option γ) (k : α) :
    (m.filterMap f).get? k = (m.get? k).bind (f k) := by
  apply Option.ext
  intro c
  rw [get?_eq_some_iff, Option.bind_eq_some_iff]
  simp only [filterMap, List.mem_filterMap, Option.map_eq_some_iff, get?_eq_some_iff]
  constructor
  · rintro ⟨⟨a, b⟩, hmem, c', hc, heq⟩
    obtain ⟨rfl, rfl⟩ := Prod.mk.inj heq
    exact ⟨b, hmem, hc⟩
  · rintro ⟨b, hmem, hc⟩
    exact ⟨(k, b), hmem, c, hc, rfl⟩

theorem nodup_keys (m : SortedMap α β) : m.keys.Nodup := by
  rw [keys, List.nodup_iff_pairwise_ne, List.pairwise_map]
  refine m.sorted.imp ?_
  intro a b hlt heq
  rw [heq] at hlt
  exact Nat.lt_irrefl _ hlt

theorem mem_keys_iff {m : SortedMap α β} {k : α} : k ∈ m.keys ↔ ∃ b, m.get? k = some b := by
  simp only [keys, List.mem_map, get?_eq_some_iff]
  constructor
  · rintro ⟨⟨k, b⟩, hmem, rfl⟩
    exact ⟨b, hmem⟩
  · rintro ⟨b, hmem⟩
    exact ⟨(k, b), hmem, rfl⟩

end ParamServer.SortedMap
