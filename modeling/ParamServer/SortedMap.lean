import ParamServer.Basic

/-!
# Sorted maps

Finite maps as lists in key order. Two maps with the same look-ups are equal (`ext_get?`), and
every change goes through `alter`, whose effect on look-ups is `get?_alter`.
-/

namespace ParamServer

/-- Keys ordered by a number that tells them apart. -/
class Ranked (α : Type) where
  rank : α → Nat
  rank_inj : ∀ {a b : α}, rank a = rank b → a = b

export Ranked (rank rank_inj)

instance : Ranked Nat := ⟨id, id⟩

instance : Ranked UInt32 := ⟨UInt32.toNat, UInt32.toNat_inj.mp⟩

instance : Ranked UInt64 := ⟨UInt64.toNat, UInt64.toNat_inj.mp⟩

/-- By the first component, then by the second. -/
instance : Ranked (UInt32 × UInt32) where
  rank p := p.1.toNat * UInt32.size + p.2.toNat
  rank_inj {a b} h := by
    have ha := a.2.toNat_lt_size
    have hb := b.2.toNat_lt_size
    simp only [UInt32.size] at h ha hb
    exact Prod.ext (UInt32.toNat_inj.mp (by omega)) (UInt32.toNat_inj.mp (by omega))

structure SortedMap (α β : Type) [Ranked α] where
  entries : List (α × β)
  sorted : entries.Pairwise fun a b => rank a.1 < rank b.1

namespace SortedMap

variable {α β γ : Type} [Ranked α]

def lookup (k : α) : List (α × β) → Option β
  | [] => none
  | (a, b) :: rest => if rank a = rank k then some b else lookup k rest

/-- Puts, changes or drops the entry at `k`: `f` is told what is there and says what shall be. -/
def alterEntries (k : α) (f : Option β → Option β) : List (α × β) → List (α × β)
  | [] => (f none).toList.map (k, ·)
  | (a, b) :: rest =>
    if rank k < rank a then (f none).toList.map (k, ·) ++ (a, b) :: rest
    else if rank a < rank k then (a, b) :: alterEntries k f rest
    else (f (some b)).toList.map (a, ·) ++ rest

theorem rank_of_mem_alterEntries {k : α} {f : Option β → Option β} {l : List (α × β)}
    {e : α × β} (he : e ∈ alterEntries k f l) :
    rank e.1 = rank k ∨ ∃ b, (e.1, b) ∈ l := by
  induction l with
  | nil =>
    simp only [alterEntries, List.mem_map, Option.mem_toList] at he
    obtain ⟨b, _, rfl⟩ := he
    exact Or.inl rfl
  | cons head rest ih =>
    obtain ⟨a, b⟩ := head
    simp only [alterEntries] at he
    split at he
    · rcases List.mem_append.mp he with he | he
      · obtain ⟨c, _, rfl⟩ := List.mem_map.mp he
        exact Or.inl rfl
      · exact Or.inr ⟨e.2, he⟩
    · split at he
      · rcases List.mem_cons.mp he with rfl | he
        · exact Or.inr ⟨b, List.mem_cons_self ..⟩
        · exact (ih he).imp id fun ⟨c, hc⟩ => ⟨c, List.mem_cons_of_mem _ hc⟩
      · rcases List.mem_append.mp he with he | he
        · obtain ⟨c, _, rfl⟩ := List.mem_map.mp he
          exact Or.inl (by simp only; omega)
        · exact Or.inr ⟨e.2, List.mem_cons_of_mem _ he⟩

theorem sorted_alterEntries (k : α) (f : Option β → Option β) {l : List (α × β)}
    (hl : l.Pairwise fun a b => rank a.1 < rank b.1) :
    (alterEntries k f l).Pairwise fun a b => rank a.1 < rank b.1 := by
  induction l with
  | nil => cases h : f none <;> simp [alterEntries, h]
  | cons head rest ih =>
    obtain ⟨a, b⟩ := head
    obtain ⟨hhead, hrest⟩ := List.pairwise_cons.mp hl
    simp only [alterEntries]
    split
    · rename_i hka
      cases f none with
      | none => simpa using hl
      | some c =>
        refine List.pairwise_cons.mpr ⟨fun e he => ?_, hl⟩
        rcases List.mem_cons.mp he with rfl | he
        · exact hka
        · exact Nat.lt_trans hka (hhead e he)
    · split
      · rename_i hak
        refine List.pairwise_cons.mpr ⟨fun e he => ?_, ih hrest⟩
        rcases rank_of_mem_alterEntries he with h | ⟨c, hc⟩
        · simpa [h] using hak
        · exact hhead (e.1, c) hc
      · cases f (some b) with
        | none => simpa using hrest
        | some c => exact List.pairwise_cons.mpr ⟨hhead, hrest⟩

def empty : SortedMap α β := ⟨[], .nil⟩

instance : Inhabited (SortedMap α β) := ⟨empty⟩

instance : EmptyCollection (SortedMap α β) := ⟨empty⟩

def get? (m : SortedMap α β) (k : α) : Option β := lookup k m.entries

def contains (m : SortedMap α β) (k : α) : Bool := (m.get? k).isSome

def alter (m : SortedMap α β) (k : α) (f : Option β → Option β) : SortedMap α β :=
  ⟨alterEntries k f m.entries, sorted_alterEntries k f m.sorted⟩

def insert (m : SortedMap α β) (k : α) (b : β) : SortedMap α β := m.alter k fun _ => some b

def erase (m : SortedMap α β) (k : α) : SortedMap α β := m.alter k fun _ => none

def ofList (l : List (α × β)) : SortedMap α β := l.foldl (fun m e => m.insert e.1 e.2) empty

def keys (m : SortedMap α β) : List α := m.entries.map (·.1)

def values (m : SortedMap α β) : List β := m.entries.map (·.2)

def size (m : SortedMap α β) : Nat := m.entries.length

def isEmpty (m : SortedMap α β) : Bool := m.entries.isEmpty

/-- Rewrites each entry, in key order, or drops it. -/
def filterMap (m : SortedMap α β) (f : α → β → Option γ) : SortedMap α γ where
  entries := m.entries.filterMap fun e => (f e.1 e.2).map (e.1, ·)
  sorted := List.Pairwise.filterMap _ (by
    rintro ⟨a, b⟩ ⟨a', b'⟩ h c hc c' hc'
    simp only [Option.map_eq_some_iff] at hc hc'
    obtain ⟨_, _, rfl⟩ := hc
    obtain ⟨_, _, rfl⟩ := hc'
    exact h) m.sorted

def filter (m : SortedMap α β) (p : α → Bool) : SortedMap α β where
  entries := m.entries.filter fun e => p e.1
  sorted := m.sorted.filter _

/-- Entries below `k`, and those from `k` on. -/
def splitAt (m : SortedMap α β) (k : α) : SortedMap α β × SortedMap α β :=
  (m.filter fun a => decide (rank a < rank k), m.filter fun a => decide (rank k ≤ rank a))

/-- The same keys with other values, one for each. -/
def withValues (m : SortedMap α β) (values : List γ) : SortedMap α γ where
  entries := m.keys.zip values
  sorted := by
    rw [List.pairwise_iff_getElem]
    intro i j hi hj hij
    simp only [List.length_zip, keys, List.length_map] at hi hj
    simp only [keys, List.getElem_zip, List.getElem_map]
    exact List.pairwise_iff_getElem.mp m.sorted i j (by omega) (by omega) hij

theorem ext_entries {m n : SortedMap α β} (h : m.entries = n.entries) : m = n := by
  cases m
  cases n
  cases h
  rfl

instance [DecidableEq α] [DecidableEq β] : DecidableEq (SortedMap α β) := fun m n =>
  if h : m.entries = n.entries then isTrue (ext_entries h)
  else isFalse fun e => h (e ▸ rfl)

theorem lookup_eq_none_of_lt {k : α} {l : List (α × β)} (h : ∀ e ∈ l, rank k < rank e.1) :
    lookup k l = none := by
  induction l with
  | nil => rfl
  | cons head rest ih =>
    have hhead := h head (List.mem_cons_self ..)
    rw [lookup, if_neg (by omega)]
    exact ih fun e he => h e (List.mem_cons_of_mem _ he)

theorem lookup_alterEntries (k j : α) (f : Option β → Option β) {l : List (α × β)}
    (hl : l.Pairwise fun a b => rank a.1 < rank b.1) :
    lookup j (alterEntries k f l) =
      if rank j = rank k then f (lookup k l) else lookup j l := by
  induction l with
  | nil =>
    cases h : f none <;> by_cases hjk : rank j = rank k <;> simp [alterEntries, lookup, h, hjk]
    omega
  | cons head rest ih =>
    obtain ⟨a, b⟩ := head
    obtain ⟨hhead, hrest⟩ := List.pairwise_cons.mp hl
    simp only [alterEntries]
    split
    · rename_i hka
      have hkl : lookup k ((a, b) :: rest) = none :=
        lookup_eq_none_of_lt fun e he => by
          rcases List.mem_cons.mp he with rfl | he
          · exact hka
          · exact Nat.lt_trans hka (hhead e he)
      by_cases hjk : rank j = rank k
      · have hjl : lookup j ((a, b) :: rest) = none :=
          lookup_eq_none_of_lt fun e he => by
            rcases List.mem_cons.mp he with rfl | he
            · simpa [hjk] using hka
            · exact hjk ▸ Nat.lt_trans hka (hhead e he)
        rw [if_pos hjk, hkl]
        cases f none with
        | none => simpa using hjl
        | some c => simp [lookup, hjk]
      · rw [if_neg hjk]
        cases f none with
        | none => simp
        | some c => simp [lookup, show ¬rank k = rank j by omega]
    · split
      · rename_i hak
        simp only [lookup]
        rw [ih hrest, if_neg (show ¬rank a = rank k by omega)]
        by_cases haj : rank a = rank j
        · simp [haj, show ¬rank j = rank k by omega]
        · simp [haj]
      · have hak : rank a = rank k := by omega
        simp only [lookup, if_pos hak]
        by_cases hjk : rank j = rank k
        · rw [if_pos hjk]
          cases f (some b) with
          | none =>
            refine lookup_eq_none_of_lt fun e he => ?_
            have : rank a < rank e.1 := hhead e he
            omega
          | some c => simp [lookup, show rank a = rank j by omega]
        · rw [if_neg hjk, if_neg (by omega)]
          cases f (some b) with
          | none => simp
          | some c => simp [lookup, show ¬rank a = rank j by omega]

@[simp] theorem get?_empty (k : α) : (empty : SortedMap α β).get? k = none := rfl

@[simp] theorem get?_alter (m : SortedMap α β) (k j : α) (f : Option β → Option β) :
    (m.alter k f).get? j = if rank j = rank k then f (m.get? k) else m.get? j :=
  lookup_alterEntries k j f m.sorted

@[simp] theorem get?_insert (m : SortedMap α β) (k j : α) (b : β) :
    (m.insert k b).get? j = if rank j = rank k then some b else m.get? j :=
  get?_alter ..

@[simp] theorem get?_erase (m : SortedMap α β) (k j : α) :
    (m.erase k).get? j = if rank j = rank k then none else m.get? j :=
  get?_alter ..

theorem lookup_eq_some_iff {k : α} {b : β} {l : List (α × β)}
    (hl : l.Pairwise fun a b => rank a.1 < rank b.1) :
    lookup k l = some b ↔ (k, b) ∈ l := by
  induction l with
  | nil => simp [lookup]
  | cons head rest ih =>
    obtain ⟨a, c⟩ := head
    obtain ⟨hhead, hrest⟩ := List.pairwise_cons.mp hl
    rw [lookup, List.mem_cons]
    by_cases hak : rank a = rank k
    · obtain rfl := rank_inj hak
      have hnot : (a, b) ∉ rest := fun h => Nat.lt_irrefl _ (hhead (a, b) h)
      simp [hnot, eq_comm]
    · rw [if_neg hak, ih hrest]
      exact ⟨Or.inr, fun h => h.resolve_left fun heq => hak (by rw [(Prod.mk.inj heq).1])⟩

theorem get?_eq_some_iff {m : SortedMap α β} {k : α} {b : β} :
    m.get? k = some b ↔ (k, b) ∈ m.entries :=
  lookup_eq_some_iff m.sorted

theorem eq_of_mem_iff {l₁ l₂ : List (α × β)}
    (h₁ : l₁.Pairwise fun a b => rank a.1 < rank b.1)
    (h₂ : l₂.Pairwise fun a b => rank a.1 < rank b.1)
    (h : ∀ e, e ∈ l₁ ↔ e ∈ l₂) : l₁ = l₂ := by
  induction l₁ generalizing l₂ with
  | nil =>
    cases l₂ with
    | nil => rfl
    | cons e _ => exact absurd ((h e).mpr (List.mem_cons_self ..)) (by simp)
  | cons a rest₁ ih =>
    cases l₂ with
    | nil => exact absurd ((h a).mp (List.mem_cons_self ..)) (by simp)
    | cons b rest₂ =>
      obtain ⟨ha, hrest₁⟩ := List.pairwise_cons.mp h₁
      obtain ⟨hb, hrest₂⟩ := List.pairwise_cons.mp h₂
      have hab : a = b := by
        rcases List.mem_cons.mp ((h a).mp (List.mem_cons_self ..)) with hab | hab
        · exact hab
        rcases List.mem_cons.mp ((h b).mpr (List.mem_cons_self ..)) with hba | hba
        · exact hba.symm
        have := hb a hab
        have := ha b hba
        omega
      subst hab
      refine congrArg _ (ih hrest₁ hrest₂ fun e => ⟨fun he => ?_, fun he => ?_⟩)
      · refine (List.mem_cons.mp ((h e).mp (List.mem_cons_of_mem _ he))).resolve_left ?_
        rintro rfl
        exact Nat.lt_irrefl _ (ha e he)
      · refine (List.mem_cons.mp ((h e).mpr (List.mem_cons_of_mem _ he))).resolve_left ?_
        rintro rfl
        exact Nat.lt_irrefl _ (hb e he)

theorem ext_get? {m n : SortedMap α β} (h : ∀ k, m.get? k = n.get? k) : m = n :=
  ext_entries (eq_of_mem_iff m.sorted n.sorted fun e => by
    rw [← get?_eq_some_iff, ← get?_eq_some_iff, h])

end SortedMap

end ParamServer
