import Mathlib.Data.List.Forall2

/-!
# Lists

Messages are sorted by what they ask for, whom they are from and whom they are to. Often it is known
beforehand that all of a list is of one kind, or that nothing in it is. Lists that agree in each
kind differ in the order between the kinds only. Where two lists go together element by element,
what one has the other has a counterpart of.
-/

namespace ParamServer

section Filters

variable {α β : Type} [DecidableEq β] {l : List α}

theorem filter_of_forall_ne {f : α → β} {b : β} (h : ∀ a ∈ l, f a ≠ b) :
    (l.filter fun a => decide (f a = b)) = [] := by
  rw [List.filter_eq_nil_iff]
  exact fun a ha => by simpa using h a ha

theorem filter_of_forall_eq {f : α → β} {b : β} (h : ∀ a ∈ l, f a = b) :
    (l.filter fun a => decide (f a = b)) = l := by
  rw [List.filter_eq_self]
  exact fun a ha => decide_eq_true (h a ha)

theorem filter_of_nodup {f : α → β} (h : (l.map f).Nodup) {a : α} (ha : a ∈ l) :
    (l.filter fun b => decide (f b = f a)) = [a] := by
  induction l with
  | nil => cases ha
  | cons b rest ih =>
    obtain ⟨hb, hrest⟩ := List.nodup_cons.mp h
    rcases List.mem_cons.mp ha with rfl | ha
    · rw [List.filter_cons_of_pos (by simp), filter_of_forall_ne]
      exact fun c hc hsame => hb (hsame ▸ List.mem_map_of_mem hc)
    · rw [List.filter_cons_of_neg, ih hrest ha]
      intro hsame
      exact hb (of_decide_eq_true hsame ▸ List.mem_map_of_mem ha)

theorem filter_of_forall_false {p : α → Bool} (h : ∀ a ∈ l, p a = false) :
    l.filter p = [] ∧ (l.filter fun a => !p a) = l := by
  rw [List.filter_eq_nil_iff, List.filter_eq_self]
  exact ⟨fun a ha => by simp [h a ha], fun a ha => by simp [h a ha]⟩

/-- What a test accepts stands together. -/
theorem filter_of_split {p : α → Bool} {before inside behind : List α}
    (hbefore : ∀ a ∈ before, p a = false) (hinside : ∀ a ∈ inside, p a = true)
    (hbehind : ∀ a ∈ behind, p a = false) :
    (before ++ (inside ++ behind)).filter p = inside ∧
      ((before ++ (inside ++ behind)).filter fun a => !p a) = before ++ behind := by
  obtain ⟨hb, hb'⟩ := filter_of_forall_false hbefore
  obtain ⟨hd, hd'⟩ := filter_of_forall_false hbehind
  have hi : inside.filter p = inside := List.filter_eq_self.mpr hinside
  have hi' : (inside.filter fun a => !p a) = [] :=
    List.filter_eq_nil_iff.mpr fun a ha => by simp [hinside a ha]
  simp only [List.filter_append, hb, hi, hd, hb', hi', hd', List.append_nil, List.nil_append,
    and_self]

theorem perm_of_forall_filter_eq [DecidableEq α] {l' : List α} {f : α → β}
    (h : ∀ b, (l.filter fun a => decide (f a = b)) = l'.filter fun a => decide (f a = b)) :
    l.Perm l' := by
  rw [List.perm_iff_count]
  intro a
  have hsame := congrArg (List.count a) (h (f a))
  rwa [List.count_filter (by simp), List.count_filter (by simp)] at hsame

theorem filter_or_perm (p q : α → Bool) (l : List α) :
    (l.filter p ++ (l.filter fun a => !p a).filter q).Perm (l.filter fun a => p a || q a) := by
  have hperm := List.filter_append_perm p (l.filter fun a => p a || q a)
  rw [List.filter_filter, List.filter_filter] at hperm
  refine List.Perm.trans (List.Perm.of_eq ?_) hperm
  rw [List.filter_filter]
  congr 1 <;> apply List.filter_congr <;> intro a _ <;> cases p a <;> simp

end Filters

section Pairs

variable {α β : Type} {R : α → β → Prop} {l : List α} {r : List β}

theorem exists_of_forall₂ (h : List.Forall₂ R l r) {a : α} (ha : a ∈ l) : ∃ b ∈ r, R a b := by
  induction h with
  | nil => cases ha
  | cons hone _ ih =>
    rcases List.mem_cons.mp ha with rfl | ha
    · exact ⟨_, List.mem_cons_self, hone⟩
    · obtain ⟨b, hb, hab⟩ := ih ha
      exact ⟨b, List.mem_cons_of_mem _ hb, hab⟩

theorem exists_head_of_forall₂ (h : List.Forall₂ R l r) {b : β} (hb : b ∈ r.head?) :
    ∃ a ∈ l.head?, R a b := by
  cases h with
  | nil => cases hb
  | cons hone _ =>
    obtain rfl := Option.some.inj hb
    exact ⟨_, rfl, hone⟩

end Pairs

end ParamServer
