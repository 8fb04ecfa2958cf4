import Mathlib.Algebra.GroupWithZero.Nat
import ParamServer.Wire

/-!
# What a reader takes for what

A reader is exact for a writer when it reads the writer's bytes off the front of any input, reads
nothing else, and runs out on every input that stops short of them. Exactness goes through
sequencing (`Exact.bind`), so that a format is exact because its parts are; the lengths and indices
in front of the parts are data like any other.
-/

namespace ParamServer.Wire

/-! ### Numbers -/

@[simp] theorem length_leBytes (width n : Nat) : (leBytes width n).length = width := by
  induction width generalizing n with
  | zero => rfl
  | succ width ih => simp [leBytes, ih]

theorem ofLE_lt (b : Bytes) : ofLE b < 256 ^ b.length := by
  induction b with
  | nil => simp [ofLE]
  | cons x rest ih =>
    have hx := UInt8.toNat_lt x
    rw [ofLE, List.length_cons, Nat.pow_succ]
    omega

theorem leBytes_ofLE (b : Bytes) : leBytes b.length (ofLE b) = b := by
  induction b with
  | nil => rfl
  | cons x rest ih =>
    have hx := UInt8.toNat_lt x
    have hquotient : (x.toNat + 256 * ofLE rest) / 256 = ofLE rest := by omega
    have hlow : UInt8.ofNat (x.toNat + 256 * ofLE rest) = x := by
      apply UInt8.toNat_inj.mp
      rw [UInt8.toNat_ofNat']
      omega
    rw [ofLE, List.length_cons, leBytes, hquotient, hlow, ih]

theorem ofLE_leBytes {width n : Nat} (h : n < 256 ^ width) : ofLE (leBytes width n) = n := by
  induction width generalizing n with
  | zero => simp only [Nat.pow_zero] at h; simp [leBytes, ofLE]; omega
  | succ width ih =>
    have hquotient : n / 256 < 256 ^ width := by
      rw [Nat.pow_succ] at h
      exact Nat.div_lt_of_lt_mul (by rwa [Nat.mul_comm])
    rw [leBytes, ofLE, ih hquotient, UInt8.toNat_ofNat']
    omega

theorem put32_ne_nil (n : UInt32) : put32 n ≠ [] := List.ne_nil_of_length_pos (by simp [put32])

theorem put64_ne_nil (n : UInt64) : put64 n ≠ [] := List.ne_nil_of_length_pos (by simp [put64])

/-! ### Readers -/

variable {α β γ : Type}

/-- `get` reads the values that fit, each from the bytes `put` writes for it and from no others. -/
structure Exact (fits : α → Prop) (put : α → Bytes) (get : Reader α) : Prop where
  sound {b a rest} : get b = .ok (a, rest) → fits a ∧ b = put a ++ rest
  complete {a} (rest) : fits a → get (put a ++ rest) = .ok (a, rest)
  short {a b tail} : fits a → put a = b ++ tail → tail ≠ [] → get b = .error .unexpectedEnd

namespace Exact

variable {fits : α → Prop} {put : α → Bytes} {get : Reader α}

theorem unique (h : Exact fits put get) {a a' : α} (ha : fits a) (ha' : fits a')
    (heq : put a = put a') : a = a' := by
  have hread := h.complete [] ha
  rw [heq, h.complete [] ha'] at hread
  cases hread
  rfl

/-- Nothing is written for the one value there is. -/
theorem pure (a : α) : Exact (· = a) (fun _ => []) fun bytes => .ok (a, bytes) where
  sound h := by cases h; exact ⟨rfl, rfl⟩
  complete rest h := by rw [h]; rfl
  short _ hput htail := by
    have hnil := List.append_eq_nil_iff.mp hput.symm
    exact absurd hnil.2 htail

/-- A reader nothing fits may fail as it likes. -/
theorem none (why : CodecError) (put : α → Bytes) :
    Exact (fun _ => False) put fun _ => .error why where
  sound h := by cases h
  complete _ h := h.elim
  short h := h.elim

/--
One part after the other: `part b a` says that `a` can be read once `b` has been, and `putRest b a`
is what is written for it behind `b`.
-/
theorem bind {fitsFirst : β → Prop} {putFirst : β → Bytes} {first : Reader β}
    {next : β × Bytes → Except CodecError (α × Bytes)} (part : β → α → Prop)
    (putRest : β → α → Bytes) (hfirst : Exact fitsFirst putFirst first)
    (hnext : ∀ b, fitsFirst b → Exact (part b) (putRest b) fun rest => next (b, rest))
    (hfits : ∀ a, fits a ↔ ∃ b, fitsFirst b ∧ part b a)
    (hput : ∀ b a, fitsFirst b → part b a → put a = putFirst b ++ putRest b a) :
    Exact fits put fun bytes => first bytes >>= next where
  sound {bytes a rest} h := by
    cases hread : first bytes with
    | error why => rw [hread] at h; cases h
    | ok read =>
      obtain ⟨b, middle⟩ := read
      rw [hread] at h
      obtain ⟨hb, hbytes⟩ := hfirst.sound hread
      obtain ⟨hpart, hmiddle⟩ := (hnext b hb).sound h
      exact ⟨(hfits a).mpr ⟨b, hb, hpart⟩, by
        rw [hbytes, hmiddle, hput b a hb hpart, List.append_assoc]⟩
  complete {a} rest h := by
    obtain ⟨b, hb, hpart⟩ := (hfits a).mp h
    rw [hput b a hb hpart, List.append_assoc, hfirst.complete _ hb]
    exact (hnext b hb).complete rest hpart
  short {a bytes tail} h hbytes htail := by
    obtain ⟨b, hb, hpart⟩ := (hfits a).mp h
    rw [hput b a hb hpart] at hbytes
    -- The input stops inside the first part, or behind it and inside the second.
    rcases List.append_eq_append_iff.mp hbytes with ⟨middle, hmiddle, hrest⟩ | ⟨left, hleft, hrest⟩
    · rw [hmiddle, hfirst.complete _ hb]
      exact (hnext b hb).short hpart hrest htail
    · by_cases hnil : left = []
      · rw [hnil, List.append_nil] at hleft
        rw [hnil, List.nil_append] at hrest
        rw [← hleft, ← List.append_nil (putFirst b), hfirst.complete _ hb]
        exact (hnext b hb).short hpart (hrest.symm.trans (List.nil_append _).symm) htail
      · rw [hfirst.short hb hleft hnil]
        rfl

/-- One field of a record, and then the rest of the record. -/
theorem field {fitsFirst : β → Prop} {putFirst : β → Bytes} {first : Reader β}
    {next : β × Bytes → Except CodecError (α × Bytes)} {proj : α → β} {putRest : α → Bytes}
    (hfirst : Exact fitsFirst putFirst first) (hfits : ∀ a, fits a → fitsFirst (proj a))
    (hnext : ∀ b, fitsFirst b →
      Exact (fun a => fits a ∧ proj a = b) putRest fun rest => next (b, rest)) :
    Exact fits (fun a => putFirst (proj a) ++ putRest a) fun bytes => first bytes >>= next := by
  refine hfirst.bind (fun b a => fits a ∧ proj a = b) (fun _ => putRest) hnext (fun a => ?_) ?_
  · exact ⟨fun ha => ⟨proj a, hfits a ha, ha, rfl⟩, fun ⟨_, _, ha, _⟩ => ha⟩
  · rintro b a - ⟨-, rfl⟩
    rfl

/-- What is read, made into something else. -/
theorem map {fitsMade : β → Prop} {putMade : β → Bytes} {f : α → β} (h : Exact fits put get)
    (hfits : ∀ b, fitsMade b ↔ ∃ a, fits a ∧ f a = b) (hput : ∀ a, putMade (f a) = put a) :
    Exact fitsMade putMade fun bytes => (get bytes).map fun (a, rest) => (f a, rest) where
  sound {bytes b rest} hread := by
    cases hget : get bytes with
    | error why => rw [hget] at hread; cases hread
    | ok read =>
      rw [hget] at hread
      cases hread
      obtain ⟨ha, hbytes⟩ := h.sound hget
      exact ⟨(hfits _).mpr ⟨_, ha, rfl⟩, by rw [hput, hbytes]⟩
  complete rest hb := by
    obtain ⟨a, ha, rfl⟩ := (hfits _).mp hb
    rw [hput, h.complete rest ha]
    rfl
  short hb hbytes htail := by
    obtain ⟨a, ha, rfl⟩ := (hfits _).mp hb
    rw [hput] at hbytes
    rw [h.short ha hbytes htail]
    rfl

theorem congr {fits' : α → Prop} {put' : α → Bytes} (h : Exact fits put get)
    (hfits : ∀ a, fits' a ↔ fits a) (hput : ∀ a, fits a → put' a = put a) :
    Exact fits' put' get where
  sound hread := by
    obtain ⟨ha, hb⟩ := h.sound hread
    exact ⟨(hfits _).mpr ha, by rw [hput _ ha, hb]⟩
  complete rest ha := by
    rw [hput _ ((hfits _).mp ha)]
    exact h.complete rest ((hfits _).mp ha)
  short ha hb htail := by
    rw [hput _ ((hfits _).mp ha)] at hb
    exact h.short ((hfits _).mp ha) hb htail

end Exact

/-! ### The readers there are -/

theorem take_append (a rest : Bytes) : take a.length (a ++ rest) = .ok (a, rest) := by
  induction a with
  | nil => rfl
  | cons x a ih =>
    rw [List.length_cons, List.cons_append, take, ih]
    rfl

theorem take_of_lt {n : Nat} {b : Bytes} (h : b.length < n) :
    take n b = .error .unexpectedEnd := by
  induction n generalizing b with
  | zero => omega
  | succ n ih =>
    cases b with
    | nil => rfl
    | cons x b =>
      rw [take, ih (by simpa using h)]
      rfl

theorem exact_take (n : Nat) : Exact (fun b : Bytes => b.length = n) id (take n) where
  sound {b a rest} h := by
    by_cases hlen : b.length < n
    · rw [take_of_lt hlen] at h
      cases h
    · have hfront : (b.take n).length = n := by simp; omega
      have hread := take_append (b.take n) (b.drop n)
      rw [hfront, List.take_append_drop, h] at hread
      cases hread
      exact ⟨hfront, (List.take_append_drop n b).symm⟩
  complete {a} rest h := by
    rw [← h]
    exact take_append a rest
  short {a b tail} h hput htail := by
    have hpos := List.length_pos_iff.mpr htail
    have hlen := congrArg List.length hput
    rw [id, h, List.length_append] at hlen
    exact take_of_lt (by omega)

/-- A number of so many bytes, read through `ofNat`. -/
theorem exact_number {ν : Type} {width : Nat} {toNat : ν → Nat} {ofNat : Nat → ν}
    (hlt : ∀ n, toNat n < 256 ^ width) (hof : ∀ n, ofNat (toNat n) = n)
    (hto : ∀ k, k < 256 ^ width → toNat (ofNat k) = k) :
    Exact (fun _ => True) (fun n => leBytes width (toNat n)) fun bytes => do
      let (front, rest) ← take width bytes
      return (ofNat (ofLE front), rest) := by
  refine (exact_take width).bind (fun front n => n = ofNat (ofLE front)) (fun _ _ => [])
    (fun front _ => Exact.pure (ofNat (ofLE front))) (fun n => ?_) ?_
  · refine ⟨fun _ => ⟨leBytes width (toNat n), length_leBytes .., ?_⟩, fun _ => trivial⟩
    rw [ofLE_leBytes (hlt n), hof]
  · rintro front n rfl rfl
    rw [hto _ (ofLE_lt front), leBytes_ofLE, List.append_nil, id]

theorem exact_get32 : Exact (fun _ => True) put32 get32 :=
  exact_number (fun n => n.toNat_lt) (fun _ => UInt32.ofNat_toNat)
    fun _ h => UInt32.toNat_ofNat_of_lt h

theorem exact_get64 : Exact (fun _ => True) put64 get64 :=
  exact_number (fun n => n.toNat_lt) (fun _ => UInt64.ofNat_toNat)
    fun _ h => UInt64.toNat_ofNat_of_lt h

section Lists

variable {fits : α → Prop} {put : α → Bytes} {get : Reader α}

theorem exact_getMany (h : Exact fits put get) (n : Nat) :
    Exact (fun as => as.length = n ∧ ∀ a ∈ as, fits a) (List.flatMap put) (getMany get n) := by
  induction n with
  | zero =>
    refine (Exact.pure ([] : List α)).congr (fun as => ?_) ?_
    · exact ⟨fun has => List.length_eq_zero_iff.mp has.1, by rintro rfl; simp⟩
    · rintro as rfl
      rfl
  | succ n ih =>
    refine h.bind (fun a as => ∃ as', (as'.length = n ∧ ∀ a ∈ as', fits a) ∧ as = a :: as')
      (fun _ as => as.tail.flatMap put) (fun a _ => ?_) (fun as => ?_) ?_
    · refine ih.bind (fun as' as => as = a :: as') (fun _ _ => [])
        (fun as' _ => Exact.pure (a :: as')) (fun _ => Iff.rfl) ?_
      rintro as' as - rfl
      rw [List.tail_cons, List.append_nil]
    · cases as with
      | nil => simp
      | cons a as =>
        simp only [List.length_cons, Nat.add_right_cancel_iff, List.forall_mem_cons]
        exact ⟨fun ⟨hlen, ha, has⟩ => ⟨a, ha, as, ⟨hlen, has⟩, rfl⟩,
          by rintro ⟨a', ha, as', ⟨hlen, has⟩, ⟨rfl, rfl⟩⟩; exact ⟨hlen, ha, has⟩⟩
    · rintro a as - ⟨as', -, rfl⟩
      rfl

/-- The number in front has 64 bits, so a list must not be longer than it can say. -/
theorem exact_getList (h : Exact fits put get) :
    Exact (fun as => as.length < UInt64.size ∧ ∀ a ∈ as, fits a) (putList put) (getList get) := by
  refine exact_get64.bind (fun n as => as.length = n.toNat ∧ ∀ a ∈ as, fits a)
    (fun _ => List.flatMap put) (fun n _ => exact_getMany h n.toNat) (fun as => ?_) ?_
  · constructor
    · rintro ⟨hlen, has⟩
      exact ⟨UInt64.ofNat as.length, trivial, (UInt64.toNat_ofNat_of_lt hlen).symm, has⟩
    · rintro ⟨n, -, hlen, has⟩
      exact ⟨hlen ▸ n.toNat_lt, has⟩
  · rintro n as - ⟨hlen, -⟩
    rw [putList, putCount, put64, hlen]

theorem putList_map (f : β → α) (bs : List β) :
    putList put (bs.map f) = putList (fun b => put (f b)) bs := by
  rw [putList, putList, List.length_map, List.flatMap_map]

theorem length_le_putList (put : α → Bytes) (h : ∀ a, put a ≠ []) (as : List α) :
    as.length ≤ (putList put as).length := by
  have hle : as.length ≤ (as.flatMap put).length := by
    induction as with
    | nil => simp
    | cons a as ih =>
      have hpos := List.length_pos_iff.mpr (h a)
      rw [List.flatMap_cons, List.length_append, List.length_cons]
      omega
  rw [putList, List.length_append]
  omega

theorem length_put_le_putList {as : List α} {a : α} (ha : a ∈ as) :
    (put a).length ≤ (putList put as).length := by
  obtain ⟨before, after, rfl⟩ := List.append_of_mem ha
  simp only [putList, List.flatMap_append, List.flatMap_cons, List.length_append]
  omega

end Lists

/-- What is chosen by an index in front of it, and read as that index says. -/
theorem exact_chosen {choices : List β} {index : α → UInt32} {fits : α → Prop} {put : α → Bytes}
    {next : β × Bytes → Except CodecError (α × Bytes)}
    (hindex : ∀ a, (index a).toNat < choices.length)
    (hnext : ∀ i b, choices[UInt32.toNat i]? = some b →
      Exact (fun a => fits a ∧ index a = i) put fun rest => next (b, rest)) :
    Exact fits (fun a => put32 (index a) ++ put a) fun bytes =>
      getChoice choices bytes >>= next := by
  simp only [getChoice, bind_assoc]
  refine exact_get32.field (fun _ _ => trivial) fun i _ => ?_
  dsimp only
  cases hchoice : choices[i.toNat]? with
  | none =>
    refine (Exact.none (.badVariant i choices.length) put).congr (fun a => ?_) fun a h => h.elim
    rw [iff_false]
    rintro ⟨-, rfl⟩
    exact absurd (hindex a) (by simpa using hchoice)
  | some b => exact hnext i b hchoice

theorem exact_getChoice {choices : List α} {index : α → UInt32} (hdistinct : choices.Nodup)
    (hindex : ∀ a, choices[(index a).toNat]? = some a) :
    Exact (fun _ => True) (fun a => put32 (index a)) (getChoice choices) := by
  have hlt (a : α) := (List.getElem?_eq_some_iff.mp (hindex a)).1
  have hread : Exact (fun _ => True) (fun a => put32 (index a) ++ []) fun bytes =>
      getChoice choices bytes >>= pure := by
    refine exact_chosen hlt fun i a hi => (Exact.pure a).congr (fun b => ?_) fun _ _ => rfl
    rw [true_and]
    constructor
    · rintro rfl
      exact Option.some.inj ((hindex b).symm.trans hi)
    · rintro rfl
      have hat := (List.getElem?_inj (hlt b) hdistinct).mp ((hindex b).trans hi.symm)
      exact UInt32.toNat_inj.mp hat
  simpa only [List.append_nil, bind_pure] using hread

end ParamServer.Wire
