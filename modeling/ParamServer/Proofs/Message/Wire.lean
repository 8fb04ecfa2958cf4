import Mathlib.Data.List.Basic
import ParamServer.Message.Wire
import ParamServer.Proofs.Wire

/-!
# Bytes and messages are each other's only reading

A message is read from exactly the inputs that begin with its own bytes. Numbers of elements are
written with 64 bits, so a block or a list of blocks can be longer than its bytes say; a message
without such a list is `Sized`, and every message whose bytes can be counted is.
-/

namespace ParamServer

open Wire

theorem Op.exact_get : Exact (fun _ => True) (fun op => put32 (index op)) (getChoice all) :=
  exact_getChoice (by decide) fun op => by cases op <;> rfl

namespace Block

/-- The index in front of a block. -/
def index : Block → UInt32
  | .keys _ => 0
  | .singles _ => 1
  | .doubles _ => 2
  | .integers _ => 3

/-- What is written behind the index. -/
def body : Block → Bytes
  | .keys es => putList put64 es
  | .singles es => putList (put32 ·.bits) es
  | .doubles es => putList (put64 ·.bits) es
  | .integers es => putList (put64 ·.toUInt64) es

theorem encode_eq (b : Block) : b.encode = put32 b.index ++ b.body := by cases b <;> rfl

theorem index_lt (b : Block) : b.index.toNat < readers.length := by
  cases b <;> exact of_decide_eq_true rfl

/-- A list of elements, one for each of those read, as the block `make` makes of it. -/
theorem exact_body {ν ε : Type} {put : ν → Bytes} {get : Reader ν} {i : UInt32}
    (make : List ε → Block) {f : List ν → List ε} (hf : f.Surjective)
    (hget : Exact (fun _ => True) put get) (hindex : ∀ b, index b = i ↔ ∃ es, make es = b)
    (hlength : ∀ raw, (make (f raw)).length = raw.length)
    (hbody : ∀ raw, (make (f raw)).body = putList put raw) :
    Exact (fun b => b.length < UInt64.size ∧ b.index = i) body fun bytes =>
      (getList get bytes).map fun (raw, rest) => (make (f raw), rest) := by
  refine (exact_getList hget).map (fun b => ?_) hbody
  constructor
  · rintro ⟨hlen, hi⟩
    obtain ⟨es, rfl⟩ := (hindex b).mp hi
    obtain ⟨raw, rfl⟩ := hf es
    exact ⟨raw, ⟨hlength raw ▸ hlen, fun _ _ => trivial⟩, rfl⟩
  · rintro ⟨raw, ⟨hlen, -⟩, rfl⟩
    exact ⟨(hlength raw).symm ▸ hlen, (hindex _).mpr ⟨f raw, rfl⟩⟩

theorem exact_read : Exact (·.length < UInt64.size) encode read := by
  rw [show encode = fun b => put32 b.index ++ b.body from funext encode_eq]
  refine exact_chosen index_lt fun i reader hi => ?_
  have hlt : i.toNat < 4 := (List.getElem?_eq_some_iff.mp hi).1
  obtain rfl | rfl | rfl | rfl : i = 0 ∨ i = 1 ∨ i = 2 ∨ i = 3 := by
    simp only [← UInt32.toNat_inj]
    change i.toNat = 0 ∨ i.toNat = 1 ∨ i.toNat = 2 ∨ i.toNat = 3
    omega
  all_goals obtain rfl := Option.some.inj hi
  · exact exact_body .keys Function.surjective_id exact_get64 (fun b => by cases b <;> simp [index])
      (fun _ => rfl) fun _ => rfl
  · have hsurj : (List.map Single.mk).Surjective :=
      List.map_surjective_iff.mpr fun e => ⟨e.bits, rfl⟩
    exact exact_body .singles hsurj exact_get32 (fun b => by cases b <;> simp [index])
      (fun _ => List.length_map ..) fun _ => putList_map ..
  · have hsurj : (List.map Double.mk).Surjective :=
      List.map_surjective_iff.mpr fun e => ⟨e.bits, rfl⟩
    exact exact_body .doubles hsurj exact_get64 (fun b => by cases b <;> simp [index])
      (fun _ => List.length_map ..) fun _ => putList_map ..
  · have hsurj : (List.map UInt64.toInt64).Surjective :=
      List.map_surjective_iff.mpr fun e => ⟨e.toUInt64, e.toInt64_toUInt64⟩
    exact exact_body .integers hsurj exact_get64 (fun b => by cases b <;> simp [index])
      (fun _ => List.length_map ..) fun _ => putList_map ..

theorem encode_ne_nil (b : Block) : b.encode ≠ [] := by
  rw [encode_eq]
  exact List.append_ne_nil_of_left_ne_nil (put32_ne_nil _) _

theorem length_le_encode (b : Block) : b.length ≤ b.encode.length := by
  have hbody : b.length ≤ b.body.length := by
    cases b with
    | keys es => exact length_le_putList put64 put64_ne_nil es
    | singles es =>
      exact length_le_putList (fun e : Single => put32 e.bits) (fun _ => put32_ne_nil _) es
    | doubles es =>
      exact length_le_putList (fun e : Double => put64 e.bits) (fun _ => put64_ne_nil _) es
    | integers es =>
      exact length_le_putList (fun e : Int64 => put64 e.toUInt64) (fun _ => put64_ne_nil _) es
  rw [encode_eq, List.length_append]
  omega

end Block

namespace Message

/-- Every list in it has a length that 64 bits can say. -/
def Sized (m : Message) : Prop :=
  m.blocks.length < UInt64.size ∧ ∀ b ∈ m.blocks, b.length < UInt64.size

instance (m : Message) : Decidable m.Sized := inferInstanceAs (Decidable (_ ∧ _))

theorem exact_read : Exact Sized encode read := by
  have hencode : encode = fun m => put32 m.sender ++ (put32 m.receiver ++ (put32 m.table ++
      (put32 m.op.index ++ (put64 m.clock ++ (put64 m.request ++
        (putList Block.encode m.blocks ++ [])))))) := by
    funext m
    simp only [encode, List.append_assoc, List.append_nil]
  rw [hencode]
  refine exact_get32.field (fun _ _ => trivial) fun sender _ => ?_
  refine exact_get32.field (fun _ _ => trivial) fun receiver _ => ?_
  refine exact_get32.field (fun _ _ => trivial) fun table _ => ?_
  refine Op.exact_get.field (fun _ _ => trivial) fun op _ => ?_
  refine exact_get64.field (fun _ _ => trivial) fun clock _ => ?_
  refine exact_get64.field (fun _ _ => trivial) fun request _ => ?_
  refine (exact_getList Block.exact_read).field (fun m hm => hm.1.1.1.1.1.1)
    fun blocks hblocks => ?_
  refine (Exact.pure ({ op, sender, receiver, table, clock, request, blocks } : Message)).congr
    (fun m => ?_) fun _ _ => rfl
  constructor
  · rintro ⟨⟨⟨⟨⟨⟨⟨-, rfl⟩, rfl⟩, rfl⟩, rfl⟩, rfl⟩, rfl⟩, rfl⟩
    rfl
  · rintro rfl
    exact ⟨⟨⟨⟨⟨⟨⟨hblocks, rfl⟩, rfl⟩, rfl⟩, rfl⟩, rfl⟩, rfl⟩, rfl⟩

theorem decode_eq_ok_iff {bytes : Bytes} {m : Message} :
    decode bytes = .ok m ↔ m.Sized ∧ m.encode <+: bytes := by
  constructor
  · intro h
    cases hread : read bytes with
    | error why => rw [decode, hread] at h; cases h
    | ok found =>
      rw [decode, hread] at h
      cases h
      obtain ⟨hsized, hbytes⟩ := exact_read.sound hread
      exact ⟨hsized, found.2, hbytes.symm⟩
  · rintro ⟨hsized, rest, rfl⟩
    rw [decode, exact_read.complete rest hsized]
    rfl

theorem decode_of_short {bytes tail : Bytes} {m : Message} (hsized : m.Sized)
    (h : m.encode = bytes ++ tail) (htail : tail ≠ []) : decode bytes = .error .unexpectedEnd := by
  rw [decode, exact_read.short hsized h htail]
  rfl

/-- Where the bytes can be counted, so can what they are written for. -/
theorem sized_of_length_lt {m : Message} (h : m.encode.length < UInt64.size) : m.Sized := by
  have hblocks : (putList Block.encode m.blocks).length ≤ m.encode.length := by
    rw [encode, List.length_append]
    omega
  refine ⟨?_, fun b hb => ?_⟩
  · have hcount := length_le_putList Block.encode Block.encode_ne_nil m.blocks
    omega
  · have hblock : b.encode.length ≤ (putList Block.encode m.blocks).length :=
      length_put_le_putList hb
    have hlen := b.length_le_encode
    omega

/--
A message is read from the inputs that begin with its bytes and from no others, whatever follows
them; other messages have other bytes, and an input that stops short of them is refused.
-/
theorem decode_exact :
    (∀ bytes m, decode bytes = .ok m ↔ m.Sized ∧ m.encode <+: bytes) ∧
    (∀ bytes m, bytes.length < UInt64.size → (decode bytes = .ok m ↔ m.encode <+: bytes)) ∧
    (∀ m rest, m.Sized → decode (m.encode ++ rest) = .ok m) ∧
    (∀ m m' : Message, m.Sized → m'.Sized → m.encode = m'.encode → m = m') ∧
    (∀ (m : Message) bytes, m.Sized → bytes <+: m.encode → bytes ≠ m.encode →
      decode bytes = .error .unexpectedEnd) := by
  refine ⟨fun _ _ => decode_eq_ok_iff, fun bytes m hlen => ?_, fun m rest hm => ?_,
    fun m m' hm hm' heq => exact_read.unique hm hm' heq, ?_⟩
  · rw [decode_eq_ok_iff, and_iff_right_iff_imp]
    intro hprefix
    exact sized_of_length_lt (Nat.lt_of_le_of_lt hprefix.length_le hlen)
  · exact decode_eq_ok_iff.mpr ⟨hm, rest, rfl⟩
  · rintro m bytes hm ⟨tail, htail⟩ hne
    refine decode_of_short hm htail.symm fun hnil => hne ?_
    rw [← htail, hnil, List.append_nil]

/-- Every type of block, empty and not, with a NaN of either width that carries a payload. -/
def sampler : Message :=
  { op := .response, sender := 1, receiver := 8, table := 3, clock := 4, request := 5
    blocks := [.keys [2, 2], .singles [⟨0x7fc00001⟩], .doubles [], .integers [-1],
      .doubles [⟨0xfff8000000000007⟩], .keys []] }

/-- Read back in front of other bytes, and refused one byte short. -/
theorem decode_exact_sampler :
    decode (sampler.encode ++ [7, 7]) = .ok sampler ∧
      decode sampler.encode.dropLast = .error .unexpectedEnd :=
  ⟨decode_exact.2.2.1 sampler [7, 7] (by decide),
    decode_exact.2.2.2.2 sampler _ (by decide) (List.dropLast_prefix _) (by decide)⟩

end Message

end ParamServer
