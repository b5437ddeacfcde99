import Mathlib.Algebra.BigOperators.Ring.Finset
import TypedColumn.Proofs.FixedForm

/-!
What bytes stand for, said without the functions that read them: numbers by the weight of each byte,
text by the bytes of each character, identifiers by their halves.
-/

namespace TypedColumn

namespace Bytes

def littleEndian (bs : Bytes) : Nat :=
  ∑ i ∈ Finset.range bs.length, (bs.getD i 0).toNat * 256 ^ i

theorem littleEndian_cons (b : UInt8) (bs : Bytes) :
    littleEndian (b :: bs) = b.toNat + 256 * littleEndian bs := by
  have shifted (i : Nat) : ((b :: bs).getD (i + 1) 0).toNat * 256 ^ (i + 1) =
      256 * ((bs.getD i 0).toNat * 256 ^ i) := by
    rw [List.getD_cons_succ, Nat.pow_succ', Nat.mul_left_comm]
  rw [littleEndian, List.length_cons, Finset.sum_range_succ', littleEndian, Finset.mul_sum,
    Nat.add_comm]
  simp only [shifted]
  simp

theorem littleEndian_eq (bs : Bytes) : bs.littleEndian = toNat bs := by
  induction bs with
  | nil => rfl
  | cons b bs ih => rw [littleEndian_cons, ih, toNat]

end Bytes

namespace Number

/-- Whole numbers in two's complement, floats as their bits, truth values as zero or not zero. -/
inductive Spells : NumberKind → Bytes → Number → Prop
  | bool {b : UInt8} {t : Bool} : (t = true ↔ b ≠ 0) → Spells .bool [b] (.bool t)
  | int {w : Width} {bs : Bytes} {x : BitVec (8 * w.bytes)} : bs.length = w.bytes →
      x.toInt = (if 2 * bs.littleEndian < 256 ^ w.bytes then (bs.littleEndian : Int)
        else (bs.littleEndian : Int) - (256 ^ w.bytes : Nat)) → Spells (.int w) bs (.int w x)
  | uint {w : Width} {bs : Bytes} {x : BitVec (8 * w.bytes)} : bs.length = w.bytes →
      x.toNat = bs.littleEndian → Spells (.uint w) bs (.uint w x)
  | float {p : Precision} {bs : Bytes} {x : BitVec (8 * p.bytes)} : bs.length = p.bytes →
      x.toNat = bs.littleEndian → Spells (.float p) bs (.float p x)

theorem toNat_eq_iff {w : Nat} {bs : Bytes} (h : bs.length = w) {x : BitVec (8 * w)} :
    x.toNat = bs.littleEndian ↔ x = BitVec.ofNat _ (Bytes.toNat bs) := by
  have bound := Bytes.toNat_lt bs
  rw [h] at bound
  rw [← BitVec.toNat_inj, BitVec.toNat_ofNat, Nat.pow_mul, Nat.mod_eq_of_lt bound,
    Bytes.littleEndian_eq]

theorem toInt_eq_iff {w : Nat} {x : BitVec (8 * w)} {n : Nat} (h : n < 256 ^ w) :
    x.toInt = (if 2 * n < 256 ^ w then (n : Int) else (n : Int) - (256 ^ w : Nat)) ↔
      x.toNat = n := by
  have power : 2 ^ (8 * w) = 256 ^ w := Nat.pow_mul 2 8 w
  have bound := x.isLt
  rw [BitVec.toInt_eq_toNat_cond, power]
  rw [power] at bound
  constructor
  · intro heq
    split at heq <;> split at heq <;> omega
  · rintro rfl
    rfl

theorem spells_iff {k : NumberKind} {bs : Bytes} {n : Number} :
    Spells k bs n ↔ bs.length = k.width ∧ n = ofBytes bs k := by
  constructor
  · intro h
    cases h with
    | @bool b t ht =>
      have zero : b = 0 ↔ b.toNat = 0 := by rw [← UInt8.toNat_inj]; rfl
      refine ⟨rfl, congrArg Number.bool (Bool.eq_iff_iff.2 ?_)⟩
      simp [ht, zero, Bytes.toNat]
    | int hlen hx =>
      have bound := Bytes.toNat_lt bs
      rw [hlen, ← Bytes.littleEndian_eq] at bound
      exact ⟨hlen, congrArg (Number.int _) ((toNat_eq_iff hlen).1 ((toInt_eq_iff bound).1 hx))⟩
    | uint hlen hx => exact ⟨hlen, congrArg (Number.uint _) ((toNat_eq_iff hlen).1 hx)⟩
    | float hlen hx => exact ⟨hlen, congrArg (Number.float _) ((toNat_eq_iff hlen).1 hx)⟩
  · rintro ⟨hlen, rfl⟩
    cases k with
    | bool =>
      obtain ⟨b, rfl⟩ := List.length_eq_one_iff.1 hlen
      have zero : b = 0 ↔ b.toNat = 0 := by rw [← UInt8.toNat_inj]; rfl
      exact .bool (by simp [zero, Bytes.toNat])
    | int w =>
      have bound := Bytes.toNat_lt bs
      rw [hlen, ← Bytes.littleEndian_eq] at bound
      exact .int hlen ((toInt_eq_iff bound).2 ((toNat_eq_iff hlen).2 rfl))
    | uint w => exact .uint hlen ((toNat_eq_iff hlen).2 rfl)
    | float p => exact .float hlen ((toNat_eq_iff hlen).2 rfl)

end Number

namespace Uuid

def Spells (bs : Bytes) (u : Uuid) : Prop :=
  ∃ high low : Bytes, bs = high ++ low ∧ high.length = 8 ∧ low.length = 8 ∧
    u.toBytes = high.reverse ++ low.reverse

theorem spells_iff {bs : Bytes} {u : Uuid} : Spells bs u ↔ bs.length = 16 ∧ u = ofRow bs := by
  constructor
  · rintro ⟨high, low, rfl, hhigh, hlow, hu⟩
    have hlen : (high ++ low).length = 16 := by rw [List.length_append, hhigh, hlow]
    refine ⟨hlen, ?_⟩
    rw [ofRow_eq_ofBytes hlen, turn, List.take_left' hhigh, List.drop_left' hhigh, ← hu,
      ofBytes_toBytes]
  · rintro ⟨hlen, rfl⟩
    refine ⟨bs.take 8, bs.drop 8, (List.take_append_drop 8 bs).symm, ?_, ?_, ?_⟩
    · rw [List.length_take, hlen]
      rfl
    · rw [List.length_drop, hlen]
    · rw [ofRow_eq_ofBytes hlen, toBytes_ofBytes (length_turn hlen), turn]

end Uuid

namespace Hex

def Spells (bs : Bytes) (text : String) : Prop :=
  let digit (n : Nat) : Char := "0123456789abcdef".toList.getD n '0'
  text.toList = bs.flatMap fun b => [digit (b.toNat / 16), digit (b.toNat % 16)]

theorem digit_eq : ∀ n < 16, "0123456789abcdef".toList.getD n '0' = digit n := by decide

theorem spells_iff {bs : Bytes} {text : String} : Spells bs text ↔ text = bs.hex := by
  have digits (b : UInt8) : ["0123456789abcdef".toList.getD (b.toNat / 16) '0',
      "0123456789abcdef".toList.getD (b.toNat % 16) '0'] = ofByte b := by
    have hb := b.toNat_lt
    rw [digit_eq _ (by omega), digit_eq _ (by omega), ofByte]
  simp only [Spells, digits]
  rw [Bytes.hex, ← String.toList_inj, String.toList_ofList]

end Hex

namespace TextEncoding

/-- UTF-8 is the bytes of each character; in ISO-8859-1 each byte is a character's number. -/
inductive Spells : TextEncoding → Bytes → String → Prop
  | utf8 {bs : Bytes} {text : String} : bs = text.toList.flatMap String.utf8EncodeChar →
      Spells .utf8 bs text
  | latin1 {bs : Bytes} {text : String} :
      bs.map UInt8.toNat = text.toList.map Char.toNat → Spells .latin1 bs text

theorem toUtf8_eq (text : String) :
    Text.toUtf8 text = text.toList.flatMap String.utf8EncodeChar := by
  obtain ⟨cs, rfl⟩ : ∃ cs, text = String.ofList cs := ⟨text.toList, String.ofList_toList.symm⟩
  rw [Text.toUtf8, String.toByteArray_ofList, List.utf8Encode, List.data_toByteArray,
    String.toList_ofList]

theorem latin1_spells_iff {bs : Bytes} {text : String} :
    bs.map UInt8.toNat = text.toList.map Char.toNat ↔ Text.ofLatin1 bs = text := by
  rw [Text.ofLatin1, ← String.toList_inj, String.toList_ofList]
  constructor
  · intro h
    have chars := congrArg (List.map Char.ofNat) h
    rw [List.map_map, List.map_map] at chars
    refine chars.trans (List.map_id'' (fun c => ?_) _)
    exact c.ofNat_toNat
  · intro h
    rw [← h, List.map_map]
    refine List.map_congr_left fun b _ => ?_
    exact (Text.toNat_ofNat_of_lt b.toNat_lt).symm

theorem spells_iff {e : TextEncoding} {bs : Bytes} {text : String} :
    e.Spells bs text ↔ e.decode? bs = some text := by
  cases e with
  | utf8 =>
    rw [← encode?_eq_some_iff, encode?, Option.some.injEq, toUtf8_eq]
    constructor
    · intro h
      cases h with
      | utf8 h => exact h.symm
    · intro h
      exact .utf8 h.symm
  | latin1 =>
    rw [decode?, Option.some.injEq, ← latin1_spells_iff]
    constructor
    · intro h
      cases h with
      | latin1 h => exact h
    · exact .latin1

theorem decode?_eq_none_iff {e : TextEncoding} {bs : Bytes} :
    e.decode? bs = none ↔ ∀ text, ¬e.Spells bs text := by
  simp only [spells_iff, Option.eq_none_iff_forall_ne_some]

end TextEncoding

namespace FixedForm

/-- How each form shows bytes: as they are, as digits, or as the text that they spell, if any. -/
inductive Shows : FixedForm → Bytes → Value → Prop
  | raw (bs : Bytes) : Shows .raw bs (.bytes bs)
  | hex {bs : Bytes} {text : String} : Hex.Spells bs text → Shows .hex bs (.string text)
  | text {e : TextEncoding} {fallback : Fallback} {bs : Bytes} {text : String} :
      e.Spells bs text → Shows (.decode e fallback) bs (.string text)
  | rawFallback {e : TextEncoding} {bs : Bytes} : (∀ text, ¬e.Spells bs text) →
      Shows (.decode e .raw) bs (.bytes bs)
  | hexFallback {e : TextEncoding} {bs : Bytes} {text : String} : (∀ text, ¬e.Spells bs text) →
      Hex.Spells bs text → Shows (.decode e .hex) bs (.string text)

theorem shows_iff {form : FixedForm} {bs : Bytes} {v : Value} :
    form.Shows bs v ↔ v = form.render bs := by
  constructor
  · intro h
    cases h with
    | raw => rfl
    | hex h => rw [render, Hex.spells_iff.1 h]
    | text h => rw [render_decode (TextEncoding.spells_iff.1 h)]
    | rawFallback h => rw [render, TextEncoding.decode?_eq_none_iff.2 h, Fallback.recover]
    | hexFallback h h' =>
      rw [render, TextEncoding.decode?_eq_none_iff.2 h, Fallback.recover, Hex.spells_iff.1 h']
  · rintro rfl
    cases form with
    | raw => exact .raw bs
    | hex => exact .hex (Hex.spells_iff.2 rfl)
    | decode e fallback =>
      cases hd : e.decode? bs with
      | some text =>
        rw [render_decode hd]
        exact .text (TextEncoding.spells_iff.2 hd)
      | none =>
        have none := TextEncoding.decode?_eq_none_iff.1 hd
        rw [render, hd]
        cases fallback with
        | raw => exact .rawFallback none
        | hex => exact .hexFallback none (Hex.spells_iff.2 rfl)

end FixedForm

theorem Value.ofBytes_eq_render (bs : Bytes) :
    Value.ofBytes bs = (FixedForm.decode .utf8 .raw).render bs := rfl

end TypedColumn
