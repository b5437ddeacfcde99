import TypedColumn.Layout.Row
import TypedColumn.Proofs.Grammar

namespace TypedColumn

namespace Text

theorem toNat_ofNat_of_lt {n : Nat} (h : n < 256) : (Char.ofNat n).toNat = n := by
  have valid : n.isValidChar := .inl (by omega)
  rw [Char.ofNat, dif_pos valid]
  rfl

theorem latin1_char_iff {c : Char} {b : UInt8} :
    (if c.toNat < 256 then some (UInt8.ofNat c.toNat) else none) = some b ↔
      Char.ofNat b.toNat = c := by
  have hb := b.toNat_lt
  constructor
  · intro h
    split at h
    · rename_i hc
      cases h
      rw [UInt8.toNat_ofNat_of_lt' hc, Char.ofNat_toNat]
    · cases h
  · rintro rfl
    rw [toNat_ofNat_of_lt hb, if_pos hb, UInt8.ofNat_toNat]

theorem toLatin1?_eq_some_iff {text : String} {bs : Bytes} :
    toLatin1? text = some bs ↔ ofLatin1 bs = text := by
  obtain ⟨cs, rfl⟩ : ∃ cs, text = String.ofList cs := ⟨text.toList, String.ofList_toList.symm⟩
  rw [toLatin1?, ofLatin1, String.toList_ofList, String.ofList_inj]
  induction cs generalizing bs with
  | nil => cases bs <;> simp
  | cons c cs ih =>
    rw [List.mapM_cons]
    cases bs with
    | nil => simp [Option.bind_eq_some_iff]
    | cons b bs => simp [Option.bind_eq_some_iff, ← latin1_char_iff, ← ih]

end Text

theorem TextEncoding.encode?_eq_some_iff {e : TextEncoding} {text : String} {bs : Bytes} :
    e.encode? text = some bs ↔ e.decode? bs = some text := by
  cases e with
  | utf8 =>
    simp only [encode?, decode?, Option.some.injEq]
    constructor
    · rintro rfl
      exact Text.ofUtf8?_toUtf8 text
    · exact Text.ofUtf8?_eq_some
  | latin1 =>
    simp only [encode?, decode?, Option.some.injEq]
    exact Text.toLatin1?_eq_some_iff

inductive FixedForm.Lossless : FixedForm → Prop
  | raw : Lossless .raw
  | utf8 : Lossless (.decode .utf8 .raw)
  | latin1 (fallback : Fallback) : Lossless (.decode .latin1 fallback)

theorem FixedForm.render_decode {e : TextEncoding} {text : String} {bs : Bytes}
    (h : e.decode? bs = some text) (fallback : Fallback) :
    (FixedForm.decode e fallback).render bs = .string text := by
  rw [render, h]

namespace Hex

theorem value?_digit : ∀ n < 16, value? (digit n) = some n := by decide

theorem utf8Size_digit : ∀ n < 16, (digit n).utf8Size = 1 := by decide

@[simp] theorem toBytes?_flatMap_ofByte (bs : Bytes) : toBytes? (bs.flatMap ofByte) = some bs := by
  induction bs with
  | nil => rfl
  | cons b bs ih =>
    have hb := b.toNat_lt
    have high := value?_digit (b.toNat / 16) (by omega)
    have low := value?_digit (b.toNat % 16) (by omega)
    have whole : UInt8.ofNat (16 * (b.toNat / 16) + b.toNat % 16) = b := by
      rw [Nat.div_add_mod, UInt8.ofNat_toNat]
    rw [List.flatMap_cons, ofByte, List.cons_append, List.cons_append, List.nil_append, toBytes?,
      high, low, ih]
    exact congrArg (some <| · :: bs) whole

end Hex

theorem Bytes.hex_inj {bs bs' : Bytes} : bs.hex = bs'.hex ↔ bs = bs' := by
  constructor
  · intro h
    have digits := congrArg Hex.toBytes? (String.ofList_inj.1 h)
    rwa [Hex.toBytes?_flatMap_ofByte, Hex.toBytes?_flatMap_ofByte, Option.some.injEq] at digits
  · exact congrArg hex

namespace Text

theorem length_toUtf8_cons (c : Char) (cs : List Char) :
    (toUtf8 (String.ofList (c :: cs))).length =
      c.utf8Size + (toUtf8 (String.ofList cs)).length := by
  rw [toUtf8, toUtf8, String.toByteArray_ofList, String.toByteArray_ofList, List.utf8Encode,
    List.utf8Encode, List.data_toByteArray, List.data_toByteArray, List.flatMap_cons,
    List.length_append, String.length_utf8EncodeChar]

theorem utf8Size_byte : ∀ n < 256, (Char.ofNat n).utf8Size ≤ 2 := by decide +kernel

theorem length_toUtf8_ofLatin1_le (bs : Bytes) :
    (toUtf8 (ofLatin1 bs)).length ≤ 2 * bs.length := by
  rw [ofLatin1]
  induction bs with
  | nil => exact Nat.le_refl 0
  | cons b bs ih =>
    have size := utf8Size_byte b.toNat b.toNat_lt
    rw [List.map_cons, length_toUtf8_cons, List.length_cons]
    omega

theorem length_toUtf8_hex (bs : Bytes) : (toUtf8 bs.hex).length = 2 * bs.length := by
  rw [Bytes.hex]
  induction bs with
  | nil => rfl
  | cons b bs ih =>
    have hb := b.toNat_lt
    have high := Hex.utf8Size_digit (b.toNat / 16) (by omega)
    have low := Hex.utf8Size_digit (b.toNat % 16) (by omega)
    rw [List.flatMap_cons, Hex.ofByte, List.cons_append, List.cons_append, List.nil_append,
      length_toUtf8_cons, length_toUtf8_cons, high, low, ih, List.length_cons]
    omega

end Text

namespace FixedForm

variable {bs bs' : Bytes}

theorem hex_ne_of_decode {e : TextEncoding} {text : String} (h : e.decode? bs = some text)
    (hn : e.decode? bs' = none) (hlen : bs.length = bs'.length) : text ≠ bs'.hex := by
  -- text that bytes decode to takes as many bytes; hexadecimal text takes twice as many
  rintro rfl
  cases e with
  | latin1 => cases hn
  | utf8 =>
    have size := Text.length_toUtf8_hex bs'
    rw [Text.ofUtf8?_eq_some h] at size
    obtain rfl : bs = [] := List.eq_nil_of_length_eq_zero (by omega)
    obtain rfl : bs' = [] := List.eq_nil_of_length_eq_zero (by omega)
    rw [h] at hn
    cases hn

theorem recover_ne_of_decode {e : TextEncoding} {text : String} (h : e.decode? bs = some text)
    (hn : e.decode? bs' = none) (hlen : bs.length = bs'.length) (fallback : Fallback) :
    .string text ≠ fallback.recover bs' := by
  cases fallback with
  | raw =>
    rw [Fallback.recover]
    exact Value.noConfusion
  | hex =>
    rw [Fallback.recover, Ne, Value.string.injEq]
    exact hex_ne_of_decode h hn hlen

theorem render_inj {form : FixedForm} (hlen : bs.length = bs'.length) :
    form.render bs = form.render bs' ↔ bs = bs' := by
  refine ⟨fun h => ?_, congrArg fun bs => form.render bs⟩
  cases form with
  | raw => exact Value.bytes.inj h
  | hex => exact Bytes.hex_inj.1 (Value.string.inj h)
  | decode e fallback =>
    cases hd : e.decode? bs with
    | some text =>
      cases hd' : e.decode? bs' with
      | some text' =>
        rw [render_decode hd, render_decode hd', Value.string.injEq] at h
        subst h
        have back := TextEncoding.encode?_eq_some_iff.2 hd
        rw [TextEncoding.encode?_eq_some_iff.2 hd'] at back
        exact (Option.some.inj back).symm
      | none =>
        rw [render_decode hd, render, hd'] at h
        exact absurd h (recover_ne_of_decode hd hd' hlen fallback)
    | none =>
      cases hd' : e.decode? bs' with
      | some text' =>
        rw [render_decode hd', render, hd] at h
        exact absurd h.symm (recover_ne_of_decode hd' hd hlen.symm fallback)
      | none =>
        rw [render, render, hd, hd'] at h
        cases fallback with
        | raw => exact Value.bytes.inj h
        | hex => exact Bytes.hex_inj.1 (Value.string.inj h)

theorem render_eq (form : FixedForm) (bs : Bytes) :
    form.render bs = .bytes bs ∨ ∃ text, form.render bs = .string text := by
  cases form with
  | raw => exact .inl rfl
  | hex => exact .inr ⟨_, rfl⟩
  | decode e fallback =>
    rw [render]
    cases e.decode? bs with
    | some text => exact .inr ⟨text, rfl⟩
    | none =>
      cases fallback with
      | raw => exact .inl rfl
      | hex => exact .inr ⟨_, rfl⟩

theorem same_render (form : FixedForm) (hlen : bs.length = bs'.length) :
    (form.render bs).same (form.render bs') = (Value.bytes bs).same (.bytes bs') := by
  have apart : form.render bs = form.render bs' ↔ bs = bs' := render_inj hlen
  rw [Bool.eq_iff_iff]
  rcases render_eq form bs with h | ⟨text, h⟩
  · rcases render_eq form bs' with h' | ⟨text', h'⟩
    · rw [h, h']
    · rw [h, h'] at apart ⊢
      simpa [Value.same] using apart
  · rcases render_eq form bs' with h' | ⟨text', h'⟩
    · rw [h, h'] at apart ⊢
      simpa [Value.same] using apart
    · rw [h, h'] at apart ⊢
      simpa [Value.same] using apart

end FixedForm

namespace Layout

theorem appends_writeFixed_bytes (name : String) (form : FixedForm) (bs : Bytes) :
    (writeFixed name form (.bytes bs)).Appends bs := Writer.appends_append bs

theorem appends_writeFixed_text {e : TextEncoding} {text : String} {bs : Bytes}
    (h : e.encode? text = some bs) (name : String) (fallback : Fallback) :
    (writeFixed name (.decode e fallback) (.string text)).Appends bs := by
  rw [writeFixed, FixedForm.encoding, h]
  exact Writer.appends_append bs

theorem appends_writeFixed_render {form : FixedForm} (h : form.Lossless) (name : String)
    (bs : Bytes) : (writeFixed name form (form.render bs)).Appends bs := by
  cases h with
  | raw => exact appends_writeFixed_bytes name .raw bs
  | utf8 =>
    cases hd : TextEncoding.utf8.decode? bs with
    | none =>
      rw [FixedForm.render, hd]
      exact appends_writeFixed_bytes name _ bs
    | some text =>
      rw [FixedForm.render_decode hd]
      exact appends_writeFixed_text (TextEncoding.encode?_eq_some_iff.2 hd) name .raw
  | latin1 fallback =>
    -- every byte is a character, so the fallback is never needed
    have hd : TextEncoding.latin1.decode? bs = some (Text.ofLatin1 bs) := rfl
    rw [FixedForm.render_decode hd]
    exact appends_writeFixed_text (TextEncoding.encode?_eq_some_iff.2 hd) name fallback

end Layout

end TypedColumn
