import TypedColumn.Bytes

namespace TypedColumn

inductive TextEncoding : Type
  | utf8 : TextEncoding
  | latin1 : TextEncoding
  deriving DecidableEq

namespace Text

def ofUtf8? (bs : Bytes) : Option String := String.fromUTF8? ⟨bs.toArray⟩

def toUtf8 (text : String) : Bytes := text.toByteArray.data.toList

def ofLatin1 (bs : Bytes) : String := String.ofList (bs.map fun b => Char.ofNat b.toNat)

def toLatin1? (text : String) : Option Bytes :=
  text.toList.mapM fun c => if c.toNat < 256 then some (UInt8.ofNat c.toNat) else none

@[simp] theorem ofUtf8?_toUtf8 (text : String) : ofUtf8? (toUtf8 text) = some text := by
  have same : (⟨(toUtf8 text).toArray⟩ : ByteArray) = text.toByteArray := by simp [toUtf8]
  rw [ofUtf8?, same, String.fromUTF8?, dif_pos text.isValidUTF8]
  rfl

theorem ofUtf8?_eq_some {bs : Bytes} {text : String} (h : ofUtf8? bs = some text) :
    toUtf8 text = bs := by
  unfold ofUtf8? String.fromUTF8? at h
  split at h
  · cases h
    rfl
  · cases h

end Text

namespace TextEncoding

def name : TextEncoding → String
  | .utf8 => "UTF-8"
  | .latin1 => "ISO-8859-1"

def decode? : TextEncoding → Bytes → Option String
  | .utf8, bs => Text.ofUtf8? bs
  | .latin1, bs => some (Text.ofLatin1 bs)

def encode? : TextEncoding → String → Option Bytes
  | .utf8, text => some (Text.toUtf8 text)
  | .latin1, text => Text.toLatin1? text

end TextEncoding

end TypedColumn
