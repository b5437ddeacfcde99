import TypedColumn.Reader
import TypedColumn.Writer

namespace TypedColumn

namespace CountPrefix

def groups (start : Nat) : Nat → Reader Nat
  | 0 => Reader.fail (.lengthOverflow start)
  | room + 1 => do
    let b ← Reader.byte
    if room = 0 ∧ 1 < b.toNat % 128 then Reader.fail (.lengthOverflow start)
    else if b.toNat < 128 then return b.toNat
    else return b.toNat % 128 + 128 * (← groups start room)

def read : Reader Nat := fun buf pos => groups pos 10 buf pos

def toBytes (n : Nat) : Bytes :=
  if n < 128 then [UInt8.ofNat n] else UInt8.ofNat (n % 128 + 128) :: toBytes (n / 128)

def write (n : Nat) : Writer := Writer.append (toBytes n)

end CountPrefix

end TypedColumn
