import TypedColumn.Bytes

namespace TypedColumn

inductive Width : Type
  | w8 : Width
  | w16 : Width
  | w32 : Width
  | w64 : Width
  | w128 : Width
  deriving DecidableEq

inductive Precision : Type
  | single : Precision
  | double : Precision
  deriving DecidableEq

inductive NumberKind : Type
  | bool : NumberKind
  | int : Width → NumberKind
  | uint : Width → NumberKind
  | float : Precision → NumberKind
  deriving DecidableEq

def Width.bytes : Width → Nat
  | .w8 => 1
  | .w16 => 2
  | .w32 => 4
  | .w64 => 8
  | .w128 => 16

def Precision.bytes : Precision → Nat
  | .single => 4
  | .double => 8

namespace NumberKind

def width : NumberKind → Nat
  | .bool => 1
  | .int w => w.bytes
  | .uint w => w.bytes
  | .float p => p.bytes

def name : NumberKind → String
  | .bool => "Bool"
  | .int .w8 => "Int8"
  | .int .w16 => "Int16"
  | .int .w32 => "Int32"
  | .int .w64 => "Int64"
  | .int .w128 => "Int128"
  | .uint .w8 => "UInt8"
  | .uint .w16 => "UInt16"
  | .uint .w32 => "UInt32"
  | .uint .w64 => "UInt64"
  | .uint .w128 => "UInt128"
  | .float .single => "Float32"
  | .float .double => "Float64"

def all : List NumberKind :=
  [.bool, .int .w8, .int .w16, .int .w32, .int .w64, .int .w128, .uint .w8, .uint .w16,
    .uint .w32, .uint .w64, .uint .w128, .float .single, .float .double]

def ofName? (name : String) : Option NumberKind := all.find? fun k => k.name == name

theorem mem_all (k : NumberKind) : k ∈ all := by
  rcases k with _ | w | w | p
  · decide
  · cases w <;> decide
  · cases w <;> decide
  · cases p <;> decide

theorem width_pos (k : NumberKind) : 0 < k.width := by
  rcases k with _ | w | w | p
  · decide
  · cases w <;> decide
  · cases w <;> decide
  · cases p <;> decide

end NumberKind

inductive Number : Type
  | bool : Bool → Number
  | int : (w : Width) → BitVec (8 * w.bytes) → Number
  | uint : (w : Width) → BitVec (8 * w.bytes) → Number
  | float : (p : Precision) → BitVec (8 * p.bytes) → Number
  deriving DecidableEq

namespace Number

def kind : Number → NumberKind
  | .bool _ => .bool
  | .int w _ => .int w
  | .uint w _ => .uint w
  | .float p _ => .float p

def toBytes : Number → Bytes
  | .bool b => [if b then 1 else 0]
  | .int w x => Bytes.ofNat w.bytes x.toNat
  | .uint w x => Bytes.ofNat w.bytes x.toNat
  | .float p x => Bytes.ofNat p.bytes x.toNat

def ofBytes (bs : Bytes) : NumberKind → Number
  | .bool => .bool (Bytes.toNat bs != 0)
  | .int w => .int w (BitVec.ofNat _ (Bytes.toNat bs))
  | .uint w => .uint w (BitVec.ofNat _ (Bytes.toNat bs))
  | .float p => .float p (BitVec.ofNat _ (Bytes.toNat bs))

@[simp] theorem kind_ofBytes (bs : Bytes) (k : NumberKind) : (ofBytes bs k).kind = k := by
  cases k <;> rfl

@[simp] theorem length_toBytes (n : Number) : n.toBytes.length = n.kind.width := by
  cases n <;> simp [toBytes, kind, NumberKind.width]

theorem ofNat_toNat_ofNat {w : Nat} (x : BitVec (8 * w)) :
    BitVec.ofNat (8 * w) (Bytes.toNat (Bytes.ofNat w x.toNat)) = x := by
  have h := x.isLt
  rw [Nat.pow_mul] at h
  rw [Bytes.toNat_ofNat, Nat.mod_eq_of_lt h, BitVec.ofNat_toNat, BitVec.setWidth_eq]

@[simp] theorem ofBytes_toBytes (n : Number) : ofBytes n.toBytes n.kind = n := by
  cases n with
  | bool b => cases b <;> rfl
  | int w x => simp [toBytes, kind, ofBytes, ofNat_toNat_ofNat]
  | uint w x => simp [toBytes, kind, ofBytes, ofNat_toNat_ofNat]
  | float p x => simp [toBytes, kind, ofBytes, ofNat_toNat_ofNat]

theorem ofNat_toNat_bytes {bs : Bytes} {w : Nat} (h : bs.length = w) :
    Bytes.ofNat w (BitVec.ofNat (8 * w) (Bytes.toNat bs)).toNat = bs := by
  have bound := Bytes.toNat_lt bs
  rw [h] at bound
  rw [BitVec.toNat_ofNat, Nat.pow_mul, Nat.mod_eq_of_lt bound]
  exact h ▸ Bytes.ofNat_toNat bs

theorem toBytes_ofBytes {bs : Bytes} {k : NumberKind} (h : bs.length = k.width)
    (hb : k = .bool → bs = [0] ∨ bs = [1]) : (ofBytes bs k).toBytes = bs := by
  cases k with
  | bool =>
    rcases hb rfl with rfl | rfl
    · rfl
    · rfl
  | int w => exact ofNat_toNat_bytes h
  | uint w => exact ofNat_toNat_bytes h
  | float p => exact ofNat_toNat_bytes h

theorem toBytes_bool {n : Number} (h : n.kind = .bool) : n.toBytes = [0] ∨ n.toBytes = [1] := by
  cases n with
  | bool b => cases b <;> simp [toBytes]
  | int w x => cases h
  | uint w x => cases h
  | float p x => cases h

end Number

end TypedColumn
