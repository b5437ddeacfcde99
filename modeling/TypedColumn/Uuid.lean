import TypedColumn.Bytes.Hex

namespace TypedColumn

structure Uuid : Type where
  bits : BitVec 128
  deriving DecidableEq

namespace Uuid

def nil : Uuid := ⟨0⟩

def toBytes (u : Uuid) : Bytes := (Bytes.ofNat 16 u.bits.toNat).reverse

def ofBytes (bs : Bytes) : Uuid := ⟨BitVec.ofNat 128 (Bytes.toNat bs.reverse)⟩

def turn (bs : Bytes) : Bytes := (bs.take 8).reverse ++ (bs.drop 8).reverse

def toWire (u : Uuid) : Bytes := turn u.toBytes

def ofWords (high low : Nat) : Uuid := ⟨BitVec.ofNat 128 (0x10000000000000000 * high + low)⟩

/-- Many identifiers at once are put together from their words. -/
def ofWire (bs : Bytes) : Uuid := ofWords (Bytes.toNat (bs.take 8)) (Bytes.toNat (bs.drop 8))

/-- A single one goes through its bytes: each word is written anew, the highest byte first. -/
def ofRow (bs : Bytes) : Uuid :=
  let high := Bytes.toNat (bs.take 8)
  let low := Bytes.toNat (bs.drop 8)
  ofBytes ((Bytes.ofNat 8 high).reverse ++ (Bytes.ofNat 8 low).reverse)

def order (u v : Uuid) : Ordering := compare u.bits.toNat v.bits.toNat

def sort (us : List Uuid) : List Uuid := us.mergeSort fun u v => u.bits.toNat ≤ v.bits.toNat

def text (u : Uuid) : String :=
  let digits := u.toBytes.flatMap Hex.ofByte
  let group (start size : Nat) : String := String.ofList ((digits.drop start).take size)
  "-".intercalate [group 0 8, group 8 4, group 12 4, group 16 4, group 20 12]

@[simp] theorem length_toBytes (u : Uuid) : u.toBytes.length = 16 := by simp [toBytes]

@[simp] theorem length_turn {bs : Bytes} (h : bs.length = 16) : (turn bs).length = 16 := by
  rw [turn, List.length_append, List.length_reverse, List.length_reverse, ← List.length_append,
    List.take_append_drop, h]

@[simp] theorem length_toWire (u : Uuid) : u.toWire.length = 16 := length_turn u.length_toBytes

theorem turn_turn {bs : Bytes} (h : bs.length = 16) : turn (turn bs) = bs := by
  have size : ((bs.take 8).reverse).length = 8 := by
    rw [List.length_reverse, List.length_take, h]
    rfl
  have front : (turn bs).take 8 = (bs.take 8).reverse := List.take_left' size
  have back : (turn bs).drop 8 = (bs.drop 8).reverse := List.drop_left' size
  rw [turn, front, back, List.reverse_reverse, List.reverse_reverse, List.take_append_drop]

@[simp] theorem ofBytes_toBytes (u : Uuid) : ofBytes u.toBytes = u := by
  obtain ⟨bits⟩ := u
  have bound := bits.isLt
  have word : 256 ^ 16 = 2 ^ 128 := by decide
  rw [ofBytes, toBytes, List.reverse_reverse, Bytes.toNat_ofNat, word, Nat.mod_eq_of_lt bound,
    BitVec.ofNat_toNat, BitVec.setWidth_eq]

theorem toBytes_ofBytes {bs : Bytes} (h : bs.length = 16) : (ofBytes bs).toBytes = bs := by
  have size : bs.reverse.length = 16 := by rw [List.length_reverse, h]
  have bound := Bytes.toNat_lt bs.reverse
  have word : 256 ^ 16 = 2 ^ 128 := by decide
  rw [size, word] at bound
  have back := Bytes.ofNat_toNat bs.reverse
  rw [size] at back
  rw [toBytes, ofBytes, BitVec.toNat_ofNat, Nat.mod_eq_of_lt bound, back, List.reverse_reverse]

theorem ofRow_eq_ofBytes {bs : Bytes} (h : bs.length = 16) : ofRow bs = ofBytes (turn bs) := by
  have front : (bs.take 8).length = 8 := by rw [List.length_take, h]; rfl
  have back : (bs.drop 8).length = 8 := by rw [List.length_drop, h]
  have high := Bytes.ofNat_toNat (bs.take 8)
  have low := Bytes.ofNat_toNat (bs.drop 8)
  rw [front] at high
  rw [back] at low
  rw [ofRow, high, low, turn]

theorem ofWire_eq_ofBytes {bs : Bytes} (h : bs.length = 16) : ofWire bs = ofBytes (turn bs) := by
  have size : (bs.drop 8).length = 8 := by rw [List.length_drop, h]
  have word : 256 ^ 8 = 0x10000000000000000 := by decide
  rw [ofWire, ofWords, ofBytes, turn, List.reverse_append, List.reverse_reverse,
    List.reverse_reverse, Bytes.toNat_append, size, word, Nat.add_comm]

theorem ofWire_eq_ofRow {bs : Bytes} (h : bs.length = 16) : ofWire bs = ofRow bs :=
  (ofWire_eq_ofBytes h).trans (ofRow_eq_ofBytes h).symm

@[simp] theorem ofRow_toWire (u : Uuid) : ofRow u.toWire = u := by
  rw [ofRow_eq_ofBytes u.length_toWire, toWire, turn_turn u.length_toBytes, ofBytes_toBytes]

theorem toWire_ofRow {bs : Bytes} (h : bs.length = 16) : (ofRow bs).toWire = bs := by
  rw [ofRow_eq_ofBytes h, toWire, toBytes_ofBytes (length_turn h), turn_turn h]

end Uuid

end TypedColumn
