namespace TypedColumn

instance (priority := high) natPow : Pow Nat Nat := instPowNat

abbrev Bytes := List UInt8

def greatestWord : Nat := 0xffffffffffffffff

/-- A sum that begins again at zero beyond the greatest word. -/
def addWords (a b : Nat) : Nat := (a + b) % 0x10000000000000000

theorem addWords_le (a b : Nat) : addWords a b ≤ a + b := Nat.mod_le _ _

theorem addWords_of_le {a b : Nat} (h : a + b ≤ greatestWord) : addWords a b = a + b :=
  Nat.mod_eq_of_lt (Nat.lt_succ_of_le h)

theorem addWords_assoc (a b c : Nat) : addWords (addWords a b) c = addWords a (addWords b c) := by
  rw [addWords, addWords, addWords, addWords, Nat.mod_add_mod, Nat.add_mod_mod, Nat.add_assoc]

namespace Bytes

/-- The number that bytes spell, the lowest byte first. -/
def toNat : Bytes → Nat
  | [] => 0
  | b :: bs => b.toNat + 256 * toNat bs

def ofNat : (width n : Nat) → Bytes
  | 0, _ => []
  | w + 1, n => UInt8.ofNat n :: ofNat w (n / 256)

def rows (width : Nat) : Nat → Bytes → List Bytes
  | 0, _ => []
  | n + 1, bs => bs.take width :: rows width n (bs.drop width)

@[simp] theorem length_ofNat (w n : Nat) : (ofNat w n).length = w := by
  induction w generalizing n with
  | zero => rfl
  | succ w ih => simp [ofNat, ih]

theorem toNat_lt (bs : Bytes) : toNat bs < 256 ^ bs.length := by
  induction bs with
  | nil => simp [toNat]
  | cons b bs ih =>
    have hb := b.toNat_lt
    simp only [toNat, List.length_cons, Nat.pow_succ]
    omega

theorem toNat_append (bs bs' : Bytes) :
    toNat (bs ++ bs') = toNat bs + 256 ^ bs.length * toNat bs' := by
  induction bs with
  | nil => simp [toNat]
  | cons b bs ih =>
    simp only [List.cons_append, toNat, List.length_cons, Nat.pow_succ', ih]
    rw [Nat.mul_add, Nat.mul_assoc, Nat.add_assoc]

theorem toNat_ofNat (w n : Nat) : toNat (ofNat w n) = n % 256 ^ w := by
  induction w generalizing n with
  | zero => simp [ofNat, toNat, Nat.mod_one]
  | succ w ih =>
    have step : 256 ^ (w + 1) = 256 * 256 ^ w := Nat.pow_succ'
    rw [step, Nat.mod_mul]
    simp [ofNat, toNat, ih]

theorem ofNat_toNat (bs : Bytes) : ofNat bs.length (toNat bs) = bs := by
  induction bs with
  | nil => rfl
  | cons b bs ih =>
    have hb := b.toNat_lt
    have low : UInt8.ofNat (b.toNat + 256 * toNat bs) = b := by
      apply UInt8.toNat_inj.1
      simp only [UInt8.toNat_ofNat']
      omega
    have high : (b.toNat + 256 * toNat bs) / 256 = toNat bs := by omega
    simp only [toNat, List.length_cons, ofNat, low, high, ih]

@[simp] theorem length_rows (width n : Nat) (bs : Bytes) : (rows width n bs).length = n := by
  induction n generalizing bs with
  | zero => rfl
  | succ n ih => simp [rows, ih]

end Bytes

end TypedColumn
