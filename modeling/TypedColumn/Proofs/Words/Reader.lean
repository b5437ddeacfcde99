import TypedColumn.Proofs.CountPrefix.Limits

/-!
Readers on machine words. Counts and positions are words of 64 bits, and an operation on them whose
result is no word wraps around or halts. Bytes that are cut out of a buffer where it has none halt
the reader, too. Such a reader follows one whose counts and positions are unbounded when it never
halts for one of these causes and ends like the other.
-/

namespace TypedColumn

/-- What an operation does that has no word as its result. -/
inductive Overflow : Type
  | wraps : Overflow
  | halts : Overflow

inductive Halt : Type
  | overflow : Halt
  | outside : Halt
  | fault : Fault → Halt

namespace Overflow

variable {mode : Overflow} {x y : UInt64}

def settle (mode : Overflow) (exact : Bool) (word : UInt64) : Except Halt UInt64 :=
  match mode with
  | .wraps => .ok word
  | .halts => if exact then .ok word else .error .overflow

def add (mode : Overflow) (x y : UInt64) : Except Halt UInt64 :=
  mode.settle (x.toNat + y.toNat ≤ greatestWord) (x + y)

def sub (mode : Overflow) (x y : UInt64) : Except Halt UInt64 := mode.settle (y ≤ x) (x - y)

def mul (mode : Overflow) (x y : UInt64) : Except Halt UInt64 :=
  mode.settle (x.toNat * y.toNat ≤ greatestWord) (x * y)

def shiftLeft (mode : Overflow) (x y : UInt64) : Except Halt UInt64 :=
  mode.settle (y.toNat < 64 ∧ x.toNat * 2 ^ y.toNat ≤ greatestWord) (x <<< y)

theorem settle_exact {exact : Bool} (h : exact) (word : UInt64) :
    mode.settle exact word = .ok word := by
  cases mode with
  | wraps => rfl
  | halts => exact if_pos h

theorem toNat_add (h : x.toNat + y.toNat ≤ greatestWord) :
    (x + y).toNat = x.toNat + y.toNat := by
  rw [greatestWord] at h
  rw [UInt64.toNat_add, Nat.mod_eq_of_lt (Nat.lt_succ_of_le h)]

theorem toNat_mul (h : x.toNat * y.toNat ≤ greatestWord) :
    (x * y).toNat = x.toNat * y.toNat := by
  rw [greatestWord] at h
  rw [UInt64.toNat_mul, Nat.mod_eq_of_lt (Nat.lt_succ_of_le h)]

theorem toNat_ofNat {n : Nat} (h : n ≤ greatestWord) : (UInt64.ofNat n).toNat = n := by
  rw [greatestWord] at h
  rw [UInt64.toNat_ofNat', Nat.mod_eq_of_lt (Nat.lt_succ_of_le h)]

theorem add_exact (mode : Overflow) (h : x.toNat + y.toNat ≤ greatestWord) :
    ∃ z, mode.add x y = .ok z ∧ z.toNat = x.toNat + y.toNat :=
  ⟨x + y, settle_exact (decide_eq_true h) _, toNat_add h⟩

theorem add_wraps (x y : UInt64) :
    ∃ z, Overflow.wraps.add x y = .ok z ∧ z.toNat = addWords x.toNat y.toNat :=
  ⟨x + y, rfl, UInt64.toNat_add x y⟩

theorem sub_exact (mode : Overflow) (h : y ≤ x) :
    ∃ z, mode.sub x y = .ok z ∧ z.toNat = x.toNat - y.toNat :=
  ⟨x - y, settle_exact (decide_eq_true h) _, UInt64.toNat_sub_of_le x y h⟩

theorem mul_exact (mode : Overflow) (h : x.toNat * y.toNat ≤ greatestWord) :
    ∃ z, mode.mul x y = .ok z ∧ z.toNat = x.toNat * y.toNat :=
  ⟨x * y, settle_exact (decide_eq_true h) _, toNat_mul h⟩

theorem shiftLeft_exact (mode : Overflow) (hshift : y.toNat < 64)
    (h : x.toNat * 2 ^ y.toNat ≤ greatestWord) : mode.shiftLeft x y = .ok (x <<< y) :=
  settle_exact (decide_eq_true ⟨hshift, h⟩) _

end Overflow

def WordReader (α : Type) : Type := Bytes → UInt64 → Except Halt (α × UInt64)

namespace WordReader

variable {α β γ δ : Type}

protected def pure (a : α) : WordReader α := fun _ pos => .ok (a, pos)

protected def bind (s : WordReader α) (f : α → WordReader β) : WordReader β := fun buf pos =>
  match s buf pos with
  | .ok (a, next) => f a buf next
  | .error h => .error h

instance : Monad WordReader where
  pure := WordReader.pure
  bind := WordReader.bind

def fail (f : Fault) : WordReader α := fun _ _ => .error (.fault f)

def lift (x : Except Halt α) : WordReader α := fun _ pos =>
  match x with
  | .ok a => .ok (a, pos)
  | .error h => .error h

def position : WordReader UInt64 := fun _ pos => .ok (pos, pos)

def moveTo (next : UInt64) : WordReader Unit := fun _ _ => .ok ((), next)

def advance (mode : Overflow) (n : UInt64) : WordReader Unit := do
  moveTo (← lift (mode.add (← position) n))

def check (r : Reader Unit) : WordReader Unit := fun buf pos =>
  match r buf pos.toNat with
  | .ok _ => .ok ((), pos)
  | .error f => .error (.fault f)

def underrun (pos n : Nat) : WordReader α := fun buf _ =>
  .error (.fault (.underrun pos n (buf.length - pos)))

def slice (start stop : Nat) : WordReader Bytes := fun buf pos =>
  if start ≤ stop ∧ stop ≤ buf.length then .ok ((buf.drop start).take (stop - start), pos)
  else .error .outside

def peek (start n : UInt64) : WordReader Bytes := fun buf pos =>
  if start.toNat + n.toNat ≤ greatestWord ∧ (start + n).toNat ≤ buf.length then
    slice start.toNat (start + n).toNat buf pos
  else underrun start.toNat n.toNat buf pos

def peekByte (start : UInt64) : WordReader UInt8 := do
  match ← peek start 1 with
  | [b] => return b
  | _ => lift (.error .outside)

def take (mode : Overflow) (n : UInt64) : WordReader Bytes := do
  let bs ← peek (← position) n
  advance mode n
  return bs

def byte (mode : Overflow) : WordReader UInt8 := do
  let b ← peekByte (← position)
  advance mode 1
  return b

def takeRows (mode : Overflow) (rows width : UInt64) : WordReader Bytes := do
  let pos ← position
  if rows.toNat * width.toNat ≤ greatestWord then
    let bs ← peek pos (rows * width)
    advance mode (UInt64.ofNat bs.length)
    return bs
  else underrun pos.toNat greatestWord

def words (mode : Overflow) (rows : UInt64) (swap : Bool) : WordReader (List UInt64) := do
  let bs ← takeRows mode rows 8
  return (Bytes.rows 8 rows.toNat bs).map fun row =>
    UInt64.ofNat (Bytes.toNat (if swap then row.reverse else row))

def replicate (s : WordReader α) : Nat → WordReader (List α)
  | 0 => pure []
  | n + 1 => do
    let a ← s
    return a :: (← replicate s n)

theorem bind_apply (s : WordReader α) (f : α → WordReader β) (buf : Bytes) (pos : UInt64) :
    (s >>= f) buf pos =
      match s buf pos with
      | .ok (a, next) => f a buf next
      | .error h => .error h := rfl

theorem bind_of_ok {s : WordReader α} {buf : Bytes} {pos next : UInt64} {a : α}
    (h : s buf pos = .ok (a, next)) (f : α → WordReader β) :
    (s >>= f) buf pos = f a buf next := by
  rw [bind_apply, h]

theorem bind_of_error {s : WordReader α} {buf : Bytes} {pos : UInt64} {h : Halt}
    (hs : s buf pos = .error h) (f : α → WordReader β) : (s >>= f) buf pos = .error h := by
  rw [bind_apply, hs]

theorem lift_ok_bind {x : Except Halt α} {a : α} (h : x = .ok a) (f : α → WordReader β) :
    lift x >>= f = f a := by
  rw [h]
  rfl

theorem position_bind (f : UInt64 → WordReader β) (buf : Bytes) (pos : UInt64) :
    (position >>= f) buf pos = f pos buf pos := rfl

theorem advance_exact (mode : Overflow) {n pos : UInt64}
    (h : pos.toNat + n.toNat ≤ greatestWord) (buf : Bytes) :
    ∃ next, advance mode n buf pos = .ok ((), next) ∧ next.toNat = pos.toNat + n.toNat := by
  obtain ⟨next, hadd, hnext⟩ := mode.add_exact h
  refine ⟨next, ?_, hnext⟩
  rw [advance, position_bind, lift_ok_bind hadd]
  rfl

inductive Matches (R : α → β → Prop) : Except Halt (α × UInt64) → Except Fault (β × Nat) → Prop
  | ok {a : α} {b : β} (next : UInt64) : R a b → Matches R (.ok (a, next)) (.ok (b, next.toNat))
  | fault (f : Fault) : Matches R (.error (.fault f)) (.error f)

def Follows (R : α → β → Prop) (buf : Bytes) (s : WordReader α) (r : Reader β) : Prop :=
  ∀ pos : UInt64, Matches R (s buf pos) (r buf pos.toNat)

def Stands (word : UInt64) (n : Nat) : Prop := word.toNat = n

section Follows

variable {buf : Bytes} {R : α → β → Prop} {S : γ → δ → Prop} {s : WordReader α} {r : Reader β}

theorem Matches.ok_of_eq {x : Except Halt (α × UInt64)} {a : α} {b : β} {next : UInt64} {mid : Nat}
    (hx : x = .ok (a, next)) (hnext : next.toNat = mid) (h : R a b) :
    Matches R x (.ok (b, mid)) := by
  subst hx hnext
  exact .ok next h

theorem Matches.imp {R' : α → β → Prop} {x : Except Halt (α × UInt64)}
    {y : Except Fault (β × Nat)} (h : Matches R x y) (h' : ∀ a b, R a b → R' a b) :
    Matches R' x y := by
  cases h with
  | ok next hab => exact .ok next (h' _ _ hab)
  | fault f => exact .fault f

namespace Follows

theorem pure {a : α} {b : β} (h : R a b) : Follows R buf (Pure.pure a) (Pure.pure b) :=
  fun pos => .ok pos h

theorem fail (f : Fault) : Follows R buf (WordReader.fail f) (Reader.fail f) := fun _ => .fault f

theorem bind (h : Follows R buf s r) {f : α → WordReader γ} {g : β → Reader δ}
    (h' : ∀ a b, R a b → Follows S buf (f a) (g b)) : Follows S buf (s >>= f) (r >>= g) := by
  intro pos
  have first := h pos
  rw [bind_apply, Reader.bind_apply]
  generalize s buf pos = x, r buf pos.toNat = y at first ⊢
  cases first with
  | ok next hab => exact h' _ _ hab next
  | fault f => exact .fault f

theorem map (h : Follows R buf s r) {f : α → γ} {g : β → δ} (h' : ∀ a b, R a b → S (f a) (g b)) :
    Follows S buf (s >>= fun a => Pure.pure (f a)) (r >>= fun b => Pure.pure (g b)) :=
  h.bind fun a b hab => pure (h' a b hab)

theorem replicate {s : WordReader α} {r : Reader α} (h : Follows Eq buf s r) (n : Nat) :
    Follows Eq buf (s.replicate n) (r.replicate n) := by
  induction n with
  | zero =>
    rw [Reader.replicate_zero]
    exact pure rfl
  | succ n ih =>
    rw [Reader.replicate_succ]
    refine h.bind ?_
    rintro a _ rfl
    refine ih.map ?_
    rintro as _ rfl
    rfl

theorem check {r : Reader Unit}
    (h : ∀ pos next, r buf pos = .ok ((), next) → next = pos) :
    Follows Eq buf (check r) r := by
  intro pos
  rw [WordReader.check]
  cases hr : r buf pos.toNat with
  | ok x =>
    obtain ⟨⟨⟩, next⟩ := x
    obtain rfl := h _ _ hr
    exact .ok pos rfl
  | error f => exact .fault f

end Follows

end Follows

section Sized

variable {buf : Bytes} (hbuf : buf.length ≤ greatestWord) {mode : Overflow}
include hbuf

theorem peek_inside {start n : UInt64} (h : start.toNat + n.toNat ≤ buf.length) (pos : UInt64) :
    peek start n buf pos = .ok ((buf.drop start.toNat).take n.toNat, pos) := by
  have hword := Nat.le_trans h hbuf
  have hstop := Overflow.toNat_add hword
  rw [peek, if_pos ⟨hword, hstop ▸ h⟩, hstop, slice, if_pos ⟨Nat.le_add_right _ _, h⟩,
    Nat.add_sub_cancel_left]

omit hbuf in
theorem peek_outside {start n : UInt64} (h : ¬start.toNat + n.toNat ≤ buf.length) (pos : UInt64) :
    peek start n buf pos =
      .error (.fault (.underrun start.toNat n.toNat (buf.length - start.toNat))) := by
  rw [peek, if_neg, underrun]
  rintro ⟨hword, hroom⟩
  exact h (Overflow.toNat_add hword ▸ hroom)

theorem peekByte_inside {start : UInt64} {b : UInt8} (h : buf[start.toNat]? = some b)
    (pos : UInt64) : peekByte start buf pos = .ok (b, pos) := by
  obtain ⟨hlt, hb⟩ := List.getElem?_eq_some_iff.1 h
  rw [peekByte, bind_of_ok (peek_inside hbuf (n := 1) hlt pos), List.drop_eq_getElem_cons hlt, hb]
  rfl

omit hbuf in
theorem peekByte_outside {start : UInt64} (h : buf[start.toNat]? = none) (pos : UInt64) :
    peekByte start buf pos =
      .error (.fault (.underrun start.toNat 1 (buf.length - start.toNat))) :=
  bind_of_error (peek_outside (n := 1) (Nat.not_le.2 (Nat.lt_succ_of_le
    (List.getElem?_eq_none_iff.1 h))) pos) _

theorem take_follows (mode : Overflow) (n : UInt64) :
    Follows Eq buf (take mode n) (Reader.take n.toNat) := by
  intro pos
  rw [take, position_bind, Reader.take]
  by_cases hroom : pos.toNat + n.toNat ≤ buf.length
  · obtain ⟨next, hadvance, hnext⟩ :=
      advance_exact mode (Nat.le_trans hroom hbuf) buf
    rw [bind_of_ok (peek_inside hbuf hroom pos), bind_of_ok hadvance, if_pos hroom]
    exact Matches.ok_of_eq rfl hnext rfl
  · rw [bind_of_error (peek_outside hroom pos), if_neg hroom]
    exact .fault _

theorem take_ofNat_follows (mode : Overflow) {n : Nat} (h : n ≤ greatestWord) :
    Follows Eq buf (take mode (UInt64.ofNat n)) (Reader.take n) := by
  have whole := take_follows hbuf mode (UInt64.ofNat n)
  rwa [Overflow.toNat_ofNat h] at whole

theorem byte_follows (mode : Overflow) : Follows Eq buf (byte mode) Reader.byte := by
  intro pos
  rw [byte, position_bind, Reader.byte]
  cases hget : buf[pos.toNat]? with
  | none =>
    rw [bind_of_error (peekByte_outside hget pos)]
    exact .fault _
  | some b =>
    obtain ⟨hlt, -⟩ := List.getElem?_eq_some_iff.1 hget
    obtain ⟨next, hadvance, hnext⟩ :=
      advance_exact mode (n := 1) (Nat.le_trans hlt hbuf) buf
    rw [bind_of_ok (peekByte_inside hbuf hget pos), bind_of_ok hadvance]
    exact Matches.ok_of_eq rfl hnext rfl

theorem takeRows_eq_take {rows width : UInt64} (hword : rows.toNat * width.toNat ≤ greatestWord)
    (pos : UInt64) : takeRows mode rows width buf pos = take mode (rows * width) buf pos := by
  rw [takeRows, position_bind, if_pos hword, take, position_bind]
  by_cases hroom : pos.toNat + (rows * width).toNat ≤ buf.length
  · have hlen : ((buf.drop pos.toNat).take (rows * width).toNat).length =
        (rows * width).toNat := by
      rw [List.length_take, List.length_drop]
      omega
    rw [bind_of_ok (peek_inside hbuf hroom pos), bind_of_ok (peek_inside hbuf hroom pos), hlen,
      UInt64.ofNat_toNat]
  · rw [bind_of_error (peek_outside hroom pos), bind_of_error (peek_outside hroom pos)]

theorem takeRows_follows (mode : Overflow) (rows width : UInt64) :
    Follows Eq buf (takeRows mode rows width) (Reader.takeRows rows.toNat width.toNat) := by
  intro pos
  rw [Reader.takeRows]
  by_cases hword : rows.toNat * width.toNat ≤ greatestWord
  · rw [takeRows_eq_take hbuf hword, if_pos hword, ← Overflow.toNat_mul hword]
    exact take_follows hbuf mode (rows * width) pos
  · rw [takeRows, position_bind, if_neg hword, if_neg hword]
    exact .fault _

omit hbuf in
theorem length_le_of_mem_rows {width n : Nat} {bs : Bytes} :
    ∀ row ∈ Bytes.rows width n bs, row.length ≤ width := by
  induction n generalizing bs with
  | zero => exact List.forall_mem_nil _
  | succ n ih => exact List.forall_mem_cons.2 ⟨List.length_take_le _ _, ih⟩

omit hbuf in
theorem stands_ofNat {row : Bytes} (h : row.length ≤ 8) :
    Stands (UInt64.ofNat row.toNat) row.toNat := by
  have bound : 256 ^ row.length ≤ 256 ^ (8 : Nat) := Nat.pow_le_pow_right (by decide) h
  have below := Nat.lt_of_lt_of_le row.toNat_lt bound
  exact Overflow.toNat_ofNat (Nat.le_of_lt_succ below)

theorem words_follows (mode : Overflow) (rows : UInt64) (swap : Bool) :
    Follows (List.Forall₂ Stands) buf (words mode rows swap) (Reader.words rows.toNat swap) := by
  refine (takeRows_follows hbuf mode rows 8).map ?_
  rintro bs _ rfl
  rw [List.forall₂_map_left_iff, List.forall₂_map_right_iff, List.forall₂_same]
  intro row hrow
  have short := length_le_of_mem_rows row hrow
  refine stands_ofNat ?_
  cases swap with
  | false => exact short
  | true => exact Nat.le_trans (Nat.le_of_eq List.length_reverse) short

end Sized

end WordReader

end TypedColumn
