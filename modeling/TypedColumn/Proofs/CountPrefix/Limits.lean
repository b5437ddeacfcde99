import Mathlib.Algebra.BigOperators.Ring.Finset
import TypedColumn.Proofs.CountPrefix

/-!
Where a count ends and where reading it fails, byte by byte. The first byte without a set top bit is
the last one of a count; a tenth byte that is greater than one is one too many.
-/

namespace TypedColumn.CountPrefix

def Continued (bs : Bytes) (k : Nat) : Prop := ∀ i < k, ∃ b, bs[i]? = some b ∧ 128 ≤ b.toNat

structure EndsAt (room : Nat) (bs : Bytes) (k : Nat) : Prop where
  le_room : k ≤ room
  continued : Continued bs k
  last : ∃ b, bs[k]? = some b ∧ b.toNat < 128 ∧ (k < room ∨ b.toNat ≤ 1)

def total (bs : Bytes) (k : Nat) : Nat :=
  ∑ i ∈ Finset.range (k + 1), (bs.getD i 0).toNat % 128 * 2 ^ (7 * i)

theorem continued_zero (bs : Bytes) : Continued bs 0 := fun _ h => absurd h (Nat.not_lt_zero _)

theorem continued_succ {b : UInt8} {bs : Bytes} {k : Nat} :
    Continued (b :: bs) (k + 1) ↔ 128 ≤ b.toNat ∧ Continued bs k := by
  constructor
  · intro h
    obtain ⟨b', hb', hset⟩ := h 0 (Nat.succ_pos k)
    obtain rfl : b = b' := by simpa using hb'
    exact ⟨hset, fun i hi => by simpa using h (i + 1) (Nat.succ_lt_succ hi)⟩
  · rintro ⟨hset, h⟩ i hi
    cases i with
    | zero => exact ⟨b, rfl, hset⟩
    | succ i => simpa using h i (Nat.lt_of_succ_lt_succ hi)

theorem total_zero (b : UInt8) (bs : Bytes) : total (b :: bs) 0 = b.toNat % 128 := by
  simp [total]

theorem total_succ (b : UInt8) (bs : Bytes) (k : Nat) :
    total (b :: bs) (k + 1) = b.toNat % 128 + 128 * total bs k := by
  have shifted (i : Nat) : ((b :: bs).getD (i + 1) 0).toNat % 128 * 2 ^ (7 * (i + 1)) =
      128 * ((bs.getD i 0).toNat % 128 * 2 ^ (7 * i)) := by
    rw [List.getD_cons_succ, Nat.mul_succ, Nat.pow_add, Nat.mul_comm _ (2 ^ 7), Nat.mul_left_comm]
  rw [total, Finset.sum_range_succ', total, Finset.mul_sum, Nat.add_comm]
  simp only [shifted]
  simp

theorem endsAt_succ {room k : Nat} {b : UInt8} {bs : Bytes} :
    EndsAt (room + 1) (b :: bs) (k + 1) ↔ 128 ≤ b.toNat ∧ EndsAt room bs k := by
  constructor
  · rintro ⟨hle, hcontinued, hlast⟩
    obtain ⟨hset, hrest⟩ := continued_succ.1 hcontinued
    exact ⟨hset, Nat.le_of_succ_le_succ hle, hrest, by simpa using hlast⟩
  · rintro ⟨hset, hle, hcontinued, hlast⟩
    exact ⟨Nat.succ_le_succ hle, continued_succ.2 ⟨hset, hcontinued⟩, by simpa using hlast⟩

theorem endsAt_or (room : Nat) (bs : Bytes) : (∃ k, EndsAt room bs k) ∨
    (bs.length ≤ room ∧ ∀ b ∈ bs, 128 ≤ b.toNat) ∨
    (Continued bs room ∧ ∃ b, bs[room]? = some b ∧ 1 < b.toNat) := by
  induction room generalizing bs with
  | zero =>
    cases bs with
    | nil => exact .inr (.inl ⟨Nat.le_refl 0, List.forall_mem_nil _⟩)
    | cons b bs =>
      by_cases hb : b.toNat ≤ 1
      · exact .inl ⟨0, Nat.le_refl 0, continued_zero _, b, rfl, by omega, .inr hb⟩
      · exact .inr (.inr ⟨continued_zero _, b, rfl, Nat.lt_of_not_le hb⟩)
  | succ room ih =>
    cases bs with
    | nil => exact .inr (.inl ⟨Nat.zero_le _, List.forall_mem_nil _⟩)
    | cons b bs =>
      by_cases hb : b.toNat < 128
      · exact .inl ⟨0, Nat.zero_le _, continued_zero _, b, rfl, hb, .inl (Nat.succ_pos room)⟩
      · have hset : 128 ≤ b.toNat := Nat.le_of_not_lt hb
        obtain ⟨k, hk⟩ | ⟨hlen, hall⟩ | ⟨hcontinued, b', hb', hbig⟩ := ih bs
        · exact .inl ⟨k + 1, endsAt_succ.2 ⟨hset, hk⟩⟩
        · exact .inr (.inl ⟨Nat.succ_le_succ hlen, List.forall_mem_cons.2 ⟨hset, hall⟩⟩)
        · exact .inr (.inr ⟨continued_succ.2 ⟨hset, hcontinued⟩, b', by simpa using hb', hbig⟩)

theorem drop_succ {buf bs : Bytes} {pos : Nat} {b : UInt8} (h : buf.drop pos = b :: bs) :
    buf.drop (pos + 1) = bs := by
  rw [← List.drop_drop, h]
  rfl

theorem groups_cons {room : Nat} {buf bs : Bytes} {pos : Nat} {b : UInt8}
    (h : buf.drop pos = b :: bs) (start : Nat) : groups start (room + 1) buf pos =
      if room = 0 ∧ 1 < b.toNat % 128 then .error (.lengthOverflow start)
      else if b.toNat < 128 then .ok (b.toNat, pos + 1)
      else
        match groups start room buf (pos + 1) with
        | .ok (n, next) => .ok (b.toNat % 128 + 128 * n, next)
        | .error f => .error f := by
  have hread : Reader.byte buf pos = .ok (b, pos + 1) := by
    rw [Reader.byte, ← List.head?_drop, h]
    rfl
  rw [groups, Reader.bind_of_ok hread]
  split
  · rfl
  · split
    · rfl
    · rw [Reader.bind_apply]
      cases groups start room buf (pos + 1) <;> rfl

theorem groups_more {room : Nat} {buf bs : Bytes} {pos : Nat} {b : UInt8}
    (h : buf.drop pos = b :: bs) (hset : 128 ≤ b.toNat) (start : Nat) :
    groups start (room + 2) buf pos =
      match groups start (room + 1) buf (pos + 1) with
      | .ok (n, next) => .ok (b.toNat % 128 + 128 * n, next)
      | .error f => .error f := by
  rw [groups_cons h, if_neg (fun hroom => nomatch hroom.1), if_neg (Nat.not_lt.2 hset)]

theorem EndsAt.groups {room k : Nat} {bs : Bytes} (h : EndsAt room bs k) (start : Nat)
    {buf : Bytes} {pos : Nat} (hbuf : buf.drop pos = bs) :
    groups start (room + 1) buf pos = .ok (total bs k, pos + k + 1) := by
  induction k generalizing room bs pos with
  | zero =>
    obtain ⟨b, hb, hlast, hroom⟩ := h.last
    obtain ⟨rest, rfl⟩ := List.head?_eq_some_iff.1 (List.head?_eq_getElem? ▸ hb)
    rw [groups_cons hbuf, if_neg (by omega), if_pos hlast, total_zero, Nat.mod_eq_of_lt hlast]
  | succ k ih =>
    cases bs with
    | nil =>
      obtain ⟨b, hb, -⟩ := h.last
      cases hb
    | cons b bs =>
      cases room with
      | zero => exact absurd h.le_room (Nat.not_succ_le_zero k)
      | succ room =>
        obtain ⟨hset, hrest⟩ := endsAt_succ.1 h
        rw [groups_more hbuf hset, ih hrest (drop_succ hbuf), total_succ,
          Nat.add_right_comm pos 1 k, Nat.add_assoc pos k 1]

theorem groups_underrun {room : Nat} {bs : Bytes} (hlen : bs.length ≤ room)
    (hset : ∀ b ∈ bs, 128 ≤ b.toNat) (start : Nat) {buf : Bytes} {pos : Nat}
    (hpos : pos ≤ buf.length) (hbuf : buf.drop pos = bs) :
    groups start (room + 1) buf pos = .error (.underrun buf.length 1 0) := by
  induction bs generalizing room pos with
  | nil =>
    obtain rfl : pos = buf.length := Nat.le_antisymm hpos (List.drop_eq_nil_iff.1 hbuf)
    have hread : Reader.byte buf buf.length = .error (.underrun buf.length 1 0) := by
      rw [Reader.byte, List.getElem?_eq_none (Nat.le_refl _), Nat.sub_self]
    rw [groups, Reader.bind_of_error hread]
  | cons b bs ih =>
    rw [List.forall_mem_cons] at hset
    cases room with
    | zero => exact absurd hlen (Nat.not_succ_le_zero _)
    | succ room =>
      have hlt : pos < buf.length := by
        have size := congrArg List.length hbuf
        rw [List.length_drop, List.length_cons] at size
        omega
      rw [groups_more hbuf hset.1,
        ih (Nat.le_of_succ_le_succ hlen) hset.2 hlt (drop_succ hbuf)]

theorem groups_overflow {room : Nat} {bs : Bytes} (h : Continued bs room) {b : UInt8}
    (hb : bs[room]? = some b) (hbig : 1 < b.toNat) (start : Nat) {buf : Bytes} {pos : Nat}
    (hbuf : buf.drop pos = bs) :
    groups start (room + 1) buf pos = .error (.lengthOverflow start) := by
  induction room generalizing bs pos with
  | zero =>
    obtain ⟨rest, rfl⟩ := List.head?_eq_some_iff.1 (List.head?_eq_getElem? ▸ hb)
    rw [groups_cons hbuf]
    split
    · rfl
    · rw [if_neg (by omega)]
      rfl
  | succ room ih =>
    cases bs with
    | nil => cases hb
    | cons b' bs =>
      obtain ⟨hset, hrest⟩ := continued_succ.1 h
      rw [groups_more hbuf hset, ih hrest (by simpa using hb) (drop_succ hbuf)]

def gather (shift : Nat) (word : UInt64) : Bytes → UInt64
  | [] => word
  | b :: bs => gather (shift + 7) (word ||| (b &&& 0x7f).toUInt64 <<< UInt64.ofNat shift) bs

theorem toNat_low (b : UInt8) : (b &&& 0x7f).toNat = b.toNat % 128 := by
  rw [UInt8.toNat_and]
  exact Nat.and_two_pow_sub_one_eq_mod b.toNat 7

theorem toNat_join {word : UInt64} {shift : Nat} (hword : word.toNat < 2 ^ shift)
    (hshift : shift < 64) {b : UInt8} (hfit : b.toNat % 128 * 2 ^ shift ≤ greatestWord) :
    (word ||| (b &&& 0x7f).toUInt64 <<< UInt64.ofNat shift).toNat =
      word.toNat + 2 ^ shift * (b.toNat % 128) := by
  have low : (UInt64.ofNat shift).toNat % 64 = shift := by
    rw [UInt64.toNat_ofNat']
    omega
  rw [greatestWord] at hfit
  rw [UInt64.toNat_or, UInt64.toNat_shiftLeft, UInt8.toNat_toUInt64, toNat_low, low,
    Nat.shiftLeft_eq, Nat.mod_eq_of_lt (by omega), Nat.or_comm, Nat.mul_comm,
    ← Nat.two_pow_add_eq_or_of_lt hword, Nat.add_comm]

theorem shifted_le {n shift room : Nat} (hn : n < 128) (hshift : shift + 7 * room = 63)
    (hroom : 0 < room ∨ n ≤ 1) : n * 2 ^ shift ≤ greatestWord := by
  obtain hroom | hsmall := hroom
  · have power : 2 ^ shift ≤ 2 ^ (56 : Nat) := Nat.pow_le_pow_right Nat.two_pos (by omega)
    exact Nat.le_trans (Nat.mul_le_mul (Nat.le_of_lt_succ hn) power) (by decide)
  · have power : 2 ^ shift ≤ 2 ^ (63 : Nat) := Nat.pow_le_pow_right Nat.two_pos (by omega)
    exact Nat.le_trans (Nat.mul_le_mul hsmall power) (by decide)

theorem EndsAt.gather {room k : Nat} {bs : Bytes} (h : EndsAt room bs k) {shift : Nat}
    (hshift : shift + 7 * room = 63) {word : UInt64} (hword : word.toNat < 2 ^ shift) :
    (gather shift word (bs.take (k + 1))).toNat = word.toNat + 2 ^ shift * total bs k := by
  induction k generalizing room bs shift word with
  | zero =>
    obtain ⟨b, hb, hlast, hroom⟩ := h.last
    obtain ⟨rest, rfl⟩ := List.head?_eq_some_iff.1 (List.head?_eq_getElem? ▸ hb)
    have hfit := shifted_le (Nat.mod_lt b.toNat (by decide)) hshift
      (hroom.imp_right fun hsmall => Nat.le_trans (Nat.mod_le _ _) hsmall)
    rw [List.take_succ_cons, List.take_zero, CountPrefix.gather, CountPrefix.gather, total_zero,
      toNat_join hword (by omega) hfit]
  | succ k ih =>
    cases bs with
    | nil =>
      obtain ⟨b, hb, -⟩ := h.last
      cases hb
    | cons b bs =>
      cases room with
      | zero => exact absurd h.le_room (Nat.not_succ_le_zero k)
      | succ room =>
        obtain ⟨hset, hrest⟩ := endsAt_succ.1 h
        have hlow := Nat.mod_lt b.toNat (y := 128) (by decide)
        have hfit := shifted_le hlow hshift (.inl (Nat.succ_pos room))
        have hjoin := toNat_join hword (by omega) hfit
        -- the word stays below the place of the byte to come, so joining that one is addition again
        have hnext : 2 ^ (shift + 7) = 2 ^ shift * 128 := Nat.pow_add 2 shift 7
        have hwider : word.toNat + 2 ^ shift * (b.toNat % 128) < 2 ^ (shift + 7) := by
          have top : 2 ^ shift * (b.toNat % 128) ≤ 2 ^ shift * 127 :=
            Nat.mul_le_mul_left _ (Nat.le_of_lt_succ hlow)
          omega
        rw [List.take_succ_cons, CountPrefix.gather, ih hrest (by omega) (hjoin ▸ hwider), hjoin,
          hnext, total_succ, Nat.mul_add, Nat.mul_assoc, Nat.add_assoc]

theorem read_of_endsAt {buf : Bytes} {pos k : Nat} (h : EndsAt 9 (buf.drop pos) k) :
    read buf pos = .ok (total (buf.drop pos) k, pos + k + 1) := h.groups pos rfl

theorem read_underrun {buf : Bytes} {pos : Nat} (hpos : pos ≤ buf.length)
    (hlen : buf.length - pos < 10) (hset : ∀ b ∈ buf.drop pos, 128 ≤ b.toNat) :
    read buf pos = .error (.underrun buf.length 1 0) :=
  groups_underrun (List.length_drop ▸ Nat.le_of_lt_succ hlen) hset pos hpos rfl

theorem read_overflow {buf : Bytes} {pos : Nat} (h : Continued (buf.drop pos) 9) {b : UInt8}
    (hb : (buf.drop pos)[9]? = some b) (hbig : 1 < b.toNat) :
    read buf pos = .error (.lengthOverflow pos) := groups_overflow h hb hbig pos rfl

theorem read_cases {buf : Bytes} {pos : Nat} (hpos : pos ≤ buf.length) :
    (∃ k, EndsAt 9 (buf.drop pos) k ∧
      read buf pos = .ok (total (buf.drop pos) k, pos + k + 1)) ∨
    ((buf.length - pos < 10 ∧ ∀ b ∈ buf.drop pos, 128 ≤ b.toNat) ∧
      read buf pos = .error (.underrun buf.length 1 0)) ∨
    ((Continued (buf.drop pos) 9 ∧ ∃ b, (buf.drop pos)[9]? = some b ∧ 1 < b.toNat) ∧
      read buf pos = .error (.lengthOverflow pos)) := by
  obtain ⟨k, hk⟩ | ⟨hlen, hset⟩ | ⟨hcontinued, b, hb, hbig⟩ := endsAt_or 9 (buf.drop pos)
  · exact .inl ⟨k, hk, read_of_endsAt hk⟩
  · rw [List.length_drop] at hlen
    have few := Nat.lt_succ_of_le hlen
    exact .inr (.inl ⟨⟨few, hset⟩, read_underrun hpos few hset⟩)
  · exact .inr (.inr ⟨⟨hcontinued, b, hb, hbig⟩, read_overflow hcontinued hb hbig⟩)

theorem read_ok_iff {buf : Bytes} {pos : Nat} (hpos : pos ≤ buf.length) {n next : Nat} :
    read buf pos = .ok (n, next) ↔ ∃ k, EndsAt 9 (buf.drop pos) k ∧
      n = total (buf.drop pos) k ∧ next = pos + k + 1 := by
  constructor
  · intro h
    obtain ⟨k, hk, hread⟩ | ⟨-, hread⟩ | ⟨-, hread⟩ := read_cases hpos
    · cases hread.symm.trans h
      exact ⟨k, hk, rfl, rfl⟩
    · cases hread.symm.trans h
    · cases hread.symm.trans h
  · rintro ⟨k, hk, rfl, rfl⟩
    exact read_of_endsAt hk

theorem read_error_iff {buf : Bytes} {pos : Nat} (hpos : pos ≤ buf.length) {f : Fault} :
    read buf pos = .error f ↔
      (f = .underrun buf.length 1 0 ∧ buf.length - pos < 10 ∧ ∀ b ∈ buf.drop pos, 128 ≤ b.toNat) ∨
      (f = .lengthOverflow pos ∧ Continued (buf.drop pos) 9 ∧
        ∃ b, (buf.drop pos)[9]? = some b ∧ 1 < b.toNat) := by
  constructor
  · intro h
    obtain ⟨k, -, hread⟩ | ⟨hfew, hread⟩ | ⟨hmany, hread⟩ := read_cases hpos
    · cases hread.symm.trans h
    · cases hread.symm.trans h
      exact .inl ⟨rfl, hfew⟩
    · cases hread.symm.trans h
      exact .inr ⟨rfl, hmany⟩
  · rintro (⟨rfl, hlen, hset⟩ | ⟨rfl, hcontinued, b, hb, hbig⟩)
    · exact read_underrun hpos hlen hset
    · exact read_overflow hcontinued hb hbig

theorem total_in_word {buf : Bytes} {pos k : Nat} (h : EndsAt 9 (buf.drop pos) k) :
    total (buf.drop pos) k ≤ greatestWord ∧
      (gather 0 0 ((buf.drop pos).take (k + 1))).toNat = total (buf.drop pos) k := by
  constructor
  · obtain ⟨bs, rest, -, -, hspells⟩ := read_reads.sound (read_of_endsAt h)
    exact hspells.le
  · rw [h.gather rfl (show (0 : UInt64).toNat < 2 ^ 0 by decide)]
    simp

theorem eq_or_longer_of_read {out bs rest : Bytes} {n : Nat}
    (h : read (out ++ bs ++ rest) out.length = .ok (n, out.length + bs.length)) :
    bs = toBytes n ∨ (toBytes n).length < bs.length := by
  obtain ⟨bs', rest', hbuf, hnext, hspells⟩ := read_reads.sound h
  rw [List.append_assoc, List.drop_left] at hbuf
  obtain ⟨rfl, -⟩ := List.append_inj hbuf (Nat.add_left_cancel hnext)
  exact hspells.groups.eq_or_longer

/-- Which bytes are read as a count, and as which; how reading fails on all others; and that what is
written for a count is read as it and is the shortest of what is. -/
theorem reading_count {buf : Bytes} {pos : Nat} (hpos : pos ≤ buf.length) {n : Nat}
    (hn : n ≤ greatestWord) :
    (∀ m next, read buf pos = .ok (m, next) ↔ ∃ k, EndsAt 9 (buf.drop pos) k ∧
      m = total (buf.drop pos) k ∧ next = pos + k + 1) ∧
    (∀ k, EndsAt 9 (buf.drop pos) k → total (buf.drop pos) k ≤ greatestWord ∧
      (gather 0 0 ((buf.drop pos).take (k + 1))).toNat = total (buf.drop pos) k) ∧
    (∀ f, read buf pos = .error f ↔
      (f = .underrun buf.length 1 0 ∧ buf.length - pos < 10 ∧ ∀ b ∈ buf.drop pos, 128 ≤ b.toNat) ∨
      (f = .lengthOverflow pos ∧ Continued (buf.drop pos) 9 ∧
        ∃ b, (buf.drop pos)[9]? = some b ∧ 1 < b.toNat)) ∧
    ∃ bs, ∀ out rest, write n out = (.ok (), out ++ bs) ∧
      read (out ++ bs ++ rest) out.length = .ok (n, out.length + bs.length) ∧
      ∀ bs', bs' ≠ bs → read (out ++ bs' ++ rest) out.length = .ok (n, out.length + bs'.length) →
        bs.length < bs'.length := by
  refine ⟨fun m next => read_ok_iff hpos, fun k hk => total_in_word hk,
    fun f => read_error_iff hpos, toBytes n, fun out rest => ⟨rfl, ?_, fun bs' hne h => ?_⟩⟩
  · exact read_reads.complete (spells_toBytes hn) out rest
  · exact (eq_or_longer_of_read h).resolve_left hne

theorem reading_count_tenth_byte :
    let buf : Bytes := [7, 0xff, 0xff, 0xff, 0xff, 0xff, 0xff, 0xff, 0xff, 0xff, 0x01, 9]
    let beyond : Bytes := [0x80, 0x80, 0x80, 0x80, 0x80, 0x80, 0x80, 0x80, 0x80, 0x81]
    (1 ≤ buf.length ∧ EndsAt 9 (buf.drop 1) 9 ∧ total (buf.drop 1) 9 = greatestWord) ∧
      0 ≤ beyond.length ∧ Continued beyond 9 ∧ ∃ b, beyond[9]? = some b ∧ 1 < b.toNat := by
  intro buf beyond
  have word := Nat.le_refl greatestWord
  have hbuf : 1 ≤ buf.length := by decide
  have hover : 0 ≤ beyond.length := Nat.zero_le _
  obtain ⟨k, hk, htotal, hnext⟩ := ((reading_count hbuf word).1 greatestWord 11).1 rfl
  obtain rfl : k = 9 := by omega
  obtain ⟨h, -⟩ | ⟨-, overflow⟩ := ((reading_count hover word).2.2.1 (.lengthOverflow 0)).1 rfl
  · cases h
  · exact ⟨⟨hbuf, hk, htotal.symm⟩, hover, overflow⟩

end TypedColumn.CountPrefix
