import TypedColumn.Proofs.Words.Reader

namespace TypedColumn.WordReader

def groups (mode : Overflow) (start : UInt64) : (room i : Nat) → UInt64 → WordReader UInt64
  | 0, _, _ => fail (.lengthOverflow start.toNat)
  | room + 1, i, word => do
    let b ← peekByte (← lift (mode.add start (UInt64.ofNat i)))
    let bits := (b &&& 0x7f).toUInt64
    let shift ← lift (mode.mul 7 (UInt64.ofNat i))
    if i = 9 ∧ 1 < bits then fail (.lengthOverflow start.toNat)
    else
      let word := word ||| (← lift (mode.shiftLeft bits shift))
      if b &&& 0x80 = 0 then
        let last ← lift (mode.add start (UInt64.ofNat i))
        moveTo (← lift (mode.add last 1))
        return word
      else groups mode start room (i + 1) word

def readCount (mode : Overflow) : WordReader UInt64 := do
  groups mode (← position) 10 0 0

theorem top_eq_zero_iff (b : UInt8) : b &&& 0x80 = 0 ↔ b.toNat < 128 := by
  have top : ∀ n < 256, (n &&& 0x80 = 0 ↔ n < 128) := by decide +kernel
  rw [← UInt8.toNat_inj, UInt8.toNat_and]
  exact top b.toNat b.toNat_lt

theorem one_lt_bits_iff (b : UInt8) : 1 < (b &&& 0x7f).toUInt64 ↔ 1 < b.toNat % 128 := by
  rw [UInt64.lt_iff_toNat_lt, UInt8.toNat_toUInt64, CountPrefix.toNat_low]
  rfl

def join (word : UInt64) (i : Nat) (b : UInt8) : UInt64 :=
  word ||| (b &&& 0x7f).toUInt64 <<< UInt64.ofNat (7 * i)

theorem place_exact (mode : Overflow) {i : Nat} (hi : i < 10) :
    mode.mul 7 (UInt64.ofNat i) = .ok (UInt64.ofNat (7 * i)) ∧
      (UInt64.ofNat (7 * i)).toNat = 7 * i := by
  have small {n : Nat} (hn : n < 64) : (UInt64.ofNat n).toNat = n :=
    Overflow.toNat_ofNat (Nat.le_trans (Nat.le_of_lt hn) (by decide))
  have seven : (7 : UInt64).toNat = 7 := rfl
  have hproduct : (7 : UInt64).toNat * (UInt64.ofNat i).toNat = 7 * i := by
    rw [seven, small (by omega)]
  obtain ⟨place, hmul, hplace⟩ := mode.mul_exact (x := 7) (y := UInt64.ofNat i)
    (hproduct ▸ Nat.le_trans (show 7 * i ≤ 63 by omega) (by decide))
  have hseven : (UInt64.ofNat (7 * i)).toNat = 7 * i := small (by omega)
  rw [hproduct, ← hseven] at hplace
  exact ⟨UInt64.toNat_inj.1 hplace ▸ hmul, hseven⟩

section Join

variable {room i : Nat} {word : UInt64} {b : UInt8} (hroom : room + 1 + i = 10)
  (hb : ¬(room = 0 ∧ 1 < b.toNat % 128))
include hroom hb

theorem bits_le : b.toNat % 128 * 2 ^ (7 * i) ≤ greatestWord := by
  -- all seven bits of the first nine groups are in the word, and of the tenth one the only bit that
  -- it may have
  have low : b.toNat % 128 < 128 := Nat.mod_lt _ (by decide)
  have hsum : 7 * i + 7 * room = 63 := by omega
  exact CountPrefix.shifted_le low hsum (by omega)

theorem shift_exact (mode : Overflow) :
    mode.shiftLeft (b &&& 0x7f).toUInt64 (UInt64.ofNat (7 * i)) =
      .ok ((b &&& 0x7f).toUInt64 <<< UInt64.ofNat (7 * i)) := by
  have hplace := (place_exact mode (i := i) (by omega)).2
  apply mode.shiftLeft_exact
  · omega
  · rw [hplace, UInt8.toNat_toUInt64, CountPrefix.toNat_low]
    exact bits_le hroom hb

variable (hword : word.toNat < 2 ^ (7 * i))
include hword

theorem toNat_join :
    (join word i b).toNat = word.toNat + 2 ^ (7 * i) * (b.toNat % 128) :=
  CountPrefix.toNat_join hword (by omega) (bits_le hroom hb)

theorem join_lt : (join word i b).toNat < 2 ^ (7 * (i + 1)) := by
  have top : 2 ^ (7 * i) * (b.toNat % 128) ≤ 2 ^ (7 * i) * 127 :=
    Nat.mul_le_mul_left _ (Nat.le_of_lt_succ (Nat.mod_lt _ (by decide)))
  have power : 2 ^ (7 * (i + 1)) = 2 ^ (7 * i) * 128 := Nat.pow_add 2 (7 * i) 7
  rw [toNat_join hroom hb hword]
  omega

end Join

section Sized

variable {buf : Bytes} (hbuf : buf.length ≤ greatestWord) (mode : Overflow)

theorem groups_of_none {start : UInt64} {i : Nat} (hstart : start.toNat + i ≤ greatestWord)
    (hget : buf[start.toNat + i]? = none) (room : Nat) (word pos : UInt64) :
    groups mode start (room + 1) i word buf pos = .error (.fault
      (.underrun (start.toNat + i) 1 (buf.length - (start.toNat + i)))) := by
  have hi : (UInt64.ofNat i).toNat = i :=
    Overflow.toNat_ofNat (Nat.le_trans (Nat.le_add_left _ _) hstart)
  obtain ⟨here, hadd, hhere⟩ :=
    mode.add_exact (x := start) (y := UInt64.ofNat i) (hi.symm ▸ hstart)
  rw [hi] at hhere
  rw [← hhere] at hget ⊢
  rw [groups, lift_ok_bind hadd, bind_of_error (peekByte_outside hget pos)]

include hbuf

theorem groups_of_some {start : UInt64} {room i : Nat} (hroom : room + 1 + i = 10) {b : UInt8}
    (hget : buf[start.toNat + i]? = some b) (word pos : UInt64) :
    ∃ next : UInt64, next.toNat = start.toNat + i + 1 ∧
      groups mode start (room + 1) i word buf pos =
        if room = 0 ∧ 1 < b.toNat % 128 then .error (.fault (.lengthOverflow start.toNat))
        else if b.toNat < 128 then .ok (join word i b, next)
        else groups mode start room (i + 1) (join word i b) buf pos := by
  obtain ⟨hlt, -⟩ := List.getElem?_eq_some_iff.1 hget
  -- the byte is in the buffer, so that the place after it is a word
  have hnext : start.toNat + i + 1 ≤ greatestWord := Nat.le_trans hlt hbuf
  have hi : (UInt64.ofNat i).toNat = i := Overflow.toNat_ofNat (by omega)
  obtain ⟨here, hadd, hhere⟩ := mode.add_exact (x := start) (y := UInt64.ofNat i) (by omega)
  rw [hi] at hhere
  rw [← hhere] at hget hnext ⊢
  obtain ⟨next, hadd', hto⟩ := mode.add_exact (x := here) (y := 1) hnext
  refine ⟨next, hto, ?_⟩
  rw [groups, lift_ok_bind hadd, bind_of_ok (peekByte_inside hbuf hget pos),
    lift_ok_bind (place_exact mode (by omega)).1]
  have hover : (i = 9 ∧ 1 < (b &&& 0x7f).toUInt64) ↔ room = 0 ∧ 1 < b.toNat % 128 :=
    and_congr (by omega) (one_lt_bits_iff b)
  by_cases hb : room = 0 ∧ 1 < b.toNat % 128
  · rw [if_pos hb, if_pos (hover.2 hb)]
    rfl
  · rw [if_neg hb, if_neg (mt hover.1 hb), lift_ok_bind (shift_exact hroom hb mode)]
    by_cases hlast : b.toNat < 128
    · rw [if_pos hlast, if_pos ((top_eq_zero_iff b).2 hlast), lift_ok_bind hadd,
        lift_ok_bind hadd']
      rfl
    · rw [if_neg hlast, if_neg (mt (top_eq_zero_iff b).1 hlast)]
      rfl

theorem groups_matches {start word : UInt64} {room i : Nat} (hroom : room + i = 10)
    (hstart : start.toNat + i ≤ greatestWord) (hword : word.toNat < 2 ^ (7 * i)) (pos : UInt64) :
    Matches (fun w n => w.toNat = word.toNat + 2 ^ (7 * i) * n)
      (groups mode start room i word buf pos)
      (CountPrefix.groups start.toNat room buf (start.toNat + i)) := by
  induction room generalizing i word with
  | zero => exact .fault _
  | succ room ih =>
    cases hget : buf[start.toNat + i]? with
    | none =>
      have hbyte : Reader.byte buf (start.toNat + i) =
          .error (.underrun (start.toNat + i) 1 (buf.length - (start.toNat + i))) := by
        rw [Reader.byte, hget]
      rw [groups_of_none mode hstart hget, CountPrefix.groups, Reader.bind_of_error hbyte]
      exact .fault _
    | some b =>
      obtain ⟨hlt, rfl⟩ := List.getElem?_eq_some_iff.1 hget
      obtain ⟨next, hnext, hgroups⟩ := groups_of_some hbuf mode hroom hget word pos
      rw [hgroups, CountPrefix.groups_cons (List.drop_eq_getElem_cons hlt)]
      generalize buf[start.toNat + i] = b
      by_cases hb : room = 0 ∧ 1 < b.toNat % 128
      · rw [if_pos hb, if_pos hb]
        exact .fault _
      rw [if_neg hb, if_neg hb]
      have hjoin := toNat_join hroom hb hword
      by_cases hlast : b.toNat < 128
      · rw [if_pos hlast, if_pos hlast]
        refine Matches.ok_of_eq rfl hnext ?_
        rw [hjoin, Nat.mod_eq_of_lt hlast]
      · rw [if_neg hlast, if_neg hlast]
        have rest := ih (by omega) (Nat.le_trans hlt hbuf) (join_lt hroom hb hword)
        rw [← Nat.add_assoc] at rest
        generalize groups mode start room (i + 1) (join word i b) buf pos = x,
          CountPrefix.groups start.toNat room buf (start.toNat + i + 1) = y at rest ⊢
        cases rest with
        | fault f => exact .fault f
        | ok next hn =>
          refine .ok next ?_
          have power : 2 ^ (7 * (i + 1)) = 2 ^ (7 * i) * 128 := Nat.pow_add 2 (7 * i) 7
          rw [hn, hjoin, power, Nat.mul_add, Nat.mul_assoc, Nat.add_assoc]

theorem readCount_follows : Follows Stands buf (readCount mode) CountPrefix.read := by
  intro pos
  have hword : (0 : UInt64).toNat < 2 ^ (7 * 0) := by decide
  have hten : 10 + 0 = 10 := rfl
  refine (groups_matches hbuf mode hten (Nat.le_of_lt_succ pos.toNat_lt) hword pos).imp ?_
  intro w n h
  rw [Stands, h]
  simp

end Sized

end TypedColumn.WordReader
