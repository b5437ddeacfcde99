import TypedColumn.CountPrefix
import TypedColumn.Proofs.Grammar

namespace TypedColumn.CountPrefix

inductive Groups : Bytes → Nat → Prop
  | last {b : UInt8} : b.toNat < 128 → Groups [b] b.toNat
  | more {b : UInt8} {bs : Bytes} {n : Nat} :
      128 ≤ b.toNat → Groups bs n → Groups (b :: bs) (b.toNat % 128 + 128 * n)

structure Spells (bs : Bytes) (n : Nat) : Prop where
  groups : Groups bs n
  length_le : bs.length ≤ 10
  le : n ≤ greatestWord

theorem Groups.length_pos {bs : Bytes} {n : Nat} (h : Groups bs n) : 0 < bs.length := by
  cases h with
  | last => exact Nat.one_pos
  | more => exact Nat.succ_pos _

theorem groups_reads (start room : Nat) : (groups start (room + 1)).Reads fun bs n =>
    Groups bs n ∧ bs.length ≤ room + 1 ∧ n < 2 * 128 ^ room := by
  -- on the groups that may come after the first one; the last of them has room for one bit
  induction room with
  | zero =>
    have rest (b : UInt8) : (if 1 < b.toNat % 128 then Reader.fail (.lengthOverflow start)
        else if b.toNat < 128 then return b.toNat
        else return b.toNat % 128 + 128 * (← groups start 0)).Reads
          fun bs n => b.toNat ≤ 1 ∧ bs = [] ∧ n = b.toNat := by
      split
      · apply (Reader.Reads.fail _).congr
        intro bs n
        exact ⟨False.elim, fun h => by omega⟩
      · split
        · apply (Reader.Reads.pure _).congr
          intro bs n
          exact ⟨fun h => ⟨by omega, h⟩, fun h => h.2⟩
        · apply (Reader.Reads.fail (.lengthOverflow start)).congr
          intro bs n
          exact ⟨False.elim, fun h => by omega⟩
    rw [groups]
    simp only [true_and]
    apply (Reader.Reads.byte.bind rest).congr
    intro bs n
    constructor
    · rintro ⟨bs₁, bs₂, b, rfl, rfl, hb, rfl, rfl⟩
      exact ⟨.last (by omega), Nat.le_refl 1, by omega⟩
    · rintro ⟨hg, hlen, hn⟩
      cases hg with
      | @last b hb => exact ⟨[b], [], b, rfl, rfl, by omega, rfl, rfl⟩
      | more hb hg =>
        have size := hg.length_pos
        rw [List.length_cons] at hlen
        omega
  | succ room ih =>
    have rest (b : UInt8) : (if b.toNat < 128 then return b.toNat
        else return b.toNat % 128 + 128 * (← groups start (room + 1)) : Reader Nat).Reads
          fun bs n => (b.toNat < 128 ∧ bs = [] ∧ n = b.toNat) ∨ (128 ≤ b.toNat ∧
            ∃ m, (Groups bs m ∧ bs.length ≤ room + 1 ∧ m < 2 * 128 ^ room) ∧
              n = b.toNat % 128 + 128 * m) := by
      split
      · rename_i hb
        apply (Reader.Reads.pure _).congr
        intro bs n
        exact ⟨fun h => .inl ⟨hb, h⟩, fun h => h.elim And.right fun h => by omega⟩
      · rename_i hb
        apply (ih.map _).congr
        intro bs n
        exact ⟨fun h => .inr ⟨by omega, h⟩, fun h => h.elim (fun h => by omega) And.right⟩
    have bound : 2 * 128 ^ (room + 1) = 128 * (2 * 128 ^ room) := by
      rw [Nat.pow_succ]
      omega
    have positive : 0 < 128 ^ room := Nat.pow_pos (by decide)
    rw [groups]
    simp only [Nat.succ_ne_zero, false_and, if_false]
    apply (Reader.Reads.byte.bind rest).congr
    intro bs n
    constructor
    · rintro ⟨bs₁, bs₂, b, rfl, rfl, ⟨hb, rfl, rfl⟩ | ⟨hb, m, ⟨hg, hlen, hm⟩, rfl⟩⟩
      · exact ⟨.last hb, Nat.le_add_left 1 _, by omega⟩
      · exact ⟨.more hb hg, Nat.succ_le_succ hlen, by omega⟩
    · rintro ⟨hg, hlen, hn⟩
      cases hg with
      | @last b hb => exact ⟨[b], [], b, rfl, rfl, .inl ⟨hb, rfl, rfl⟩⟩
      | @more b bs m hb hg =>
        refine ⟨[b], bs, b, rfl, rfl, .inr ⟨hb, m, ⟨hg, Nat.le_of_succ_le_succ hlen, ?_⟩, rfl⟩⟩
        omega

theorem read_reads : read.Reads Spells where
  sound {buf pos next n} hr := by
    obtain ⟨bs, rest, hbuf, hnext, hg, hlen, hn⟩ := (groups_reads pos 9).sound hr
    exact ⟨bs, rest, hbuf, hnext, hg, hlen, Nat.le_of_lt_succ hn⟩
  complete h out rest :=
    (groups_reads out.length 9).complete ⟨h.groups, h.length_le, Nat.lt_succ_of_le h.le⟩ out rest

theorem toBytes_groups (n : Nat) : Groups (toBytes n) n := by
  fun_induction toBytes n with
  | case1 n h =>
    have low : (UInt8.ofNat n).toNat = n := by
      rw [UInt8.toNat_ofNat']
      omega
    have only := Groups.last (b := UInt8.ofNat n) (by omega)
    rwa [low] at only
  | case2 n h ih =>
    have low : (UInt8.ofNat (n % 128 + 128)).toNat = n % 128 + 128 := by
      rw [UInt8.toNat_ofNat']
      omega
    have first := Groups.more (b := UInt8.ofNat (n % 128 + 128)) (by omega) ih
    rw [low] at first
    rwa [show (n % 128 + 128) % 128 + 128 * (n / 128) = n by omega] at first

theorem Groups.eq_or_longer {bs : Bytes} {n : Nat} (h : Groups bs n) :
    bs = toBytes n ∨ (toBytes n).length < bs.length := by
  induction h with
  | @last b hb =>
    left
    rw [toBytes, if_pos hb, UInt8.ofNat_toNat]
  | @more b bs n hb hbs ih =>
    by_cases hn : n = 0
    · right
      have size := hbs.length_pos
      rw [hn, toBytes, if_pos (by omega), List.length_singleton, List.length_cons]
      omega
    · have big : ¬ b.toNat % 128 + 128 * n < 128 := by omega
      have low : UInt8.ofNat ((b.toNat % 128 + 128 * n) % 128 + 128) = b := by
        have hb' := b.toNat_lt
        apply UInt8.toNat_inj.1
        rw [UInt8.toNat_ofNat']
        omega
      have high : (b.toNat % 128 + 128 * n) / 128 = n := by omega
      rw [toBytes, if_neg big, low, high]
      rcases ih with rfl | longer
      · exact .inl rfl
      · exact .inr (Nat.succ_lt_succ longer)

theorem length_toBytes_le_of_lt {n k : Nat} (h : n < 128 ^ (k + 1)) :
    (toBytes n).length ≤ k + 1 := by
  induction k generalizing n with
  | zero =>
    rw [toBytes, if_pos (by omega)]
    exact Nat.le_refl 1
  | succ k ih =>
    rw [toBytes]
    split
    · exact Nat.le_add_left 1 _
    · have high : n / 128 < 128 ^ (k + 1) := by
        rw [Nat.div_lt_iff_lt_mul (by decide), ← Nat.pow_succ]
        exact h
      exact Nat.succ_le_succ (ih high)

theorem length_toBytes_mono {m n : Nat} (h : m ≤ n) : (toBytes m).length ≤ (toBytes n).length := by
  fun_induction toBytes n generalizing m with
  | case1 n hn =>
    rw [toBytes, if_pos (by omega)]
    exact Nat.le_refl 1
  | case2 n hn ih =>
    rw [toBytes]
    split
    · exact Nat.le_add_left 1 _
    · exact Nat.succ_le_succ (ih (Nat.div_le_div_right h))

theorem spells_toBytes {n : Nat} (h : n ≤ greatestWord) : Spells (toBytes n) n where
  groups := toBytes_groups n
  length_le := by
    apply length_toBytes_le_of_lt (k := 9)
    rw [greatestWord] at h
    omega
  le := h

theorem Spells.length_toBytes_le {bs : Bytes} {n : Nat} (h : Spells bs n) :
    (toBytes n).length ≤ bs.length := by
  rcases h.groups.eq_or_longer with rfl | longer
  · exact Nat.le_refl _
  · exact Nat.le_of_lt longer

structure Shortest (bs : Bytes) (n : Nat) : Prop where
  spells : Spells bs n
  length_le_of_spells : ∀ bs', Spells bs' n → bs.length ≤ bs'.length

theorem shortest_iff {bs : Bytes} {n : Nat} : Shortest bs n ↔ bs = toBytes n ∧ n ≤ greatestWord := by
  constructor
  · intro h
    rcases h.spells.groups.eq_or_longer with heq | longer
    · exact ⟨heq, h.spells.le⟩
    · have shorter := h.length_le_of_spells _ (spells_toBytes h.spells.le)
      omega
  · rintro ⟨rfl, hn⟩
    exact ⟨spells_toBytes hn, fun bs' h => h.length_toBytes_le⟩

end TypedColumn.CountPrefix
