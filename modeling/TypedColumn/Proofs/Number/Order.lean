import TypedColumn.Number.Order
import TypedColumn.Proofs.Number.Magnitude
import TypedColumn.Proofs.Sameness.Keys

namespace TypedColumn.Precision

variable {p : Precision} {x y : p.Bits} {xs ys : List p.Bits}

/-- The total order as the standard of floats words it. Numbers go by their values, and of both
zeros the negative one is first. What is not a number lies outside of all numbers, on the side of
its sign, and the greater its fraction the farther out. -/
inductive Precedes : p.Bits → p.Bits → Prop
  | less {x y : p.Bits} : isNaN x = false → isNaN y = false → value x < value y → Precedes x y
  | equal {x y : p.Bits} : isNaN x = false → isNaN y = false → value x = value y →
      (negative y → negative x) → Precedes x y
  | below {x y : p.Bits} : isNaN x → negative x → isNaN y = false → Precedes x y
  | above {x y : p.Bits} : isNaN x = false → isNaN y → negative y = false → Precedes x y
  | apart {x y : p.Bits} : isNaN x → isNaN y → negative x → negative y = false → Precedes x y
  | inward {x y : p.Bits} : isNaN x → isNaN y → negative x → negative y →
      fraction y ≤ fraction x → Precedes x y
  | outward {x y : p.Bits} : isNaN x → isNaN y → negative x = false → negative y = false →
      fraction x ≤ fraction y → Precedes x y

abbrev Ascending (xs : List p.Bits) : Prop := xs.Pairwise fun x y => (order x y).isLE

section Rank

theorem rank_of_set (h : negative x) : rank x = p.signBit - 1 - unsigned x := by
  rw [rank, ← negative, if_pos h, two_pow_bytes_eq, toNat_of_set h]
  omega

theorem rank_of_clear (h : negative x = false) : rank x = 2 * p.signBit + unsigned x := by
  rw [rank, ← negative, if_neg (Bool.eq_false_iff.1 h), two_pow_bytes_eq, toNat_of_clear h]

theorem rank_lt_of_signs (hx : negative x) (hy : negative y = false) : rank x < rank y := by
  have bound := unsigned_lt x
  rw [rank_of_set hx, rank_of_clear hy]
  omega

theorem rank_lt_iff_of_set (hx : negative x) (hy : negative y) :
    rank x < rank y ↔ unsigned y < unsigned x := by
  have bound := unsigned_lt x
  rw [rank_of_set hx, rank_of_set hy]
  omega

theorem rank_lt_iff_of_clear (hx : negative x = false) (hy : negative y = false) :
    rank x < rank y ↔ unsigned x < unsigned y := by
  rw [rank_of_clear hx, rank_of_clear hy]
  exact Nat.add_lt_add_iff_left

theorem rank_inj : rank x = rank y ↔ x = y := by
  refine ⟨fun h => ?_, congrArg rank⟩
  have hx := x.isLt
  have hy := y.isLt
  rw [rank, rank] at h
  apply BitVec.eq_of_toNat_eq
  split at h <;> split at h <;> omega

end Rank

section Order

theorem isLE_order : (order x y).isLE ↔ rank x ≤ rank y := Nat.isLE_compare

instance : Std.TransCmp (@order p) := inferInstanceAs (Std.TransCmp (compareOn rank))

instance : Std.LawfulEqCmp (@order p) where
  compare_self := Std.ReflCmp.compare_self
  eq_of_compare h := rank_inj.1 (Nat.compare_eq_eq.1 h)

theorem isLE_order_total (x y : p.Bits) : (order x y).isLE ∨ (order y x).isLE := by
  rw [isLE_order, isLE_order]
  exact Nat.le_total _ _

theorem eq_of_isLE_order (hxy : (order x y).isLE) (hyx : (order y x).isLE) : x = y :=
  Std.LawfulEqCmp.eq_of_compare (Std.OrientedCmp.isLE_antisymm hxy hyx)

theorem order_of_signs (hx : negative x) (hy : negative y = false) : order x y = .lt :=
  Nat.compare_eq_lt.2 (rank_lt_of_signs hx hy)

theorem order_of_clear (hx : negative x = false) (hy : negative y = false) :
    order x y = compare x.toNat y.toNat := by
  simp only [order, Nat.compare_eq_ite_lt, rank_lt_iff_of_clear hx hy, rank_lt_iff_of_clear hy hx,
    toNat_of_clear hx, toNat_of_clear hy]

theorem order_of_set (hx : negative x) (hy : negative y) :
    order x y = compare y.toNat x.toNat := by
  simp only [order, Nat.compare_eq_ite_lt, rank_lt_iff_of_set hx hy, rank_lt_iff_of_set hy hx,
    toNat_of_set hx, toNat_of_set hy, Nat.add_lt_add_iff_left]

theorem same_iff_order_eq :
    (Value.number (.float p x)).same (.number (.float p y)) ↔ order x y = .eq := by
  rw [Value.same_float, Std.LawfulEqCmp.compare_eq_iff_eq]

end Order

section Sorting

theorem sort_perm (xs : List p.Bits) : (sort xs).Perm xs := List.mergeSort_perm _ _

theorem ascending_sort (xs : List p.Bits) : Ascending (sort xs) := by
  have trans (x y z : p.Bits) (hxy : decide (rank x ≤ rank y)) (hyz : decide (rank y ≤ rank z)) :
      decide (rank x ≤ rank z) :=
    decide_eq_true (Nat.le_trans (of_decide_eq_true hxy) (of_decide_eq_true hyz))
  have total (x y : p.Bits) : decide (rank x ≤ rank y) || decide (rank y ≤ rank x) := by
    rw [← Bool.decide_or]
    exact decide_eq_true (Nat.le_total _ _)
  refine (List.pairwise_mergeSort trans total xs).imp fun {x y} h => ?_
  exact isLE_order.2 (of_decide_eq_true h)

theorem eq_sort (hperm : xs.Perm ys) (hasc : Ascending xs) : xs = sort ys :=
  List.Perm.eq_of_pairwise (fun _ _ _ _ => eq_of_isLE_order) hasc (ascending_sort ys)
    (hperm.trans (sort_perm ys).symm)

theorem sort_congr (h : xs.Perm ys) : sort xs = sort ys :=
  eq_sort ((sort_perm xs).trans h) (ascending_sort xs)

end Sorting

section Precedes

theorem rank_le_of_value_le (hx : isNaN x = false) (hy : isNaN y = false)
    (signs : negative y → negative x) (h : value x ≤ value y) : rank x ≤ rank y := by
  cases sy : negative y with
  | true =>
    have sx := signs sy
    rw [← Nat.not_lt, rank_lt_iff_of_set sy sx]
    exact fun farther => h.not_gt (value_lt_of_set sy sx hy farther)
  | false =>
    cases sx : negative x with
    | true => exact (rank_lt_of_signs sx sy).le
    | false =>
      rw [← Nat.not_lt, rank_lt_iff_of_clear sy sx]
      exact fun farther => h.not_gt (value_lt_of_clear sy sx hx farther)

theorem Precedes.rank_le (h : Precedes x y) : rank x ≤ rank y := by
  cases h with
  | less hx hy h =>
    -- The signs cannot go against the values: what is negative is at most what is not.
    refine rank_le_of_value_le hx hy (fun sy => ?_) h.le
    by_contra sx
    exact h.not_ge (value_le_of_signs sy (Bool.eq_false_iff.2 sx))
  | equal hx hy h signs => exact rank_le_of_value_le hx hy signs h.le
  | below hx sx hy =>
    cases sy : negative y with
    | true => exact ((rank_lt_iff_of_set sx sy).2 (unsigned_lt_of_isNaN hy hx)).le
    | false => exact (rank_lt_of_signs sx sy).le
  | above hx hy sy =>
    cases sx : negative x with
    | true => exact (rank_lt_of_signs sx sy).le
    | false => exact ((rank_lt_iff_of_clear sx sy).2 (unsigned_lt_of_isNaN hx hy)).le
  | apart hx hy sx sy => exact (rank_lt_of_signs sx sy).le
  | inward hx hy sx sy h =>
    rw [← Nat.not_lt, rank_lt_iff_of_set sy sx, unsigned_of_isNaN hx, unsigned_of_isNaN hy]
    omega
  | outward hx hy sx sy h =>
    rw [← Nat.not_lt, rank_lt_iff_of_clear sy sx, unsigned_of_isNaN hx, unsigned_of_isNaN hy]
    omega

theorem precedes_total_of_numbers (hx : isNaN x = false) (hy : isNaN y = false) :
    Precedes x y ∨ Precedes y x := by
  rcases lt_trichotomy (value x) (value y) with h | h | h
  · exact .inl (.less hx hy h)
  · cases sx : negative x with
    | true => exact .inl (.equal hx hy h fun _ => sx)
    | false => exact .inr (.equal hy hx h.symm fun sx' => absurd (sx.symm.trans sx') nofun)
  · exact .inr (.less hy hx h)

theorem precedes_total_of_isNaN (hx : isNaN x) (hy : isNaN y) : Precedes x y ∨ Precedes y x := by
  cases sx : negative x with
  | true =>
    cases sy : negative y with
    | true =>
      rcases Nat.le_total (fraction y) (fraction x) with h | h
      · exact .inl (.inward hx hy sx sy h)
      · exact .inr (.inward hy hx sy sx h)
    | false => exact .inl (.apart hx hy sx sy)
  | false =>
    cases sy : negative y with
    | true => exact .inr (.apart hy hx sy sx)
    | false =>
      rcases Nat.le_total (fraction x) (fraction y) with h | h
      · exact .inl (.outward hx hy sx sy h)
      · exact .inr (.outward hy hx sy sx h)

theorem precedes_total_of_mixed (hx : isNaN x) (hy : isNaN y = false) :
    Precedes x y ∨ Precedes y x := by
  cases sx : negative x with
  | true => exact .inl (.below hx sx hy)
  | false => exact .inr (.above hy hx sx)

theorem precedes_total (x y : p.Bits) : Precedes x y ∨ Precedes y x := by
  cases hx : isNaN x with
  | true =>
    cases hy : isNaN y with
    | true => exact precedes_total_of_isNaN hx hy
    | false => exact precedes_total_of_mixed hx hy
  | false =>
    cases hy : isNaN y with
    | true => exact (precedes_total_of_mixed hy hx).symm
    | false => exact precedes_total_of_numbers hx hy

theorem isLE_order_iff_precedes : (order x y).isLE ↔ Precedes x y := by
  rw [isLE_order]
  refine ⟨fun h => ?_, Precedes.rank_le⟩
  rcases precedes_total x y with hxy | hyx
  · exact hxy
  · obtain rfl := rank_inj.1 (Nat.le_antisymm h hyx.rank_le)
    exact hyx

end Precedes

/-- Floats are in one linear order, the total order of their standard, and equal in it when their
bits are, as they are as values. Patterns with the sign set come before all others and go against
their bits, the others by their bits. So the sorted list depends on nothing but which floats there
are. -/
theorem order_linear (p : Precision) :
    (∀ x y : p.Bits, (order x y).isLE ↔ Precedes x y) ∧
    (∀ x y : p.Bits, (order x y).isLE ∨ (order y x).isLE) ∧
    (∀ x y : p.Bits, (order x y).isLE → (order y x).isLE → x = y) ∧
    (∀ x y z : p.Bits, (order x y).isLE → (order y z).isLE → (order x z).isLE) ∧
    (∀ x y : p.Bits, order x y = .eq ↔ x = y) ∧
    (∀ x y : p.Bits, (Value.number (.float p x)).same (.number (.float p y)) ↔ order x y = .eq) ∧
    (∀ x y : p.Bits, order y x = (order x y).swap) ∧
    (∀ x y : p.Bits, negative x → negative y = false → order x y = .lt) ∧
    (∀ x y : p.Bits, negative x = false → negative y = false →
      order x y = compare x.toNat y.toNat) ∧
    (∀ x y : p.Bits, negative x → negative y → order x y = compare y.toNat x.toNat) ∧
    ∀ xs : List p.Bits, (sort xs).Perm xs ∧ Ascending (sort xs) ∧
      ∀ ys : List p.Bits, ys.Perm xs → sort ys = sort xs ∧ (Ascending ys → ys = sort xs) := by
  refine ⟨fun x y => isLE_order_iff_precedes, isLE_order_total, fun x y => eq_of_isLE_order,
    fun x y z => Std.TransCmp.isLE_trans, fun x y => Std.LawfulEqCmp.compare_eq_iff_eq,
    fun x y => same_iff_order_eq, fun x y => Std.OrientedCmp.eq_swap, fun x y => order_of_signs,
    fun x y => order_of_clear, fun x y => order_of_set, fun xs => ?_⟩
  exact ⟨sort_perm xs, ascending_sort xs, fun ys h => ⟨sort_congr h, eq_sort h⟩⟩

theorem order_linear_zeros_and_infinities :
    let xs : List (Bits .double) :=
      [0x7ff8000000000001, 0x8000000000000000, 0xfff0000000000001, 0x0000000000000000,
        0x7ff0000000000000, 0x8000000000000001, 0xfff8000000000000, 0x0000000000000001,
        0xfff0000000000000, 0x7ff0000000000001]
    let ys : List (Bits .double) :=
      [0xfff8000000000000, 0xfff0000000000001, 0xfff0000000000000, 0x8000000000000001,
        0x8000000000000000, 0x0000000000000000, 0x0000000000000001, 0x7ff0000000000000,
        0x7ff0000000000001, 0x7ff8000000000001]
    let zero : Bits .double := 0x0000000000000000
    let negativeZero : Bits .double := 0x8000000000000000
    let negativeInfinity : Bits .double := 0xfff0000000000000
    let quiet : Bits .double := 0x7ff8000000000001
    let signalling : Bits .double := 0x7ff0000000000001
    (xs.Perm ys ∧ Ascending ys ∧ negative negativeZero ∧ negative negativeInfinity ∧
        negative zero = false ∧ negative signalling = false ∧ (order zero signalling).isLE ∧
        (order signalling quiet).isLE) ∧
      sort xs = ys ∧ sort xs.reverse = ys ∧ order negativeZero zero = .lt ∧
      Precedes negativeZero zero ∧ (order zero quiet).isLE ∧
      order zero signalling = compare 0 0x7ff0000000000001 ∧
      order negativeInfinity negativeZero = compare 0x8000000000000000 0xfff0000000000000 ∧
      ¬(Value.number (.float .double zero)).same (.number (.float .double negativeZero)) := by
  intro xs ys zero negativeZero negativeInfinity quiet signalling
  have hperm : xs.Perm ys := by decide
  have hasc : Ascending ys := by decide
  have hset : negative negativeZero := by decide
  have hset' : negative negativeInfinity := by decide
  have hclear : negative zero = false := by decide
  have hclear' : negative signalling = false := by decide
  have hleft : (order zero signalling).isLE := by decide
  have hright : (order signalling quiet).isLE := by decide
  obtain ⟨standard, -, -, trans, -, keys, -, signs, clear, set, sorting⟩ := order_linear .double
  have sorted : ys = sort xs := ((sorting xs).2.2 ys hperm.symm).2 hasc
  have turned : sort xs.reverse = sort xs := ((sorting xs).2.2 _ (xs.reverse_perm)).1
  have first : order negativeZero zero = .lt := signs _ _ hset hclear
  exact ⟨⟨hperm, hasc, hset, hset', hclear, hclear', hleft, hright⟩, sorted.symm,
    turned.trans sorted.symm, first, (standard _ _).1 (by rw [first]; rfl),
    trans _ _ _ hleft hright, clear _ _ hclear hclear', set _ _ hset' hset,
    (keys _ _).not.2 (by decide)⟩

end TypedColumn.Precision
