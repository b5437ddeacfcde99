import TypedColumn.Layout

namespace TypedColumn.Layout

mutual
/-- The width that `minWidth` counts in words, however many bytes that are. -/
def leastWidth : Layout → Nat
  | .number k => k.width
  | .string => 1
  | .uuid => 16
  | .fixedString _ size _ => size
  | .nothing => 0
  | .nullable _ _ => 1
  | .array _ _ => 1
  | .tuple _ elements => leastWidths elements
  | .map _ _ _ => 1
  | .aggregateState _ => 0
  | .simpleAggregate _ inner => leastWidth inner
def leastWidths : List Layout → Nat
  | [] => 0
  | l :: ls => leastWidth l + leastWidths ls
end

theorem minWidths_le_leastWidths {ls : List Layout} (ih : ∀ l ∈ ls, l.minWidth ≤ l.leastWidth) :
    minWidths ls ≤ leastWidths ls := by
  induction ls with
  | nil => exact Nat.le_refl 0
  | cons l ls ihs =>
    rw [List.forall_mem_cons] at ih
    rw [minWidths, leastWidths]
    exact Nat.le_trans (addWords_le _ _) (Nat.add_le_add ih.1 (ihs ih.2))

theorem minWidth_le_leastWidth (l : Layout) : l.minWidth ≤ l.leastWidth := by
  induction l with
  | tuple name elements ih => exact minWidths_le_leastWidths ih
  | simpleAggregate name inner ih => exact ih
  | _ => exact Nat.le_refl _

theorem minWidths_eq_leastWidths {ls : List Layout}
    (ih : ∀ l ∈ ls, l.leastWidth ≤ greatestWord → l.minWidth = l.leastWidth)
    (h : leastWidths ls ≤ greatestWord) : minWidths ls = leastWidths ls := by
  induction ls with
  | nil => rfl
  | cons l ls ihs =>
    rw [List.forall_mem_cons] at ih
    rw [leastWidths] at h
    have first := ih.1 (Nat.le_trans (Nat.le_add_right _ _) h)
    have others := ihs ih.2 (Nat.le_trans (Nat.le_add_left _ _) h)
    rw [minWidths, leastWidths, first, others, addWords_of_le h]

theorem minWidth_eq_leastWidth (l : Layout) (h : l.leastWidth ≤ greatestWord) :
    l.minWidth = l.leastWidth := by
  induction l with
  | tuple name elements ih => exact minWidths_eq_leastWidths ih h
  | simpleAggregate name inner ih => exact ih h
  | _ => rfl

end TypedColumn.Layout
