import Mathlib
import TypedColumn.Proofs.Descriptor.Parameters

namespace TypedColumn

open Text

namespace Descriptor

inductive Pieces : List Char → List String → Prop
  | nil (cs : List Char) : Pieces cs []
  | cons {gap rest : List Char} {p : String} {ps : List String} : Pieces rest ps →
      Pieces (gap ++ p.toList ++ rest) (p :: ps)

/-- The parameters stand between the first opening parenthesis and the last closing one. -/
inductive Encloses : List Char → List String → Prop
  | mk {front body back : List Char} {ps : List String} : '(' ∉ front → ')' ∉ back →
      Pieces body ps → Encloses (front ++ '(' :: body ++ ')' :: back) ps

theorem Pieces.append_front {cs : List Char} {ps : List String} (h : Pieces cs ps)
    (front : List Char) : Pieces (front ++ cs) ps := by
  cases h with
  | nil => exact .nil _
  | cons h =>
    rw [← List.append_assoc, ← List.append_assoc]
    exact .cons h

theorem pieces_segment (segment : List Char) {rest : List Char} {ps : List String}
    (h : Pieces rest ps) : Pieces (segment ++ rest) (String.ofList (trim segment) :: ps) := by
  obtain ⟨front, back, hsegment⟩ := trim_within segment
  have whole : Pieces (front ++ (String.ofList (trim segment)).toList ++ (back ++ rest))
      (String.ofList (trim segment) :: ps) := .cons (h.append_front back)
  rwa [String.toList_ofList, ← List.append_assoc, hsegment] at whole

namespace Cut

variable {body : List Char} {ps : List String} (h : Cut body ps)
include h

theorem pieces : Pieces body ps := by
  induction h with
  | @last segment hne =>
    have whole := pieces_segment segment (.nil [])
    rwa [List.append_nil] at whole
  | more hne _ ih => exact pieces_segment _ (ih.append_front [','])

theorem ne_empty : ∀ p ∈ ps, p ≠ "" := by
  have named {segment : List Char} (hne : trim segment ≠ []) :
      String.ofList (trim segment) ≠ "" := fun hempty => hne (String.ofList_eq_empty_iff.1 hempty)
  induction h with
  | last hne => exact List.forall_mem_singleton.2 (named hne)
  | more hne _ ih => exact List.forall_mem_cons.2 ⟨named hne, ih⟩

theorem sum_le : (ps.map String.utf8ByteSize).sum + ps.length ≤ size body + 1 := by
  have shorter (segment : List Char) :
      (String.ofList (trim segment)).utf8ByteSize ≤ size segment := by
    rw [utf8ByteSize_eq, String.toList_ofList]
    exact size_mono (trim_within segment)
  induction h with
  | @last segment hne => simpa using shorter segment
  | @more segment body ps hne _ ih =>
    have comma : size (',' :: body) = 1 + size body := rfl
    have first := shorter segment
    rw [List.map_cons, List.sum_cons, List.length_cons, size_append, comma]
    omega

end Cut

theorem Spells.cut {cs : List Char} {d : Descriptor} (h : Spells cs d) (hps : d.parameters ≠ []) :
    ∃ front body, cs = front ++ '(' :: body ++ [')'] ∧ front ≠ [] ∧ '(' ∉ front ∧
      Cut body d.parameters := by
  cases h with
  | bare => exact absurd rfl hps
  | @listed name blanks body parameters hname hblanks hscan =>
    have hreturns := scan_returns hscan
    rw [List.reverse_nil, List.nil_append] at hreturns
    cases hreturns with
    | @cut body _ _ hcut =>
      exact ⟨name ++ blanks, body, by simp, List.append_ne_nil_of_left_ne_nil hname.ne_nil _,
        hname.not_mem_append hblanks, hcut⟩
    | blank => exact absurd rfl hps

theorem size_pos {cs : List Char} (h : cs ≠ []) : 0 < size cs := by
  obtain ⟨c, cs, rfl⟩ := List.exists_cons_of_ne_nil h
  exact Nat.add_pos_left c.utf8Size_pos _

theorem Spells.sum_le {cs : List Char} {d : Descriptor} (h : Spells cs d)
    (hps : d.parameters ≠ []) :
    (d.parameters.map String.utf8ByteSize).sum + d.parameters.length + 2 ≤ size cs := by
  obtain ⟨front, body, rfl, hfront, -, hcut⟩ := h.cut hps
  have parentheses : size ('(' :: body) = 1 + size body ∧ size [')'] = 1 := ⟨rfl, rfl⟩
  have name := size_pos hfront
  have parameters := hcut.sum_le
  rw [size_append, size_append, parentheses.1, parentheses.2]
  omega

section Parsed

variable {text : String} {d : Descriptor} (h : parse text = .ok d)
include h

theorem parameters_ne_empty : ∀ p ∈ d.parameters, p ≠ "" := by
  by_cases hps : d.parameters = []
  · rw [hps]
    exact List.forall_mem_nil _
  · obtain ⟨front, body, -, -, -, hcut⟩ := (parse_eq_ok_iff.1 h).cut hps
    exact hcut.ne_empty

theorem size_of_parsed_pos : 0 < text.utf8ByteSize := Nat.zero_lt_of_lt (reach_lt h)

theorem size_parameter_lt {p : String} (hp : p ∈ d.parameters) :
    p.utf8ByteSize < text.utf8ByteSize :=
  Nat.lt_of_le_of_lt (reach_le_iff.1 (Nat.le_refl _) p hp) (reach_lt h)

theorem sum_parameters_le (hps : d.parameters ≠ []) :
    (d.parameters.map String.utf8ByteSize).sum + d.parameters.length + 2 ≤ text.utf8ByteSize := by
  rw [utf8ByteSize_eq]
  exact Nat.le_trans ((parse_eq_ok_iff.1 h).sum_le hps) (size_mono (trim_within _))

theorem encloses_parameters (hps : d.parameters ≠ []) : Encloses text.toList d.parameters := by
  obtain ⟨front, body, htrim, -, hfront, hcut⟩ := (parse_eq_ok_iff.1 h).cut hps
  obtain ⟨blanks, hend, hblanks⟩ := trimEnd_split (trimStart text.toList)
  have whole : text.toList.takeWhile isBlank ++ trimStart text.toList = text.toList :=
    List.takeWhile_append_dropWhile
  have leading : '(' ∉ text.toList.takeWhile isBlank ++ front := by
    rw [List.mem_append, not_or]
    exact ⟨not_mem_of_isBlank fun c hc => List.mem_takeWhile_imp hc, hfront⟩
  have trailing : ')' ∉ blanks := fun hmem => absurd (hblanks _ hmem) (by decide)
  rw [← trim, htrim] at hend
  rw [← whole, hend]
  simpa using Encloses.mk leading trailing hcut.pieces

end Parsed

end Descriptor

end TypedColumn
