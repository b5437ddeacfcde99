import TypedColumn.Layout.Column
import TypedColumn.Proofs.Grammar

namespace TypedColumn

variable {α β : Type}

open Grammar (Sequence sequence_iff_parts)

namespace Bytes

variable {width : Nat} {parts : List Bytes}

theorem length_flatten (h : ∀ part ∈ parts, part.length = width) :
    parts.flatten.length = parts.length * width := by
  induction parts with
  | nil => simp
  | cons part parts ih =>
    rw [List.forall_mem_cons] at h
    rw [List.flatten_cons, List.length_append, List.length_cons, ih h.2, h.1, Nat.succ_mul,
      Nat.add_comm]

theorem rows_flatten (h : ∀ part ∈ parts, part.length = width) :
    rows width parts.length parts.flatten = parts := by
  induction parts with
  | nil => rfl
  | cons part parts ih =>
    rw [List.forall_mem_cons] at h
    rw [List.flatten_cons, List.length_cons, rows, List.take_left' h.1, List.drop_left' h.1, ih h.2]

end Bytes

theorem Grammar.Sequence.exists_other {G : Grammar α} {H : Grammar β} {R : α → β → Prop}
    {bs : Bytes} {as : List α} (hs : Sequence G bs as)
    (h : ∀ part, ∀ a ∈ as, G part a → ∃ b, H part b ∧ R a b) :
    ∃ bs', Sequence H bs bs' ∧ List.Forall₂ R as bs' := by
  induction hs with
  | nil => exact ⟨[], .nil, .nil⟩
  | @cons part _ a as ha _ ih =>
    obtain ⟨b, hb, hab⟩ := h part a (by simp) ha
    obtain ⟨others, hothers, hR⟩ := ih fun p c hc => h p c (by simp [hc])
    exact ⟨b :: others, .cons hb hothers, .cons hab hR⟩

theorem Reader.takeRows_yields {rows width : Nat} {bs : Bytes} (hlen : bs.length = rows * width)
    (hword : bs.length ≤ greatestWord) : (takeRows rows width).Yields bs bs := by
  intro out rest
  rw [hlen] at hword
  rw [takeRows, if_pos hword, ← hlen]
  exact Yields.take bs out rest

namespace Layout

variable {G : Grammar α} {bs : Bytes} {as : List α}

theorem rowsOf_yields {width : Nat} (hs : Sequence G bs as)
    (hwidth : ∀ part a, G part a → part.length = width) (hword : bs.length ≤ greatestWord) :
    ∃ parts, (rowsOf as.length width).Yields bs parts ∧ List.Forall₂ G parts as := by
  obtain ⟨parts, rfl, hG⟩ := sequence_iff_parts.1 hs
  have hparts : ∀ part ∈ parts, part.length = width := by
    clear hs hword
    induction hG with
    | nil => exact List.forall_mem_nil _
    | cons ha _ ih => exact List.forall_mem_cons.2 ⟨hwidth _ _ ha, ih⟩
  have hlen := Bytes.length_flatten hparts
  have taken := (Reader.takeRows_yields hlen hword).map (Bytes.rows width parts.length)
  rw [Bytes.rows_flatten hparts, hG.length_eq] at taken
  exact ⟨parts, taken, hG⟩

def Word (swap : Bool) : Grammar Nat := fun bs n =>
  bs.length = 8 ∧ n = Bytes.toNat (if swap then bs.reverse else bs)

theorem words_yields {swap : Bool} {ns : List Nat} (hs : Sequence (Word swap) bs ns)
    (hword : bs.length ≤ greatestWord) : (Reader.words ns.length swap).Yields bs ns := by
  obtain ⟨parts, hread, hparts⟩ := rowsOf_yields hs (fun _ _ h => h.1) hword
  have words := hread.map (List.map fun row => Bytes.toNat (if swap then row.reverse else row))
  rw [rowsOf, bind_assoc] at words
  have spelled : parts.map (fun row => Bytes.toNat (if swap then row.reverse else row)) = ns := by
    clear hread words hs
    induction hparts with
    | nil => rfl
    | cons h _ ih => rw [List.map_cons, ih, h.2]
  rwa [spelled] at words

def runningTotals : (last : Nat) → List Nat → List Nat
  | _, [] => []
  | last, n :: ns => (last + n) :: runningTotals (last + n) ns

theorem length_runningTotals (last : Nat) (ns : List Nat) :
    (runningTotals last ns).length = ns.length := by
  induction ns generalizing last with
  | nil => rfl
  | cons n ns ih => rw [runningTotals, List.length_cons, ih, List.length_cons]

theorem arrayRows_yields {C : Grammar (List α)} {R : List α → List Value → Prop}
    (elements : Nat → Reader (List Value)) {rows : List (List α)} (hs : Sequence C bs rows)
    (h : ∀ part row, C part row → ∃ vs, (elements row.length).Yields part vs ∧ R row vs)
    (name : String) (row last : Nat) :
    ∃ out, (arrayRows name elements row last (runningTotals last (rows.map List.length))).Yields bs
      (out.map .array) ∧ List.Forall₂ R rows out := by
  induction hs generalizing row last with
  | nil => exact ⟨[], .pure [], .nil⟩
  | @cons part bs first rows hfirst _ ih =>
    obtain ⟨vs, hvs, hR⟩ := h part first hfirst
    obtain ⟨out, hout, hRs⟩ := ih (row + 1) (last + first.length)
    refine ⟨vs :: out, ?_, .cons hR hRs⟩
    rw [List.map_cons, runningTotals, arrayRows, if_neg (by omega), Nat.add_sub_cancel_left]
    exact hvs.bind (hout.map (Value.array vs :: ·))

theorem map_maskNulls {f : Value → Value} (hf : f .null = .null) (flags : Bytes)
    (vs : List Value) : (maskNulls flags vs).map f = maskNulls flags (vs.map f) := by
  induction vs generalizing flags with
  | nil => rfl
  | cons v vs ih =>
    cases flags with
    | nil => rfl
    | cons flag flags =>
      have head : f (if flag = 0 then v else .null) = if flag = 0 then f v else .null := by
        split
        · rfl
        · exact hf
      rw [maskNulls, List.zipWith_cons_cons, List.map_cons, List.map_cons, maskNulls,
        List.zipWith_cons_cons, head]
      exact congrArg _ (ih flags)

theorem native_maskNulls (l : Layout) (flags : Bytes) (vs : List Value) :
    native l (maskNulls flags vs) = maskNulls flags (native l vs) := by
  induction l with
  | fixedString name size form => exact map_maskNulls rfl flags vs
  | nullable name inner ih => exact ih
  | _ => rfl

end Layout

end TypedColumn
