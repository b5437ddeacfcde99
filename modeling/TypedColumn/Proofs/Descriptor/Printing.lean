import TypedColumn.Proofs.Descriptor.Grammar

namespace TypedColumn.Descriptor

open Text

theorem Quoted.exists_front {q : List Char} (h : Quoted q) : ∃ front, q = front ++ ['\x27'] := by
  induction h with
  | close => exact ⟨[], rfl⟩
  | @escaped cs c _ ih =>
    obtain ⟨front, rfl⟩ := ih
    exact ⟨'\x5c' :: c :: front, rfl⟩
  | @plain c cs _ _ _ ih =>
    obtain ⟨front, rfl⟩ := ih
    exact ⟨c :: front, rfl⟩

theorem Item.eq_of_blank_front {item cs cs' : List Char} {c : Char} (h : Item item)
    (hcs : item ++ cs = c :: cs') (hc : isBlank c) : cs = cs' := by
  cases h with
  | group =>
    obtain ⟨rfl, -⟩ := List.cons.inj hcs
    exact absurd hc (by decide)
  | literal =>
    obtain ⟨rfl, -⟩ := List.cons.inj hcs
    exact absurd hc (by decide)
  | plain => exact (List.cons.inj hcs).2

theorem Item.eq_of_blank_back {item cs : List Char} {c : Char} (h : Item item)
    (hcs : item = cs ++ [c]) (hc : isBlank c) : cs = [] := by
  cases h with
  | @group body =>
    obtain ⟨-, hlast⟩ := List.append_inj' hcs rfl
    obtain ⟨rfl, -⟩ := List.cons.inj hlast
    exact absurd hc (by decide)
  | literal hq =>
    obtain ⟨front, rfl⟩ := hq.exists_front
    rw [← List.cons_append] at hcs
    obtain ⟨-, hlast⟩ := List.append_inj' hcs rfl
    obtain ⟨rfl, -⟩ := List.cons.inj hlast
    exact absurd hc (by decide)
  | plain => exact (List.append_inj' (show [] ++ [_] = cs ++ [c] from hcs) rfl).1.symm

namespace Segment

variable {s : List Char} {c : Char}

theorem of_blank_front (h : Segment (c :: s)) (hc : isBlank c) : Segment s := by
  generalize hcs : c :: s = cs at h
  cases h with
  | nil => cases hcs
  | cons hitem _ hrest => rwa [← hitem.eq_of_blank_front hcs.symm hc]

theorem of_blank_back (h : Segment (s ++ [c])) (hc : isBlank c) : Segment s := by
  generalize hcs : s ++ [c] = cs at h
  induction h generalizing s with
  | nil => exact absurd hcs (List.append_ne_nil_of_right_ne_nil s (List.cons_ne_nil c []))
  | @cons item rest hitem hne hrest ih =>
    obtain rfl | ⟨front, last, rfl⟩ := List.eq_nil_or_concat' rest
    · rw [List.append_nil] at hcs
      rw [hitem.eq_of_blank_back hcs.symm hc]
      exact .nil
    · rw [← List.append_assoc] at hcs
      obtain ⟨rfl, hlast⟩ := List.append_inj' hcs rfl
      exact .cons hitem hne (ih (by rw [hlast]))

theorem trimStart (h : Segment s) : Segment (trimStart s) := by
  induction s with
  | nil => exact h
  | cons c s ih =>
    by_cases hc : isBlank c
    · rw [Text.trimStart, List.dropWhile_cons_of_pos hc]
      exact ih (h.of_blank_front hc)
    · rwa [Text.trimStart, List.dropWhile_cons_of_neg hc]

theorem of_append_blanks {blanks : List Char} (h : Segment (s ++ blanks))
    (hblanks : ∀ c ∈ blanks, isBlank c) : Segment s := by
  induction blanks using List.reverseRecOn with
  | nil => rwa [List.append_nil] at h
  | append_singleton blanks c ih =>
    rw [List.forall_mem_append, List.forall_mem_singleton] at hblanks
    rw [← List.append_assoc] at h
    exact ih (h.of_blank_back hblanks.2) hblanks.1

theorem trim (h : Segment s) : Segment (trim s) := by
  -- blanks are not part of groups or literals, so trimming leaves these whole
  obtain ⟨blanks, hsplit, hblanks⟩ := trimEnd_split (Text.trimStart s)
  have front := h.trimStart
  rw [hsplit] at front
  exact front.of_append_blanks hblanks

end Segment

theorem Segments.segment {body : List Char} {segments : List (List Char)}
    (h : Segments body segments) {s : List Char} (hs : s ∈ segments) : Segment s := by
  induction h with
  | last hsegment => exact List.mem_singleton.1 hs ▸ hsegment
  | more hsegment _ ih =>
    obtain rfl | hs := List.mem_cons.1 hs
    · exact hsegment
    · exact ih hs

theorem Written.isName {cs : List Char} {d : Descriptor} (h : Written cs d) :
    IsName d.name.toList := by
  cases h with
  | bare hname => rwa [String.toList_ofList]
  | listed hname => rwa [String.toList_ofList]

end TypedColumn.Descriptor
