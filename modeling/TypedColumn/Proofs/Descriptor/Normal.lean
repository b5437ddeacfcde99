import Mathlib.Data.List.DropRight
import TypedColumn.Descriptor.Parser

namespace TypedColumn

namespace Text

def Trimmed (cs : List Char) : Prop :=
  ∀ h : cs ≠ [], ¬isBlank (cs.head h) ∧ ¬isBlank (cs.getLast h)

theorem trimEnd_eq_self {cs : List Char} (h : ∀ hne : cs ≠ [], ¬isBlank (cs.getLast hne)) :
    trimEnd cs = cs :=
  List.rdropWhile_eq_self_iff.2 h

theorem trimEnd_split (cs : List Char) :
    ∃ blanks, cs = trimEnd cs ++ blanks ∧ ∀ c ∈ blanks, isBlank c :=
  ⟨cs.rtakeWhile isBlank, List.rdropWhile_append_rtakeWhile.symm,
    fun _ => List.mem_rtakeWhile_imp⟩

theorem trimEnd_append_blanks {cs blanks : List Char} (h : ∀ c ∈ blanks, isBlank c) :
    trimEnd (cs ++ blanks) = trimEnd cs := by
  have hrev : ∀ c ∈ blanks.reverse, isBlank c := fun c hc => h c (List.mem_reverse.1 hc)
  rw [trimEnd, trimEnd, List.reverse_append, List.dropWhile_append_of_pos hrev]

theorem trimmed_trim (cs : List Char) : Trimmed (trim cs) := by
  intro h
  have hfront : trim cs <+: trimStart cs := List.rdropWhile_prefix isBlank _
  constructor
  · rw [hfront.head h]
    exact Bool.not_eq_true _ ▸ List.head_dropWhile_not isBlank _
  · exact List.rdropWhile_last_not isBlank (trimStart cs) h

theorem Trimmed.trim_eq {cs : List Char} (h : Trimmed cs) : trim cs = cs := by
  have hstart : trimStart cs = cs := by
    cases cs with
    | nil => rfl
    | cons c cs => exact List.dropWhile_cons_of_neg (h (List.cons_ne_nil c cs)).1
  rw [trim, hstart]
  exact trimEnd_eq_self fun hne => (h hne).2

theorem Trimmed.change_front {front front' back : List Char} (h : Trimmed (front ++ back))
    (hback : back ≠ []) (hne : front' ≠ []) (hfront : ¬isBlank (front'.head hne)) :
    Trimmed (front' ++ back) := by
  intro _
  have hend := (h (List.append_ne_nil_of_right_ne_nil front hback)).2
  rw [List.getLast_append_of_ne_nil _ hback] at hend
  rw [List.head_append_of_ne_nil hne, List.getLast_append_of_ne_nil _ hback]
  exact ⟨hfront, hend⟩

end Text

namespace Descriptor

open Text

theorem not_isBlank_of_isNameChar {c : Char} (h : isNameChar c) : ¬isBlank c := by
  change ((decide (65 ≤ c.toNat ∧ c.toNat ≤ 90) || (decide (97 ≤ c.toNat) && decide (c.toNat ≤ 122)))
    || (decide (48 ≤ c.toNat) && decide (c.toNat ≤ 57)) || c == '_') = true at h
  simp only [Bool.or_eq_true, Bool.and_eq_true, decide_eq_true_eq, beq_iff_eq] at h
  simp only [isBlank, Bool.or_eq_true, Bool.and_eq_true, decide_eq_true_eq, beq_iff_eq]
  rcases h with h | rfl
  · omega
  · decide

theorem ne_parenthesis_of_isNameChar {c : Char} (h : isNameChar c) : c ≠ '(' := by
  rintro rfl
  exact absurd h (by decide)

theorem ne_parenthesis_of_isBlank {c : Char} (h : isBlank c) : c ≠ '(' := by
  rintro rfl
  exact absurd h (by decide)

structure IsName (cs : List Char) : Prop where
  ne_nil : cs ≠ []
  isNameChar : ∀ c ∈ cs, isNameChar c

theorem isName_of_all {name : String} (h : name ≠ "" ∧ name.toList.all isNameChar) :
    IsName name.toList where
  ne_nil hnil := h.1 (String.toList_eq_nil_iff.1 hnil)
  isNameChar := List.all_eq_true.1 h.2

theorem not_mem_of_isBlank {blanks : List Char} (h : ∀ c ∈ blanks, isBlank c) : '(' ∉ blanks :=
  fun hmem => ne_parenthesis_of_isBlank (h _ hmem) rfl

namespace IsName

variable {name blanks : List Char}

theorem not_mem (hname : IsName name) : '(' ∉ name :=
  fun hmem => ne_parenthesis_of_isNameChar (hname.isNameChar _ hmem) rfl

theorem not_mem_append (hname : IsName name) (hblanks : ∀ c ∈ blanks, isBlank c) :
    '(' ∉ name ++ blanks := by
  rw [List.mem_append, not_or]
  exact ⟨hname.not_mem, not_mem_of_isBlank hblanks⟩

theorem not_isBlank_head (hname : IsName name) : ¬isBlank (name.head hname.ne_nil) :=
  not_isBlank_of_isNameChar (hname.isNameChar _ (List.head_mem hname.ne_nil))

theorem not_isBlank_getLast (hname : IsName name) : ¬isBlank (name.getLast hname.ne_nil) :=
  not_isBlank_of_isNameChar (hname.isNameChar _ (List.getLast_mem hname.ne_nil))

theorem trimEnd_append (hname : IsName name) (hblanks : ∀ c ∈ blanks, isBlank c) :
    trimEnd (name ++ blanks) = name := by
  rw [trimEnd_append_blanks hblanks]
  exact trimEnd_eq_self fun _ => hname.not_isBlank_getLast

end IsName

theorem checkName_eq_ok_iff {cs : List Char} {name : String} :
    checkName cs = .ok name ↔ IsName cs ∧ name = String.ofList cs := by
  rw [checkName]
  split
  · rename_i hnil
    exact ⟨fun h => (nomatch h), fun h => absurd (List.isEmpty_iff.1 hnil) h.1.ne_nil⟩
  · rename_i hne
    split
    · rename_i hall
      have isName : IsName cs := ⟨fun h => hne (List.isEmpty_iff.2 h), List.all_eq_true.1 hall⟩
      exact ⟨fun h => ⟨isName, (Except.ok.inj h).symm⟩, fun h => congrArg _ h.2.symm⟩
    · rename_i hall
      exact ⟨fun h => (nomatch h), fun h => absurd (List.all_eq_true.2 h.1.isNameChar) hall⟩

inductive Spells : List Char → Descriptor → Prop
  | bare {name : List Char} : IsName name → Spells name ⟨String.ofList name, [], ""⟩
  | listed {name blanks body : List Char} {parameters : List String} : IsName name →
      (∀ c ∈ blanks, isBlank c) → scan .outside 0 [] [] body = .ok (parameters, []) →
      Spells (name ++ blanks ++ '(' :: body)
        ⟨String.ofList name, parameters, String.ofList ('(' :: body)⟩

theorem ofTrimmed_bare {cs : List Char} (h : '(' ∉ cs) :
    ofTrimmed cs = (checkName cs).map fun name => ⟨name, [], ""⟩ := by
  have hno : ∀ c ∈ cs, (c != '(') = true := fun c hc => bne_iff_ne.2 (ne_of_mem_of_not_mem hc h)
  rw [ofTrimmed, List.takeWhile_eq_self_iff.2 hno, List.dropWhile_eq_nil_iff.2 hno]
  cases checkName cs <;> rfl

theorem ofTrimmed_front {front : List Char} (h : '(' ∉ front) (cs : List Char) :
    ofTrimmed (front ++ '(' :: cs) = (do
      let name ← checkName (trimEnd front)
      match ← scan .outside 0 [] [] cs with
      | (parameters, []) => return ⟨name, parameters, String.ofList ('(' :: cs)⟩
      | (_, _ :: _) => .error .trailing) := by
  have hno : ∀ c ∈ front, (c != '(') = true := fun c hc => bne_iff_ne.2 (ne_of_mem_of_not_mem hc h)
  have hfront : (front ++ '(' :: cs).takeWhile (· != '(') = front := by
    rw [List.takeWhile_append_of_pos hno, List.takeWhile_cons_of_neg (by decide), List.append_nil]
  have hback : (front ++ '(' :: cs).dropWhile (· != '(') = '(' :: cs := by
    rw [List.dropWhile_append_of_pos hno, List.dropWhile_cons_of_neg (by decide)]
  rw [ofTrimmed]
  generalize (front ++ '(' :: cs).takeWhile (· != '(') = name at hfront ⊢
  generalize (front ++ '(' :: cs).dropWhile (· != '(') = back at hback ⊢
  subst hfront hback
  rfl

theorem ofTrimmed_spelled {cs : List Char} {d : Descriptor} (h : Spells cs d) :
    ofTrimmed cs = .ok d := by
  cases h with
  | bare hname =>
    rw [ofTrimmed_bare hname.not_mem, checkName_eq_ok_iff.2 ⟨hname, rfl⟩]
    rfl
  | listed hname hblanks hscan =>
    rw [ofTrimmed_front (hname.not_mem_append hblanks), hname.trimEnd_append hblanks,
      checkName_eq_ok_iff.2 ⟨hname, rfl⟩, hscan]
    rfl

theorem spells_of_ofTrimmed {cs : List Char} {d : Descriptor} (h : ofTrimmed cs = .ok d) :
    Spells cs d := by
  have whole : cs.takeWhile (· != '(') ++ cs.dropWhile (· != '(') = cs :=
    List.takeWhile_append_dropWhile
  rw [ofTrimmed] at h
  generalize cs.takeWhile (· != '(') = front at h whole
  cases hback : cs.dropWhile (· != '(') with
  | nil =>
    rw [hback] at h whole
    cases hname : checkName front with
    | error reason =>
      rw [hname] at h
      nomatch h
    | ok name =>
      rw [hname] at h
      obtain ⟨isName, rfl⟩ := checkName_eq_ok_iff.1 hname
      rw [← whole, List.append_nil]
      exact Except.ok.inj h ▸ .bare isName
  | cons parenthesis body =>
    have hparenthesis : parenthesis = '(' := by
      have hne : cs.dropWhile (· != '(') ≠ [] := by simp [hback]
      simpa [hback] using List.head_dropWhile_not _ hne
    rw [hback] at h whole
    cases hname : checkName (trimEnd front) with
    | error reason =>
      simp only [hname] at h
      nomatch h
    | ok name =>
      obtain ⟨isName, rfl⟩ := checkName_eq_ok_iff.1 hname
      simp only [hname, bind, Except.bind] at h
      split at h
      · nomatch h
      · rename_i out hscan
        obtain ⟨parameters, rest⟩ := out
        cases rest with
        | nil =>
          obtain ⟨blanks, hfront, hblanks⟩ := trimEnd_split front
          have spelled := Spells.listed isName hblanks hscan
          rw [← hfront, ← hparenthesis, whole] at spelled
          exact Except.ok.inj h ▸ spelled
        | cons c rest => nomatch h

theorem parse_eq_ok_iff {text : String} {d : Descriptor} :
    parse text = .ok d ↔ Spells (trim text.toList) d := by
  rw [parse]
  constructor
  · intro h
    cases hcs : ofTrimmed (trim text.toList) with
    | ok d' =>
      simp only [hcs] at h
      exact Except.ok.inj h ▸ spells_of_ofTrimmed hcs
    | error reason =>
      simp only [hcs] at h
      nomatch h
  · intro h
    simp only [ofTrimmed_spelled h]

theorem Spells.text {cs : List Char} {d : Descriptor} (h : Spells cs d) (htrimmed : Trimmed cs) :
    Trimmed d.text.toList ∧ Spells d.text.toList d := by
  cases h with
  | bare hname =>
    have htext : (Descriptor.text ⟨String.ofList cs, [], ""⟩).toList = cs := by
      simp [Descriptor.text]
    rw [htext]
    exact ⟨htrimmed, .bare hname⟩
  | @listed name blanks body parameters hname hblanks hscan =>
    have htext : (Descriptor.text
        ⟨String.ofList name, parameters, String.ofList ('(' :: body)⟩).toList =
          name ++ [] ++ '(' :: body := by
      simp [Descriptor.text]
    rw [htext]
    refine ⟨?_, .listed hname (List.forall_mem_nil _) hscan⟩
    rw [List.append_nil]
    exact htrimmed.change_front (List.cons_ne_nil _ _) hname.ne_nil
      hname.not_isBlank_head

theorem parse_text {text : String} {d : Descriptor} (h : parse text = .ok d) :
    parse d.text = .ok d := by
  obtain ⟨htrimmed, hspells⟩ := (parse_eq_ok_iff.1 h).text (trimmed_trim _)
  rw [parse_eq_ok_iff, htrimmed.trim_eq]
  exact hspells

theorem text_inj {text text' : String} {d d' : Descriptor} (h : parse text = .ok d)
    (h' : parse text' = .ok d') (hsame : d.text = d'.text) : d = d' := by
  have again := parse_text h
  rw [hsame, parse_text h'] at again
  exact (Except.ok.inj again).symm

end Descriptor

end TypedColumn
