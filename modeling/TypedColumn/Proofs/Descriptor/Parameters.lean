import TypedColumn.Proofs.Descriptor.Normal

namespace TypedColumn

namespace Text

def size : List Char → Nat
  | [] => 0
  | c :: cs => c.utf8Size + size cs

theorem size_append (cs cs' : List Char) : size (cs ++ cs') = size cs + size cs' := by
  induction cs with
  | nil => exact (Nat.zero_add _).symm
  | cons c cs ih => rw [List.cons_append, size, size, ih, Nat.add_assoc]

theorem size_mono {cs cs' : List Char} (h : cs <:+: cs') : size cs ≤ size cs' := by
  obtain ⟨front, back, rfl⟩ := h
  rw [size_append, size_append]
  omega

theorem size_utf8Encode (cs : List Char) : cs.utf8Encode.size = size cs := by
  induction cs with
  | nil => rfl
  | cons c cs ih =>
    rw [List.utf8Encode_cons, ByteArray.size_append, ih, List.utf8Encode_singleton]
    simp [size]

theorem utf8ByteSize_eq (text : String) : text.utf8ByteSize = size text.toList := by
  rw [← size_utf8Encode, String.utf8Encode_toList, String.size_toByteArray]

theorem trim_within (cs : List Char) : trim cs <:+: cs :=
  (List.rdropWhile_prefix isBlank (trimStart cs)).isInfix.trans
    (List.dropWhile_suffix isBlank).isInfix

end Text

namespace Descriptor

open Text

inductive Cut : List Char → List String → Prop
  | last {segment : List Char} : trim segment ≠ [] → Cut segment [String.ofList (trim segment)]
  | more {segment body : List Char} {parameters : List String} : trim segment ≠ [] →
      Cut body parameters →
      Cut (segment ++ ',' :: body) (String.ofList (trim segment) :: parameters)

inductive Returns (done : List String) : List Char → List String × List Char → Prop
  | cut {body rest : List Char} {parameters : List String} : Cut body parameters →
      Returns done (body ++ ')' :: rest) (done.reverse ++ parameters, rest)
  | blank {body rest : List Char} : done = [] → trim body = [] →
      Returns done (body ++ ')' :: rest) ([], rest)

theorem scan_returns {quote : Quote} {depth : Nat} {segment : List Char} {done : List String}
    {cs : List Char} {out : List String × List Char}
    (h : scan quote depth segment done cs = .ok out) :
    Returns done (segment.reverse ++ cs) out := by
  fun_induction scan
  -- a failure
  case case1 | case2 | case3 | case12 | case14 => cases h
  -- one more character in the segment
  case case4 ih | case5 ih | case6 ih | case7 ih | case8 ih | case9 ih | case10 ih | case16 ih =>
    simpa using ih h
  case case11 hblank _ _ =>
    cases h
    exact .blank rfl hblank
  case case13 segment cs done _ _ hlast hlater =>
    cases h
    have hne : trim segment.reverse ≠ [] := by
      intro hblank
      cases done with
      | nil => exact hlast hblank rfl
      | cons v done => exact hlater v done hblank rfl
    rw [List.reverse_cons]
    exact .cut (.last hne)
  case case15 segment done c cs _ _ _ hcomma hne ih =>
    obtain ⟨rfl, -⟩ := hcomma
    have hreturns := ih h
    generalize hcs : [].reverse ++ cs = cs' at hreturns
    obtain rfl : cs = cs' := hcs
    cases hreturns with
    | @cut body rest parameters hcut =>
      have whole : Returns done (segment.reverse ++ ',' :: body ++ ')' :: rest) _ :=
        .cut (.more hne hcut)
      simpa using whole
    | blank hdone => cases hdone

theorem Cut.within {body : List Char} {parameters : List String} (h : Cut body parameters)
    {p : String} (hp : p ∈ parameters) : p.toList <:+: body := by
  induction h with
  | @last segment hne =>
    rw [List.mem_singleton.1 hp, String.toList_ofList]
    exact trim_within segment
  | @more segment body parameters hne _ ih =>
    obtain rfl | hp := List.mem_cons.1 hp
    · rw [String.toList_ofList]
      exact (trim_within segment).trans (List.prefix_append segment _).isInfix
    · exact (ih hp).trans ((List.suffix_cons ',' body).trans (List.suffix_append segment _)).isInfix

theorem reach_le_iff {d : Descriptor} {n : Nat} :
    d.reach ≤ n ↔ ∀ p ∈ d.parameters, p.utf8ByteSize ≤ n := by
  rw [reach]
  induction d.parameters with
  | nil => simp
  | cons v vs ih => rw [List.foldr_cons, Nat.max_le, List.forall_mem_cons, ih]

theorem Spells.reach_lt {cs : List Char} {d : Descriptor} (h : Spells cs d) :
    d.reach < size cs := by
  cases h with
  | bare hname =>
    obtain ⟨c, cs, rfl⟩ := List.exists_cons_of_ne_nil hname.ne_nil
    change 0 < (c.utf8Size + _)
    exact Nat.add_pos_left c.utf8Size_pos _
  | @listed name blanks body parameters hname hblanks hscan =>
    have hreturns := scan_returns hscan
    rw [List.reverse_nil, List.nil_append] at hreturns
    have hpieces : ∀ p ∈ parameters, p.utf8ByteSize ≤ size body := by
      intro p hp
      cases hreturns with
      | cut hcut =>
        rw [utf8ByteSize_eq]
        exact size_mono ((hcut.within hp).trans (List.prefix_append _ _).isInfix)
      | blank => cases hp
    calc
      reach ⟨String.ofList name, parameters, String.ofList ('(' :: body)⟩ ≤ size body :=
        reach_le_iff.2 hpieces
      _ < size ('(' :: body) := Nat.lt_add_of_pos_left (Char.utf8Size_pos '(')
      _ ≤ size (name ++ blanks ++ '(' :: body) := size_mono (List.suffix_append _ _).isInfix

theorem reach_lt {text : String} {d : Descriptor} (h : parse text = .ok d) :
    d.reach < text.utf8ByteSize := by
  rw [utf8ByteSize_eq]
  exact Nat.lt_of_lt_of_le (parse_eq_ok_iff.1 h).reach_lt (size_mono (trim_within _))

theorem reach_lt_of_parameter {d e : Descriptor} {p : String} (hp : p ∈ d.parameters)
    (he : parse p = .ok e) : e.reach < d.reach :=
  Nat.lt_of_lt_of_le (reach_lt he) (reach_le_iff.1 (Nat.le_refl _) p hp)

end Descriptor

end TypedColumn
