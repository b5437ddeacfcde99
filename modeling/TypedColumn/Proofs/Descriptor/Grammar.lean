import TypedColumn.Proofs.Descriptor.Normal
import TypedColumn.Report

namespace TypedColumn.Descriptor

open Text

inductive Quoted : List Char → Prop
  | close : Quoted ['\x27']
  | escaped {cs : List Char} (c : Char) : Quoted cs → Quoted ('\x5c' :: c :: cs)
  | plain {c : Char} {cs : List Char} : c ≠ '\x27' → c ≠ '\x5c' → Quoted cs → Quoted (c :: cs)

mutual
inductive Item : List Char → Prop
  | group {body : List Char} : Body body → Item ('(' :: body ++ [')'])
  | literal {cs : List Char} : Quoted cs → Item ('\x27' :: cs)
  | plain {c : Char} : c ≠ '(' → c ≠ ')' → c ≠ '\x27' → Item [c]
inductive Body : List Char → Prop
  | nil : Body []
  | cons {item cs : List Char} : Item item → Body cs → Body (item ++ cs)
end

inductive Segment : List Char → Prop
  | nil : Segment []
  | cons {item cs : List Char} : Item item → item ≠ [','] → Segment cs → Segment (item ++ cs)

inductive Segments : List Char → List (List Char) → Prop
  | last {segment : List Char} : Segment segment → Segments segment [segment]
  | more {segment body : List Char} {segments : List (List Char)} : Segment segment →
      Segments body segments → Segments (segment ++ ',' :: body) (segment :: segments)

inductive Holds : List (List Char) → List String → Prop
  | none {segment : List Char} : trim segment = [] → Holds [segment] []
  | each {segments : List (List Char)} : (∀ s ∈ segments, trim s ≠ []) →
      Holds segments (segments.map fun s => String.ofList (trim s))

/-- The texts that describe types: a name, alone or before its parameters. -/
inductive Written : List Char → Descriptor → Prop
  | bare {name : List Char} : IsName name → Written name ⟨String.ofList name, [], ""⟩
  | listed {name blanks body : List Char} {segments : List (List Char)} {parameters : List String} :
      IsName name → (∀ c ∈ blanks, isBlank c) → Body body → Segments body segments →
      Holds segments parameters → Written (name ++ blanks ++ '(' :: (body ++ [')']))
        ⟨String.ofList name, parameters, String.ofList ('(' :: (body ++ [')']))⟩

inductive Unclosed : TextFault → List Char → Prop
  | list : Unclosed .unbalanced []
  | group {f : TextFault} {body cs : List Char} : Body body → Unclosed f cs →
      Unclosed f ('(' :: (body ++ cs))
  | literal {cs : List Char} : (∀ q, q <+: cs → ¬Quoted q) → Unclosed .unterminated ('\x27' :: cs)

inductive Refused : (first : Bool) → List Char → TextFault → Prop
  | unclosed {first : Bool} {segment cs : List Char} {f : TextFault} : Segment segment →
      Unclosed f cs → Refused first (segment ++ cs) f
  | blank {first : Bool} {segment cs : List Char} : Segment segment → trim segment = [] →
      Refused first (segment ++ ',' :: cs) .emptyParameter
  | blankLast {segment cs : List Char} : Segment segment → trim segment = [] →
      Refused false (segment ++ ')' :: cs) .emptyParameter
  | later {first : Bool} {segment cs : List Char} {f : TextFault} : Segment segment →
      trim segment ≠ [] → Refused false cs f → Refused first (segment ++ ',' :: cs) f

/-- The texts that describe no type, with the reason. -/
inductive Unwritten : List Char → TextFault → Prop
  | empty : Unwritten [] .noName
  | nameless {blanks cs : List Char} : (∀ c ∈ blanks, isBlank c) →
      Unwritten (blanks ++ '(' :: cs) .noName
  | badName {name : List Char} : '(' ∉ name → name ≠ [] → ¬IsName name → Unwritten name .badName
  | badFront {front cs : List Char} : '(' ∉ front → trimEnd front ≠ [] → ¬IsName (trimEnd front) →
      Unwritten (front ++ '(' :: cs) .badName
  | refused {name blanks cs : List Char} {f : TextFault} : IsName name → (∀ c ∈ blanks, isBlank c) →
      Refused true cs f → Unwritten (name ++ blanks ++ '(' :: cs) f
  | trailing {name blanks body rest : List Char} {segments : List (List Char)}
      {parameters : List String} : IsName name → (∀ c ∈ blanks, isBlank c) →
      Segments body segments → Holds segments parameters → rest ≠ [] →
      Unwritten (name ++ blanks ++ '(' :: (body ++ ')' :: rest)) .trailing

theorem Segments.body {body : List Char} {segments : List (List Char)}
    (h : Segments body segments) : Body body := by
  have segment {s cs : List Char} (hs : Segment s) (hcs : Body cs) : Body (s ++ cs) := by
    induction hs with
    | nil => exact hcs
    | cons hitem _ _ ih =>
      rw [List.append_assoc]
      exact .cons hitem ih
  induction h with
  | @last s hs =>
    rw [← List.append_nil s]
    exact segment hs .nil
  | more hs _ ih => exact segment hs (.cons (.plain (by decide) (by decide) (by decide)) ih)

theorem Body.inductionOn {P : ∀ body, Body body → Prop} (nil : P [] .nil)
    (cons : ∀ {item cs} (hitem : Item item) (hcs : Body cs), P cs hcs →
      P (item ++ cs) (.cons hitem hcs)) {body : List Char} (h : Body body) : P body h :=
  @Body.rec (fun _ _ => True) P (fun _ _ => trivial) (fun _ => trivial) (fun _ _ _ => trivial) nil
    (fun hitem hcs _ ih => cons hitem hcs ih) body h

theorem Body.segment_or_comma {body : List Char} (h : Body body) :
    Segment body ∨ ∃ s cs, body = s ++ ',' :: cs ∧ Segment s := by
  induction h using Body.inductionOn with
  | nil => exact .inl .nil
  | @cons item cs hitem _ ih =>
    by_cases hcomma : item = [',']
    · exact .inr ⟨[], cs, by rw [hcomma]; rfl, .nil⟩
    · obtain hcs | ⟨s, rest, rfl, hs⟩ := ih
      · exact .inl (.cons hitem hcomma hcs)
      · exact .inr ⟨item ++ s, rest, (List.append_assoc ..).symm, .cons hitem hcomma hs⟩

section Steps

variable {depth : Nat} {c : Char} {segment cs : List Char} {done : List String}

@[simp] theorem scan_quote : scan .outside depth segment done ('\x27' :: cs) =
    scan .inside depth ('\x27' :: segment) done cs := rfl

@[simp] theorem scan_quote_end : scan .inside depth segment done ('\x27' :: cs) =
    scan .outside depth ('\x27' :: segment) done cs := rfl

@[simp] theorem scan_escaped : scan .inside depth segment done ('\x5c' :: c :: cs) =
    scan .inside depth (c :: '\x5c' :: segment) done cs := rfl

theorem scan_quoted (hquote : c ≠ '\x27') (hbackslash : c ≠ '\x5c') :
    scan .inside depth segment done (c :: cs) = scan .inside depth (c :: segment) done cs :=
  (if_neg hbackslash).trans (if_neg hquote)

@[simp] theorem scan_group : scan .outside depth segment done ('(' :: cs) =
    scan .outside (depth + 1) ('(' :: segment) done cs := rfl

@[simp] theorem scan_group_end : scan .outside (depth + 1) segment done (')' :: cs) =
    scan .outside depth (')' :: segment) done cs := rfl

theorem scan_plain (hopen : c ≠ '(') (hclose : c ≠ ')') (hquote : c ≠ '\x27')
    (hcomma : ¬(c = ',' ∧ depth = 0)) :
    scan .outside depth segment done (c :: cs) = scan .outside depth (c :: segment) done cs :=
  (if_neg hquote).trans ((if_neg hopen).trans ((if_neg hclose).trans (if_neg hcomma)))

theorem scan_comma : scan .outside 0 segment.reverse done (',' :: cs) =
    match trim segment with
    | [] => .error .emptyParameter
    | value => scan .outside 0 [] (String.ofList value :: done) cs := by
  conv => rhs; rw [← List.reverse_reverse segment]
  rfl

theorem scan_close : scan .outside 0 segment.reverse done (')' :: cs) =
    match trim segment, done with
    | [], [] => .ok ([], cs)
    | [], _ :: _ => .error .emptyParameter
    | last, done => .ok ((String.ofList last :: done).reverse, cs) := by
  conv => rhs; rw [← List.reverse_reverse segment]
  rfl

theorem scan_next (h : trim segment ≠ []) : scan .outside 0 segment.reverse done (',' :: cs) =
    scan .outside 0 [] (String.ofList (trim segment) :: done) cs := by
  obtain ⟨c, value, htrim⟩ := List.exists_cons_of_ne_nil h
  rw [scan_comma, htrim]

theorem scan_missing (h : trim segment = []) :
    scan .outside 0 segment.reverse done (',' :: cs) = .error .emptyParameter := by
  rw [scan_comma, h]

theorem scan_last (h : trim segment ≠ []) : scan .outside 0 segment.reverse done (')' :: cs) =
    .ok ((String.ofList (trim segment) :: done).reverse, cs) := by
  obtain ⟨c, value, htrim⟩ := List.exists_cons_of_ne_nil h
  rw [scan_close, htrim]

theorem scan_none (h : trim segment = []) :
    scan .outside 0 segment.reverse [] (')' :: cs) = .ok ([], cs) := by
  rw [scan_close, h]

theorem scan_missing_last (h : trim segment = []) (hdone : done ≠ []) :
    scan .outside 0 segment.reverse done (')' :: cs) = .error .emptyParameter := by
  obtain ⟨value, values, rfl⟩ := List.exists_cons_of_ne_nil hdone
  rw [scan_close, h]

end Steps

def Passes (depth : Nat) (cs : List Char) : Prop :=
  ∀ segment done rest, scan .outside depth segment done (cs ++ rest) =
    scan .outside depth (cs.reverse ++ segment) done rest

namespace Passes

variable {depth : Nat} {cs cs' : List Char}

theorem nil (depth : Nat) : Passes depth [] := fun _ _ _ => rfl

theorem append (h : Passes depth cs) (h' : Passes depth cs') : Passes depth (cs ++ cs') := by
  intro segment done rest
  rw [List.append_assoc, h, h', List.reverse_append, List.append_assoc]

theorem group (h : Passes (depth + 1) cs) : Passes depth ('(' :: cs ++ [')']) := by
  intro segment done rest
  have inner := h ('(' :: segment) done (')' :: rest)
  simp [inner]

theorem literal (h : Quoted cs) (depth : Nat) : Passes depth ('\x27' :: cs) := by
  intro segment done rest
  have inside (segment : List Char) : scan .inside depth segment done (cs ++ rest) =
      scan .outside depth (cs.reverse ++ segment) done rest := by
    induction h generalizing segment with
    | close => rfl
    | escaped c _ ih => simp [ih]
    | plain hquote hbackslash _ ih => simp [scan_quoted hquote hbackslash, ih]
  simp [inside]

theorem plain {c : Char} (hopen : c ≠ '(') (hclose : c ≠ ')') (hquote : c ≠ '\x27')
    (hcomma : ¬(c = ',' ∧ depth = 0)) : Passes depth [c] :=
  fun _ _ _ => scan_plain hopen hclose hquote hcomma

end Passes

theorem Body.passes {body : List Char} (h : Body body) (depth : Nat) : Passes (depth + 1) body :=
  @Body.rec (fun item _ => ∀ depth, Passes (depth + 1) item)
    (fun body _ => ∀ depth, Passes (depth + 1) body)
    (fun _ ih depth => (ih (depth + 1)).group) (fun hq depth => .literal hq (depth + 1))
    (fun hopen hclose hquote _ => .plain hopen hclose hquote (fun h => nomatch h.2))
    (fun depth => .nil (depth + 1)) (fun _ _ ihitem ih depth => (ihitem depth).append (ih depth))
    body h depth

theorem Segment.passes {s : List Char} (h : Segment s) (depth : Nat) : Passes depth s := by
  induction h with
  | nil => exact .nil depth
  | cons hitem hne _ ih =>
    refine Passes.append ?_ ih
    cases hitem with
    | group hbody => exact (hbody.passes depth).group
    | literal hq => exact .literal hq depth
    | plain hopen hclose hquote =>
      exact .plain hopen hclose hquote fun h => hne (congrArg (fun c => [c]) h.1)

theorem scan_open_literal {cs : List Char} (h : ∀ q, q <+: cs → ¬Quoted q) (depth : Nat)
    (segment : List Char) (done : List String) :
    scan .inside depth segment done cs = .error .unterminated := by
  match cs with
  | [] => rfl
  | c :: cs =>
    have hquote : c ≠ '\x27' := by
      rintro rfl
      exact h _ (List.prefix_append ['\x27'] cs) .close
    by_cases hbackslash : c = '\x5c'
    · subst hbackslash
      match cs with
      | [] => rfl
      | c :: cs =>
        -- whatever is escaped, a quote too, the literal goes on behind it
        have tail (q : List Char) (hq : q <+: cs) : ¬Quoted q := fun hquoted =>
          h ('\x5c' :: c :: q) (by simpa using hq) (.escaped c hquoted)
        rw [scan_escaped, scan_open_literal tail]
    · have tail (q : List Char) (hq : q <+: cs) : ¬Quoted q := fun hquoted =>
        h (c :: q) (by simpa using hq) (.plain hquote hbackslash hquoted)
      rw [scan_quoted hquote hbackslash, scan_open_literal tail]

theorem Unclosed.scan {f : TextFault} {cs : List Char} (h : Unclosed f cs) (depth : Nat)
    (segment : List Char) (done : List String) :
    scan .outside depth segment done cs = .error f := by
  induction h generalizing depth segment with
  | list => rfl
  | group hbody _ ih =>
    have opened := hbody.passes depth ('(' :: segment) done
    rw [scan_group, opened, ih]
  | literal hopen => rw [scan_quote, scan_open_literal hopen]

theorem exists_body (cs : List Char) : ∃ body tail, cs = body ++ tail ∧ Body body ∧
    ((∃ f, Unclosed f tail) ∨ ∃ rest, tail = ')' :: rest) := by
  match cs with
  | [] => exact ⟨[], [], rfl, .nil, .inl ⟨_, .list⟩⟩
  | c :: cs =>
    have behind {item rest : List Char} (hitem : Item item) (hcs : c :: cs = item ++ rest)
        (shorter : rest.length < (c :: cs).length) : ∃ body tail, c :: cs = body ++ tail ∧
          Body body ∧ ((∃ f, Unclosed f tail) ∨ ∃ rest, tail = ')' :: rest) := by
      obtain ⟨body, tail, rfl, hbody, htail⟩ := exists_body rest
      exact ⟨item ++ body, tail, by rw [hcs, List.append_assoc], .cons hitem hbody, htail⟩
    by_cases hclose : c = ')'
    · exact ⟨[], c :: cs, rfl, .nil, .inr ⟨cs, by rw [hclose]⟩⟩
    · by_cases hquote : c = '\x27'
      · subst hquote
        by_cases hclosed : ∃ q, q <+: cs ∧ Quoted q
        · obtain ⟨q, ⟨rest, rfl⟩, hq⟩ := hclosed
          refine behind (.literal hq) rfl ?_
          rw [List.length_cons, List.length_append]
          omega
        · exact ⟨[], _, rfl, .nil, .inl ⟨_, .literal fun q hq h => hclosed ⟨q, hq, h⟩⟩⟩
      · by_cases hopen : c = '('
        · subst hopen
          obtain ⟨body, tail, rfl, hbody, ⟨f, hf⟩ | ⟨rest, rfl⟩⟩ := exists_body cs
          · exact ⟨[], _, rfl, .nil, .inl ⟨f, .group hbody hf⟩⟩
          · have hsplit : '(' :: (body ++ ')' :: rest) = '(' :: body ++ [')'] ++ rest := by simp
            refine behind (.group hbody) hsplit ?_
            rw [List.length_cons, List.length_append, List.length_cons]
            omega
        · exact behind (.plain hopen hclose hquote) (List.singleton_append ..).symm
            (Nat.lt_succ_self _)
termination_by cs.length
decreasing_by
  · exact shorter
  · exact Nat.lt_succ_self _

theorem exists_segment (cs : List Char) : ∃ s tail, cs = s ++ tail ∧ Segment s ∧
    ((∃ f, Unclosed f tail) ∨ ∃ stop rest, (stop = ')' ∨ stop = ',') ∧ tail = stop :: rest) := by
  obtain ⟨body, tail, rfl, hbody, htail⟩ := exists_body cs
  obtain hs | ⟨s, rest, rfl, hs⟩ := hbody.segment_or_comma
  · obtain hopen | ⟨rest, rfl⟩ := htail
    · exact ⟨body, tail, rfl, hs, .inl hopen⟩
    · exact ⟨body, _, rfl, hs, .inr ⟨')', rest, .inl rfl, rfl⟩⟩
  · exact ⟨s, ',' :: (rest ++ tail), by simp, hs, .inr ⟨',', _, .inr rfl, rfl⟩⟩

theorem listed_or_refused (first : Bool) (cs : List Char) :
    (∃ body segments rest, cs = body ++ ')' :: rest ∧ Segments body segments ∧
      ((∀ s ∈ segments, trim s ≠ []) ∨ first = true ∧ Holds segments [])) ∨
    ∃ f, Refused first cs f := by
  obtain ⟨s, tail, hcs, hs, ⟨f, hf⟩ | ⟨stop, rest, rfl | rfl, rfl⟩⟩ := exists_segment cs
  · exact .inr ⟨f, by rw [hcs]; exact .unclosed hs hf⟩
  · by_cases hblank : trim s = []
    · cases first with
      | true => exact .inl ⟨s, [s], rest, hcs, .last hs, .inr ⟨rfl, .none hblank⟩⟩
      | false => exact .inr ⟨_, by rw [hcs]; exact .blankLast hs hblank⟩
    · exact .inl ⟨s, [s], rest, hcs, .last hs, .inl (List.forall_mem_singleton.2 hblank)⟩
  · by_cases hblank : trim s = []
    · exact .inr ⟨_, by rw [hcs]; exact .blank hs hblank⟩
    · have shorter : rest.length < cs.length := by
        rw [hcs, List.length_append, List.length_cons]
        omega
      obtain ⟨body, segments, rest, rfl, hsegments, hholds⟩ | ⟨f, hf⟩ :=
        listed_or_refused false rest
      · have each := hholds.resolve_right fun h => nomatch h.1
        have hsplit : cs = s ++ ',' :: body ++ ')' :: rest := by
          rw [hcs, List.append_assoc, List.cons_append]
        exact .inl ⟨_, s :: segments, rest, hsplit, .more hs hsegments,
          .inl (List.forall_mem_cons.2 ⟨hblank, each⟩)⟩
      · exact .inr ⟨f, by rw [hcs]; exact .later hs hblank hf⟩
termination_by cs.length

theorem Segment.scan {s : List Char} (h : Segment s) (done : List String) (cs : List Char) :
    scan .outside 0 [] done (s ++ cs) = scan .outside 0 s.reverse done cs := by
  rw [h.passes 0, List.append_nil]

theorem scan_segments {body : List Char} {segments : List (List Char)}
    (h : Segments body segments) (hne : ∀ s ∈ segments, trim s ≠ []) (done : List String)
    (rest : List Char) : scan .outside 0 [] done (body ++ ')' :: rest) =
      .ok (done.reverse ++ segments.map fun s => String.ofList (trim s), rest) := by
  induction h generalizing done with
  | @last s hs =>
    rw [hs.scan, scan_last (hne s (List.mem_singleton_self s)), List.reverse_cons]
    rfl
  | @more s body segments hs _ ih =>
    rw [List.forall_mem_cons] at hne
    rw [List.append_assoc, List.cons_append, hs.scan, scan_next hne.1, ih hne.2,
      List.reverse_cons, List.append_assoc]
    rfl

theorem Holds.scan {body : List Char} {segments : List (List Char)} {parameters : List String}
    (h : Holds segments parameters) (hsegments : Segments body segments) (rest : List Char) :
    scan .outside 0 [] [] (body ++ ')' :: rest) = .ok (parameters, rest) := by
  cases h with
  | none hblank =>
    cases hsegments with
    | last hs => rw [hs.scan, scan_none hblank]
    | more _ hrest => cases hrest -- there are always segments behind a comma
  | each hne => exact scan_segments hsegments hne [] rest

theorem Refused.scan {first : Bool} {cs : List Char} {f : TextFault} (h : Refused first cs f)
    {done : List String} (hdone : first = false → done ≠ []) :
    scan .outside 0 [] done cs = .error f := by
  induction h generalizing done with
  | unclosed hs hf => rw [hs.scan, hf.scan]
  | blank hs hblank => rw [hs.scan, scan_missing hblank]
  | blankLast hs hblank => rw [hs.scan, scan_missing_last hblank (hdone rfl)]
  | later hs hne _ ih => rw [hs.scan, scan_next hne, ih fun _ => List.cons_ne_nil _ _]

theorem scan_cases (cs : List Char) : (∃ body segments parameters rest, cs = body ++ ')' :: rest ∧
    Segments body segments ∧ Holds segments parameters) ∨ ∃ f, Refused true cs f := by
  refine (listed_or_refused true cs).imp_left ?_
  rintro ⟨body, segments, rest, rfl, hsegments, hne | ⟨-, hblank⟩⟩
  · exact ⟨body, segments, _, rest, rfl, hsegments, .each hne⟩
  · exact ⟨body, segments, _, rest, rfl, hsegments, hblank⟩

theorem scan_eq_ok_iff {cs rest : List Char} {parameters : List String} :
    scan .outside 0 [] [] cs = .ok (parameters, rest) ↔ ∃ body segments,
      cs = body ++ ')' :: rest ∧ Segments body segments ∧ Holds segments parameters := by
  constructor
  · intro h
    obtain ⟨body, segments, held, tail, rfl, hsegments, hholds⟩ | ⟨f, hf⟩ := scan_cases cs
    · rw [hholds.scan hsegments] at h
      cases h
      exact ⟨body, segments, rfl, hsegments, hholds⟩
    · rw [hf.scan nofun] at h
      cases h
  · rintro ⟨body, segments, rfl, hsegments, hholds⟩
    exact hholds.scan hsegments rest

theorem spells_iff_written {cs : List Char} {d : Descriptor} : Spells cs d ↔ Written cs d := by
  constructor
  · rintro (hname | ⟨hname, hblanks, hscan⟩)
    · exact .bare hname
    · obtain ⟨body, segments, rfl, hsegments, hholds⟩ := scan_eq_ok_iff.1 hscan
      exact .listed hname hblanks hsegments.body hsegments hholds
  · rintro (hname | ⟨hname, hblanks, -, hsegments, hholds⟩)
    · exact .bare hname
    · exact .listed hname hblanks (scan_eq_ok_iff.2 ⟨_, _, rfl, hsegments, hholds⟩)

theorem trimEnd_blanks {blanks : List Char} (h : ∀ c ∈ blanks, isBlank c) : trimEnd blanks = [] :=
  @trimEnd_append_blanks [] blanks h

theorem checkName_of_not {name : List Char} (hne : name ≠ []) (h : ¬IsName name) :
    checkName name = .error .badName := by
  rw [checkName, if_neg (fun hnil => hne (List.isEmpty_iff.1 hnil)),
    if_neg fun hall => h ⟨hne, List.all_eq_true.1 hall⟩]

theorem Unwritten.ofTrimmed {cs : List Char} {f : TextFault} (h : Unwritten cs f) :
    ofTrimmed cs = .error f := by
  cases h with
  | empty => rfl
  | nameless hblanks =>
    rw [ofTrimmed_front (not_mem_of_isBlank hblanks), trimEnd_blanks hblanks]
    rfl
  | badName hopen hne hname =>
    rw [ofTrimmed_bare hopen, checkName_of_not hne hname]
    rfl
  | badFront hopen hne hname =>
    rw [ofTrimmed_front hopen, checkName_of_not hne hname]
    rfl
  | refused hname hblanks hcs =>
    rw [ofTrimmed_front (hname.not_mem_append hblanks), hname.trimEnd_append hblanks,
      checkName_eq_ok_iff.2 ⟨hname, rfl⟩, hcs.scan nofun]
    rfl
  | trailing hname hblanks hsegments hholds hrest =>
    obtain ⟨c, rest, rfl⟩ := List.exists_cons_of_ne_nil hrest
    rw [ofTrimmed_front (hname.not_mem_append hblanks), hname.trimEnd_append hblanks,
      checkName_eq_ok_iff.2 ⟨hname, rfl⟩, hholds.scan hsegments]
    rfl

theorem written_or_unwritten (cs : List Char) : (∃ d, Written cs d) ∨ ∃ f, Unwritten cs f := by
  by_cases hopen : '(' ∈ cs
  · obtain ⟨front, cs, rfl, hfront⟩ := List.eq_append_cons_of_mem hopen
    obtain ⟨blanks, hsplit, hblanks⟩ := trimEnd_split front
    by_cases hne : trimEnd front = []
    · rw [hne, List.nil_append] at hsplit
      exact .inr ⟨_, .nameless (hsplit ▸ hblanks)⟩
    · by_cases hname : IsName (trimEnd front)
      · rw [hsplit]
        obtain ⟨body, segments, parameters, rest, rfl, hsegments, hholds⟩ | ⟨f, hf⟩ := scan_cases cs
        · by_cases hrest : rest = []
          · subst hrest
            exact .inl ⟨_, .listed hname hblanks hsegments.body hsegments hholds⟩
          · exact .inr ⟨_, .trailing hname hblanks hsegments hholds hrest⟩
        · exact .inr ⟨f, .refused hname hblanks hf⟩
      · exact .inr ⟨_, .badFront hfront hne hname⟩
  · by_cases hne : cs = []
    · subst hne
      exact .inr ⟨_, .empty⟩
    · by_cases hname : IsName cs
      · exact .inl ⟨_, .bare hname⟩
      · exact .inr ⟨_, .badName hopen hne hname⟩

theorem ofTrimmed_eq_error_iff {cs : List Char} {f : TextFault} :
    Descriptor.ofTrimmed cs = .error f ↔ Unwritten cs f := by
  refine ⟨fun h => ?_, Unwritten.ofTrimmed⟩
  obtain ⟨d, hd⟩ | ⟨f', hf'⟩ := written_or_unwritten cs
  · rw [ofTrimmed_spelled (spells_iff_written.2 hd)] at h
    cases h
  · rw [hf'.ofTrimmed] at h
    exact Except.error.inj h ▸ hf'

/-- A text is parsed to what the grammar says it describes, and every other text is malformed, for
the reason that the grammar gives. -/
theorem parse_iff_grammar (text : String) :
    let cs := trim text.toList
    (∀ d, parse text = .ok d ↔ Written cs d) ∧
      ∀ f, parse text = .error f ↔ ∃ reason, Unwritten cs reason ∧
        f = .malformed (String.ofList cs) reason ∧ f.report.code = "TYPE_002" ∧
        f.report.message = "malformed type name '" ++ String.ofList cs ++ "': " ++ reason.text := by
  refine ⟨fun d => parse_eq_ok_iff.trans spells_iff_written, fun f => ?_⟩
  rw [parse]
  constructor
  · intro h
    cases hcs : ofTrimmed (trim text.toList) with
    | ok d =>
      rw [hcs] at h
      cases h
    | error reason =>
      rw [hcs] at h
      cases h
      exact ⟨reason, ofTrimmed_eq_error_iff.1 hcs, rfl, rfl, rfl⟩
  · rintro ⟨reason, hreason, rfl, -⟩
    rw [hreason.ofTrimmed]

theorem parse_iff_grammar_literals :
    Written (trim "\t E8 ( 'a,)\x5c'' = (1, 2), b) ".toList)
        ⟨"E8", ["'a,)\x5c'' = (1, 2)", "b"], "( 'a,)\x5c'' = (1, 2), b)"⟩ ∧
      Unwritten (trim "E8('a', (b, 'c)\x5c'".toList) .unterminated := by
  constructor
  · exact ((parse_iff_grammar _).1 _).1 rfl
  · obtain ⟨reason, hreason, hf, -⟩ := ((parse_iff_grammar "E8('a', (b, 'c)\x5c'").2 _).1 rfl
    cases hf
    exact hreason

end TypedColumn.Descriptor
