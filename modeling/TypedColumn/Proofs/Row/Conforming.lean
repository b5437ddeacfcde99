import TypedColumn.Proofs.FixedForm
import TypedColumn.Proofs.Row.Writing

namespace TypedColumn

namespace TextEncoding

def Represents : TextEncoding → Char → Prop
  | .utf8, _ => True
  | .latin1, c => c.toNat ≤ 0xff

theorem exists_encode?_iff {e : TextEncoding} {text : String} :
    (∃ bs, e.encode? text = some bs) ↔ ∀ c ∈ text.toList, e.Represents c := by
  cases e with
  | utf8 => exact ⟨fun _ _ _ => trivial, fun _ => ⟨_, rfl⟩⟩
  | latin1 =>
    rw [encode?, Text.toLatin1?]
    induction text.toList with
    | nil => exact ⟨fun _ => List.forall_mem_nil _, fun _ => ⟨[], rfl⟩⟩
    | cons c cs ih =>
      rw [List.forall_mem_cons, ← ih, List.mapM_cons]
      by_cases hc : c.toNat < 256
      · have small : Represents .latin1 c := Nat.le_of_lt_succ hc
        simp [hc, small, Option.bind_eq_some_iff]
      · have large : ¬ Represents .latin1 c := fun h => hc (Nat.lt_succ_of_le h)
        simp [hc, large]

end TextEncoding

namespace Layout

inductive Conforms : Layout → Value → Prop
  | number (n : Number) : Conforms (.number n.kind) (.number n)
  | text (text : String) : Conforms .string (.string text)
  | bytes (bs : Bytes) : Conforms .string (.bytes bs)
  | uuid (u : Uuid) : Conforms .uuid (.uuid u)
  | fixedBytes (name : String) (size : Nat) (form : FixedForm) (bs : Bytes) :
      Conforms (.fixedString name size form) (.bytes bs)
  | fixedText {name : String} {size : Nat} {form : FixedForm} {text : String} :
      (∀ c ∈ text.toList, form.encoding.Represents c) →
      Conforms (.fixedString name size form) (.string text)
  | nothing (v : Value) : Conforms .nothing v
  | null (name : String) (inner : Layout) : Conforms (.nullable name inner) .null
  | present {name : String} {inner : Layout} {v : Value} : Conforms inner v →
      Conforms (.nullable name inner) v
  | array {name : String} {element : Layout} {vs : List Value} : (∀ v ∈ vs, Conforms element v) →
      Conforms (.array name element) (.array vs)
  | tuple {name : String} {elements : List Layout} {vs : List Value} :
      List.Forall₂ Conforms elements vs → Conforms (.tuple name elements) (.tuple vs)
  | map {name : String} {key value : Layout} {ps : Pairs} : (∀ p ∈ ps, Conforms key p.1) →
      (∀ p ∈ ps, Conforms value p.2) → Conforms (.map name key value) (.map ps)
  | simpleAggregate {name : String} {inner : Layout} {v : Value} : Conforms inner v →
      Conforms (.simpleAggregate name inner) v

def Suits : Layout → Value.Kind → Prop
  | .number k, kind => kind = .number k
  | .string, kind => kind = .string ∨ kind = .bytes
  | .uuid, kind => kind = .uuid
  | .fixedString _ _ _, kind => kind = .string ∨ kind = .bytes
  | .array _ _, kind => kind = .array
  | .tuple _ _, kind => kind = .tuple
  | .map _ _ _, kind => kind = .map
  | _, _ => True

inductive Refuses : Layout → Value → Fault → Prop
  | mismatch {l : Layout} {v : Value} : ¬ l.Suits v.kind →
      Refuses l v (.mismatch l.typeName v.kind)
  | unencodable {name : String} {size : Nat} {form : FixedForm} {text : String} :
      ¬ (∀ c ∈ text.toList, form.encoding.Represents c) →
      Refuses (.fixedString name size form) (.string text) (.unencodable name form.encoding text)
  | arity {name : String} {elements : List Layout} {vs : List Value} :
      vs.length ≠ elements.length →
      Refuses (.tuple name elements) (.tuple vs) (.arity name elements.length vs.length)
  | unsupported (name : String) (v : Value) :
      Refuses (.aggregateState name) v (.unsupported name .writeRow)

/-- The fault of the first part that does not conform, all parts before it conforming. -/
inductive Fails : Layout → Value → Fault → Prop
  | here {l : Layout} {v : Value} {f : Fault} : Refuses l v f → Fails l v f
  | present {name : String} {inner : Layout} {v : Value} {f : Fault} : v ≠ .null →
      Fails inner v f → Fails (.nullable name inner) v f
  | array {name : String} {element : Layout} {vs ws : List Value} {v : Value} {f : Fault} :
      (∀ v ∈ vs, Conforms element v) → Fails element v f →
      Fails (.array name element) (.array (vs ++ v :: ws)) f
  | tuple {name : String} {ls ms : List Layout} {l : Layout} {vs ws : List Value} {v : Value}
      {f : Fault} : List.Forall₂ Conforms ls vs → ws.length = ms.length → Fails l v f →
      Fails (.tuple name (ls ++ l :: ms)) (.tuple (vs ++ v :: ws)) f
  | key {name : String} {key value : Layout} {ps qs : Pairs} {p : Value × Value} {f : Fault} :
      (∀ p ∈ ps, Conforms key p.1 ∧ Conforms value p.2) → Fails key p.1 f →
      Fails (.map name key value) (.map (ps ++ p :: qs)) f
  | value {name : String} {key value : Layout} {ps qs : Pairs} {p : Value × Value} {f : Fault} :
      (∀ p ∈ ps, Conforms key p.1 ∧ Conforms value p.2) → Conforms key p.1 → Fails value p.2 f →
      Fails (.map name key value) (.map (ps ++ p :: qs)) f
  | simpleAggregate {name : String} {inner : Layout} {v : Value} {f : Fault} : Fails inner v f →
      Fails (.simpleAggregate name inner) v f

theorem write_of_not_suits {l : Layout} {v : Value} (h : ¬ l.Suits v.kind) :
    l.write v = Writer.fail (.mismatch l.typeName v.kind) := by
  cases l with
  | number k =>
    cases v with
    | number n =>
      rw [write, if_neg fun hk => h (congrArg Value.Kind.number hk)]
      rfl
    | _ => rfl
  | string =>
    cases v with
    | string text => exact absurd (.inl rfl) h
    | bytes bs => exact absurd (.inr rfl) h
    | _ => rfl
  | uuid =>
    cases v with
    | uuid u => exact absurd rfl h
    | _ => rfl
  | fixedString name size form =>
    cases v with
    | string text => exact absurd (.inl rfl) h
    | bytes bs => exact absurd (.inr rfl) h
    | _ => rw [write]; rfl
  | array name element =>
    cases v with
    | array vs => exact absurd rfl h
    | _ => rfl
  | tuple name elements =>
    cases v with
    | tuple vs => exact absurd rfl h
    | _ => rfl
  | map name key value =>
    cases v with
    | map ps => exact absurd rfl h
    | _ => rfl
  | _ => exact absurd trivial h

theorem Refuses.ends {l : Layout} {v : Value} {f : Fault} (h : l.Refuses v f) :
    (l.write v).Ends (.error f) := by
  cases h with
  | mismatch hkind =>
    rw [write_of_not_suits hkind]
    exact Writer.ends_fail _
  | @unencodable name size form text hchars =>
    rw [← TextEncoding.exists_encode?_iff, not_exists] at hchars
    rw [write, writeFixed, Option.eq_none_iff_forall_ne_some.2 hchars]
    exact Writer.ends_fail _
  | arity hlen =>
    rw [write, if_neg hlen]
    exact Writer.ends_fail _
  | unsupported name v =>
    rw [write]
    exact Writer.ends_fail _

theorem ends_counted {α : Type} {w : α → Writer} {as : List α} {r : Except Fault Unit}
    (h : (Writer.forEach w as).Ends r) (n : Nat) :
    ((CountPrefix.write n).andThen (Writer.forEach w as)).Ends r :=
  (Writer.appends_append _).ends.andThen h

theorem ends_writeEach {ls : List Layout} {vs : List Value} (h : List.Forall₂ Conforms ls vs)
    (ih : ∀ l ∈ ls, ∀ {v}, l.Conforms v → (l.write v).Ends (.ok ())) :
    (writeEach ls vs).Ends (.ok ()) := by
  induction h with
  | nil =>
    unfold writeEach
    exact Writer.appends_skip.ends
  | cons hv _ ihs =>
    rw [List.forall_mem_cons] at ih
    rw [writeEach]
    exact (ih.1 hv).andThen (ihs ih.2)

theorem Conforms.ends {l : Layout} {v : Value} (h : l.Conforms v) :
    (l.write v).Ends (.ok ()) := by
  induction l generalizing v with
  | number k =>
    cases h with
    | number n =>
      rw [write, if_pos rfl]
      exact (Writer.appends_append _).ends
  | string =>
    cases h with
    | text text => exact (appends_writeString _).ends
    | bytes bs => exact (appends_writeString bs).ends
  | uuid =>
    cases h with
    | uuid u => exact (Writer.appends_append _).ends
  | fixedString name size form =>
    rw [write]
    cases h with
    | fixedBytes _ _ _ bs => exact (Writer.appends_append bs).ends
    | fixedText hchars =>
      obtain ⟨bs, hbs⟩ := TextEncoding.exists_encode?_iff.2 hchars
      rw [writeFixed, hbs]
      exact (Writer.appends_append bs).ends
  | nothing =>
    rw [write]
    exact Writer.appends_skip.ends
  | nullable name inner ih =>
    by_cases hv : v = .null
    · subst hv
      exact (Writer.appends_append [1]).ends
    · rw [write_nullable hv]
      cases h with
      | null => exact absurd rfl hv
      | present h => exact (Writer.appends_append [0]).ends.andThen (ih h)
  | array name element ih =>
    cases h with
    | array h => exact ends_counted (Writer.ends_forEach fun v hv => ih (h v hv)) _
  | tuple name elements ih =>
    cases h with
    | tuple h =>
      rw [write, if_pos h.length_eq.symm]
      exact ends_writeEach h fun l hl => ih l hl
  | map name key value ihk ihv =>
    cases h with
    | map hk hv =>
      refine ends_counted (Writer.ends_forEach fun p hp => ?_) _
      exact (ihk (hk p hp)).andThen (ihv (hv p hp))
  | aggregateState name => cases h
  | simpleAggregate name inner ih =>
    cases h with
    | simpleAggregate h =>
      rw [write]
      exact ih h

theorem ends_writeEach_of_error {ls ms : List Layout} {l : Layout} {vs ws : List Value} {v : Value}
    {f : Fault} (h : List.Forall₂ Conforms ls vs) (hf : (l.write v).Ends (.error f)) :
    (writeEach (ls ++ l :: ms) (vs ++ v :: ws)).Ends (.error f) := by
  induction h with
  | nil => exact hf.andThen_of_error _
  | cons hv _ ih => exact hv.ends.andThen ih

theorem Fails.ends {l : Layout} {v : Value} {f : Fault} (h : l.Fails v f) :
    (l.write v).Ends (.error f) := by
  induction h with
  | here h => exact h.ends
  | present hv _ ih =>
    rw [write_nullable hv]
    exact (Writer.appends_append [0]).ends.andThen ih
  | array hvs _ ih =>
    exact ends_counted (Writer.ends_forEach_of_error (fun v hv => (hvs v hv).ends) ih _) _
  | tuple hvs hlen _ ih =>
    rw [write, if_pos (by simp only [List.length_append, List.length_cons, hvs.length_eq, hlen])]
    exact ends_writeEach_of_error hvs ih
  | key hps _ ih =>
    refine ends_counted (Writer.ends_forEach_of_error (fun p hp => ?_) ?_ _) _
    · exact (hps p hp).1.ends.andThen (hps p hp).2.ends
    · exact ih.andThen_of_error _
  | value hps hkey _ ih =>
    refine ends_counted (Writer.ends_forEach_of_error (fun p hp => ?_) ?_ _) _
    · exact (hps p hp).1.ends.andThen (hps p hp).2.ends
    · exact hkey.ends.andThen ih
  | simpleAggregate _ ih =>
    rw [write]
    exact ih

def Judged (l : Layout) (v : Value) : Prop := l.Conforms v ∨ ∃ f, l.Fails v f

theorem judged_of_suits {l : Layout} {v : Value} (h : l.Suits v.kind → l.Judged v) :
    l.Judged v := by
  by_cases suits : l.Suits v.kind
  · exact h suits
  · exact .inr ⟨_, .here (.mismatch suits)⟩

theorem judged_array {element : Layout} (ih : ∀ v, element.Judged v) (name : String)
    (vs : List Value) : Judged (.array name element) (.array vs) := by
  obtain all | ⟨front, v, back, rfl, hfront, f, hf⟩ := forall_or_first ih vs
  · exact .inl (.array all)
  · exact .inr ⟨f, .array hfront hf⟩

theorem judged_tuple {elements : List Layout} (ih : ∀ l ∈ elements, ∀ v, l.Judged v)
    (name : String) (vs : List Value) : Judged (.tuple name elements) (.tuple vs) := by
  by_cases hlen : vs.length = elements.length
  · obtain all | ⟨ls, l, ms, ws, v, xs, rfl, rfl, hback, hfront, f, hf⟩ := forall₂_or_first ih hlen
    · exact .inl (.tuple all)
    · exact .inr ⟨f, .tuple hfront hback hf⟩
  · exact .inr ⟨_, .here (.arity hlen)⟩

theorem judged_map {key value : Layout} (ihk : ∀ v, key.Judged v) (ihv : ∀ v, value.Judged v)
    (name : String) (ps : Pairs) : Judged (.map name key value) (.map ps) := by
  have pair (p : Value × Value) : (Conforms key p.1 ∧ Conforms value p.2) ∨
      ((∃ f, Fails key p.1 f) ∨ Conforms key p.1 ∧ ∃ f, Fails value p.2 f) := by
    obtain hk | hk := ihk p.1
    · exact (ihv p.2).imp (And.intro hk) fun hv => .inr ⟨hk, hv⟩
    · exact .inr (.inl hk)
  obtain all | ⟨front, p, back, rfl, hfront, ⟨f, hf⟩ | ⟨hk, f, hf⟩⟩ := forall_or_first pair ps
  · exact .inl (.map (fun p hp => (all p hp).1) fun p hp => (all p hp).2)
  · exact .inr ⟨f, .key hfront hf⟩
  · exact .inr ⟨f, .value hfront hk hf⟩

theorem judged (l : Layout) (v : Value) : l.Judged v := by
  induction l generalizing v with
  | number k =>
    refine judged_of_suits fun suits => ?_
    cases v with
    | number n =>
      cases suits
      exact .inl (.number n)
    | _ => cases suits
  | string =>
    refine judged_of_suits fun suits => ?_
    cases v with
    | string text => exact .inl (.text text)
    | bytes bs => exact .inl (.bytes bs)
    | _ => rcases suits with h | h <;> cases h
  | uuid =>
    refine judged_of_suits fun suits => ?_
    cases v with
    | uuid u => exact .inl (.uuid u)
    | _ => cases suits
  | fixedString name size form =>
    refine judged_of_suits fun suits => ?_
    cases v with
    | string text =>
      by_cases hchars : ∀ c ∈ text.toList, form.encoding.Represents c
      · exact .inl (.fixedText hchars)
      · exact .inr ⟨_, .here (.unencodable hchars)⟩
    | bytes bs => exact .inl (.fixedBytes name size form bs)
    | _ => rcases suits with h | h <;> cases h
  | nothing => exact .inl (.nothing v)
  | nullable name inner ih =>
    by_cases hv : v = .null
    · exact .inl (hv ▸ .null name inner)
    · exact (ih v).imp .present fun ⟨f, hf⟩ => ⟨f, .present hv hf⟩
  | array name element ih =>
    refine judged_of_suits fun suits => ?_
    cases v with
    | array vs => exact judged_array ih name vs
    | _ => cases suits
  | tuple name elements ih =>
    refine judged_of_suits fun suits => ?_
    cases v with
    | tuple vs => exact judged_tuple ih name vs
    | _ => cases suits
  | map name key value ihk ihv =>
    refine judged_of_suits fun suits => ?_
    cases v with
    | map ps => exact judged_map ihk ihv name ps
    | _ => cases suits
  | aggregateState name => exact .inr ⟨_, .here (.unsupported name v)⟩
  | simpleAggregate name inner ih =>
    exact (ih v).imp .simpleAggregate fun ⟨f, hf⟩ => ⟨f, .simpleAggregate hf⟩

/-- Writing appends what does not depend on the bytes that are there, with an outcome that does not
either: success when the value conforms, and otherwise the fault of its first part that does not. -/
theorem write_outcome (l : Layout) (v : Value) :
    ∃ r bs, (∀ out, l.write v out = (r, out ++ bs)) ∧ (r = .ok () ↔ l.Conforms v) ∧
      ∀ f, r = .error f ↔ l.Fails v f := by
  obtain ⟨r, bs, hwrite⟩ := framed_write l v
  have ends : (l.write v).Ends r := ⟨bs, hwrite⟩
  refine ⟨r, bs, hwrite, ⟨?_, fun h => ends.unique h.ends⟩,
    fun f => ⟨?_, fun h => ends.unique h.ends⟩⟩
  · rintro rfl
    obtain h | ⟨f, hf⟩ := judged l v
    · exact h
    · cases ends.unique hf.ends
  · rintro rfl
    obtain h | ⟨f', hf⟩ := judged l v
    · cases ends.unique h.ends
    · cases ends.unique hf.ends
      exact hf

example : (Layout.tuple "Tuple(Bool, String)" [.number .bool, .string]).write
    (.tuple [.number (.bool true), .null]) [9] = (.error (.mismatch "String" .null), [9, 1]) := rfl

end Layout

end TypedColumn
