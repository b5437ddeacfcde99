import Mathlib.Data.List.TakeWhile
import TypedColumn.Construction
import TypedColumn.Proofs.Partners

namespace TypedColumn

variable {α β : Type}

theorem except_bind_eq_ok_iff {x : Except Fault α} {f : α → Except Fault β} {b : β} :
    (x >>= f) = .ok b ↔ ∃ a, x = .ok a ∧ f a = .ok b := by
  cases x with
  | error e => exact ⟨fun h => (nomatch h), fun ⟨_, h, _⟩ => (nomatch h)⟩
  | ok a =>
    constructor
    · intro h
      exact ⟨a, rfl, h⟩
    · rintro ⟨_, h, hf⟩
      cases h
      exact hf

theorem mapM_eq_ok_iff {f : α → Except Fault β} {as : List α} {bs : List β} :
    as.mapM f = .ok bs ↔ List.Forall₂ (fun a b => f a = .ok b) as bs := by
  induction as generalizing bs with
  | nil =>
    rw [List.mapM_nil, List.forall₂_nil_left_iff]
    exact ⟨fun h => (Except.ok.inj h).symm, fun h => congrArg _ h.symm⟩
  | cons a as ih =>
    rw [List.mapM_cons, except_bind_eq_ok_iff, List.forall₂_cons_left_iff]
    constructor
    · rintro ⟨b, hb, hrest⟩
      obtain ⟨bs, hbs, hpure⟩ := except_bind_eq_ok_iff.1 hrest
      exact ⟨b, bs, hb, ih.1 hbs, (Except.ok.inj hpure).symm⟩
    · rintro ⟨b, bs, hb, hbs, rfl⟩
      exact ⟨b, hb, except_bind_eq_ok_iff.2 ⟨bs, ih.2 hbs, rfl⟩⟩

theorem except_bind_eq_error_iff {x : Except Fault α} {f : α → Except Fault β} {e : Fault} :
    (x >>= f) = .error e ↔ x = .error e ∨ ∃ a, x = .ok a ∧ f a = .error e := by
  cases x with
  | error e' =>
    constructor
    · intro h
      exact .inl (congrArg _ (Except.error.inj h))
    · rintro (h | ⟨_, h, _⟩)
      · exact congrArg _ (Except.error.inj h)
      · nomatch h
  | ok a =>
    constructor
    · intro h
      exact .inr ⟨a, rfl, h⟩
    · rintro (h | ⟨_, h, hf⟩)
      · nomatch h
      · cases h
        exact hf

theorem exists_of_mapM_eq_error {f : α → Except Fault β} {as : List α} {e : Fault}
    (h : as.mapM f = .error e) : ∃ a ∈ as, f a = .error e := by
  induction as with
  | nil =>
    rw [List.mapM_nil] at h
    cases h
  | cons a as ih =>
    rw [List.mapM_cons, except_bind_eq_error_iff] at h
    obtain h | ⟨b, -, hrest⟩ := h
    · exact ⟨a, List.mem_cons_self .., h⟩
    · obtain hrest | ⟨bs, -, hpure⟩ := except_bind_eq_error_iff.1 hrest
      · obtain ⟨a', ha', hf⟩ := ih hrest
        exact ⟨a', List.mem_cons_of_mem a ha', hf⟩
      · cases hpure

theorem Text.toNat?_eq_some_iff {cs : List Char} {n : Nat} :
    toNat? cs = some n ↔ cs ≠ [] ∧ (∀ c ∈ cs, c.isDigit) ∧ ofDigits cs = n := by
  have whole : cs.takeWhile Char.isDigit ++ cs.dropWhile Char.isDigit = cs :=
    List.takeWhile_append_dropWhile
  rw [toNat?, digits?]
  constructor
  · intro h
    cases hdigits : cs.takeWhile Char.isDigit with
    | nil => simp [hdigits] at h
    | cons d ds =>
      cases hrest : cs.dropWhile Char.isDigit with
      | cons c rest => simp [hdigits, hrest] at h
      | nil =>
        simp only [hdigits, hrest, Option.some.injEq] at h
        rw [hdigits, hrest, List.append_nil] at whole
        refine ⟨whole ▸ List.cons_ne_nil d ds, fun c hc => ?_, whole ▸ h⟩
        rw [← whole, ← hdigits] at hc
        exact List.mem_takeWhile_imp hc
  · rintro ⟨hne, hall, rfl⟩
    rw [List.takeWhile_eq_self_iff.2 hall, List.dropWhile_eq_nil_iff.2 hall]
    cases cs with
    | nil => exact absurd rfl hne
    | cons c cs => rfl

namespace Descriptor

def SpellsSize (text : String) (size : Nat) : Prop :=
  ∃ ds : List Char, (text.toList = ds ∨ text.toList = '+' :: ds) ∧ ds ≠ [] ∧
    (∀ d ∈ ds, d.isDigit) ∧ Nat.ofDigitChars 10 ds 0 = size ∧ 1 ≤ size ∧ size ≤ greatestWord

theorem size?_eq_some_iff {text : String} {size : Nat} :
    size? text = some size ↔ SpellsSize text size := by
  rw [size?, Option.bind_eq_bind, Option.bind_eq_some_iff]
  constructor
  · rintro ⟨n, hn, hrange⟩
    split at hrange
    · rename_i hle
      cases hrange
      rw [Text.toNat?_eq_some_iff] at hn
      split at hn
      · rename_i ds htext
        exact ⟨ds, .inr htext, hn.1, hn.2.1, hn.2.2, hle⟩
      · exact ⟨text.toList, .inl rfl, hn.1, hn.2.1, hn.2.2, hle⟩
    · cases hrange
  · rintro ⟨ds, htext, hne, hall, hvalue, hle⟩
    refine ⟨size, ?_, if_pos hle⟩
    rw [Text.toNat?_eq_some_iff]
    split
    · rename_i ds' hsign
      obtain htext | htext := htext
      · -- a sign is no digit
        rw [hsign] at htext
        exact absurd (hall '+' (htext ▸ List.mem_cons_self ..)) (by decide)
      · obtain rfl : ds = ds' := by simpa [hsign] using htext.symm
        exact ⟨hne, hall, hvalue⟩
    · rename_i hno
      obtain rfl | htext := htext
      · exact ⟨hne, hall, hvalue⟩
      · exact absurd htext (hno ds)

theorem size?_pos {text : String} {size : Nat} (h : size? text = some size) : 0 < size := by
  obtain ⟨_, _, _, _, _, hpos, _⟩ := size?_eq_some_iff.1 h
  exact hpos

theorem expect_eq_ok_iff {d : Descriptor} {count : Nat} :
    d.expect count = .ok () ↔ d.parameters.length = count := by
  rw [expect]
  split
  · rename_i h
    exact ⟨fun _ => h, fun _ => rfl⟩
  · rename_i h
    exact ⟨fun h' => (nomatch h'), fun h' => absurd h' h⟩

end Descriptor

namespace Layout

def IsArray : Layout → Prop
  | .array _ _ => True
  | _ => False

def IsNullable : Layout → Prop
  | .nullable _ _ => True
  | _ => False

end Layout

namespace Form

variable {scope : Scope} {d : Descriptor} {l : Layout}

/-- What a form builds of a descriptor, when a parameter may stand for a layout as `Stands` says. -/
inductive Builds (form : FixedForm) (Stands : String → Layout → Prop) (d : Descriptor) :
    Form → Layout → Prop
  | number {k : NumberKind} : NumberKind.ofName? d.name = some k → d.parameters = [] →
      Builds form Stands d .number (.number k)
  | string : d.parameters = [] → Builds form Stands d .string .string
  | uuid : d.parameters = [] → Builds form Stands d .uuid .uuid
  | fixedString {p : String} {size : Nat} : d.parameters = [p] → Descriptor.size? p = some size →
      Builds form Stands d .fixedString (.fixedString d.text size form)
  | nothing : d.parameters = [] → Builds form Stands d .nothing .nothing
  | nullable {p : String} {inner : Layout} : d.parameters = [p] → Stands p inner →
      ¬inner.IsNullable → Builds form Stands d .nullable (.nullable d.text inner)
  | array {p : String} {e : Descriptor} {element : Layout} : d.parameters = [p] →
      Descriptor.parse p = .ok e → e.name ≠ "Array" → Stands p element → ¬element.IsArray →
      Builds form Stands d .array (.array d.text element)
  | tuple {elements : List Layout} : d.parameters ≠ [] →
      List.Forall₂ Stands d.parameters elements →
      Builds form Stands d .tuple (.tuple d.text elements)
  | map {p q : String} {key value : Layout} : d.parameters = [p, q] → Stands p key →
      Stands q value → Builds form Stands d .map (.map d.text key value)
  | aggregateState : d.parameters ≠ [] →
      Builds form Stands d .aggregateState (.aggregateState d.text)
  | simpleAggregate {f p : String} {rest : List String} {inner : Layout} :
      d.parameters = f :: p :: rest → Stands p inner →
      Builds form Stands d .simpleAggregate (.simpleAggregate d.text inner)

theorem expect_zero_iff {m : Layout} :
    (do d.expect 0; return m) = .ok l ↔ d.parameters = [] ∧ m = l := by
  rw [except_bind_eq_ok_iff, ← List.length_eq_zero_iff, ← Descriptor.expect_eq_ok_iff]
  exact ⟨fun ⟨_, h, hpure⟩ => ⟨h, Except.ok.inj hpure⟩, fun ⟨h, hpure⟩ => ⟨(), h, congrArg _ hpure⟩⟩

theorem fixedStringOf_eq_ok_iff {form : FixedForm} : Layout.fixedStringOf form d = .ok l ↔
    ∃ p size, d.parameters = [p] ∧ Descriptor.size? p = some size ∧
      l = .fixedString d.text size form := by
  rw [Layout.fixedStringOf, except_bind_eq_ok_iff]
  constructor
  · rintro ⟨_, hcount, hrest⟩
    obtain ⟨p, hp⟩ := List.length_eq_one_iff.1 (Descriptor.expect_eq_ok_iff.1 hcount)
    rw [hp] at hrest
    cases hsize : Descriptor.size? p with
    | none => simp [hsize] at hrest
    | some size =>
      simp only [List.head?_cons, Option.bind_some, hsize] at hrest
      exact ⟨p, size, hp, hsize, (Except.ok.inj hrest).symm⟩
  · rintro ⟨p, size, hp, hsize, rfl⟩
    refine ⟨(), Descriptor.expect_eq_ok_iff.2 (by rw [hp]; rfl), ?_⟩
    simp only [hp, List.head?_cons, Option.bind_some, hsize]
    rfl

theorem nullableOf_eq_ok_iff : Layout.nullableOf scope d = .ok l ↔
    ∃ p inner, d.parameters = [p] ∧ scope.resolve p = .ok inner ∧ ¬inner.IsNullable ∧
      l = .nullable d.text inner := by
  rw [Layout.nullableOf]
  split
  · rename_i p hp
    rw [except_bind_eq_ok_iff]
    constructor
    · rintro ⟨inner, hinner, hrest⟩
      split at hrest
      · nomatch hrest
      · rename_i hkind
        refine ⟨p, inner, hp, hinner, fun h => ?_, (Except.ok.inj hrest).symm⟩
        cases inner with
        | nullable name inner => exact hkind name inner rfl
        | _ => exact h
    · rintro ⟨p', inner, hp', hinner, hkind, rfl⟩
      obtain rfl : p = p' := by simpa [hp] using hp'
      refine ⟨inner, hinner, ?_⟩
      cases inner with
      | nullable name inner => exact absurd trivial hkind
      | _ => rfl
  · rename_i hp
    exact ⟨fun h => (nomatch h), fun ⟨p, _, hp', _⟩ => absurd hp' (hp p)⟩

theorem arrayOf_eq_ok_iff : Layout.arrayOf scope d = .ok l ↔
    ∃ p e element, d.parameters = [p] ∧ Descriptor.parse p = .ok e ∧ e.name ≠ "Array" ∧
      scope.resolve p = .ok element ∧ ¬element.IsArray ∧ l = .array d.text element := by
  rw [Layout.arrayOf]
  split
  · rename_i p hp
    rw [except_bind_eq_ok_iff]
    constructor
    · rintro ⟨e, he, hrest⟩
      split at hrest
      · nomatch hrest
      · rename_i hname
        obtain ⟨element, helement, hkind⟩ := except_bind_eq_ok_iff.1 hrest
        split at hkind
        · nomatch hkind
        · rename_i hno
          refine ⟨p, e, element, hp, he, hname, helement, fun h => ?_, (Except.ok.inj hkind).symm⟩
          cases element with
          | array name element => exact hno name element rfl
          | _ => exact h
    · rintro ⟨p', e, element, hp', he, hname, helement, hkind, rfl⟩
      obtain rfl : p = p' := by simpa [hp] using hp'
      refine ⟨e, he, ?_⟩
      rw [if_neg hname, except_bind_eq_ok_iff]
      refine ⟨element, helement, ?_⟩
      cases element with
      | array name element => exact absurd trivial hkind
      | _ => rfl
  · rename_i hp
    exact ⟨fun h => (nomatch h), fun ⟨p, _, _, hp', _⟩ => absurd hp' (hp p)⟩

theorem tupleOf_eq_ok_iff : Layout.tupleOf scope d = .ok l ↔
    ∃ elements, d.parameters ≠ [] ∧
      List.Forall₂ (fun p m => scope.resolve p = .ok m) d.parameters elements ∧
      l = .tuple d.text elements := by
  rw [Layout.tupleOf]
  split
  · rename_i hnone
    rw [List.isEmpty_iff] at hnone
    exact ⟨fun h => (nomatch h), fun ⟨_, hsome, _⟩ => absurd hnone hsome⟩
  · rename_i hsome
    rw [List.isEmpty_iff] at hsome
    rw [except_bind_eq_ok_iff]
    constructor
    · rintro ⟨elements, helements, hpure⟩
      exact ⟨elements, hsome, mapM_eq_ok_iff.1 helements, (Except.ok.inj hpure).symm⟩
    · rintro ⟨elements, -, helements, rfl⟩
      exact ⟨elements, mapM_eq_ok_iff.2 helements, rfl⟩

theorem mapOf_eq_ok_iff : Layout.mapOf scope d = .ok l ↔
    ∃ p q key value, d.parameters = [p, q] ∧ scope.resolve p = .ok key ∧
      scope.resolve q = .ok value ∧ l = .map d.text key value := by
  rw [Layout.mapOf]
  split
  · rename_i p q hp
    rw [except_bind_eq_ok_iff]
    constructor
    · rintro ⟨key, hkey, hrest⟩
      obtain ⟨value, hvalue, hpure⟩ := except_bind_eq_ok_iff.1 hrest
      exact ⟨p, q, key, value, hp, hkey, hvalue, (Except.ok.inj hpure).symm⟩
    · rintro ⟨p', q', key, value, hp', hkey, hvalue, rfl⟩
      obtain ⟨rfl, rfl⟩ : p = p' ∧ q = q' := by simpa [hp] using hp'
      exact ⟨key, hkey, except_bind_eq_ok_iff.2 ⟨value, hvalue, rfl⟩⟩
  · rename_i hp
    exact ⟨fun h => (nomatch h), fun ⟨p, q, _, _, hp', _⟩ => absurd hp' (hp p q)⟩

theorem simpleAggregateOf_eq_ok_iff : Layout.simpleAggregateOf scope d = .ok l ↔
    ∃ f p rest inner, d.parameters = f :: p :: rest ∧ scope.resolve p = .ok inner ∧
      l = .simpleAggregate d.text inner := by
  rw [Layout.simpleAggregateOf]
  split
  · rename_i f p rest hp
    rw [except_bind_eq_ok_iff]
    constructor
    · rintro ⟨inner, hinner, hpure⟩
      exact ⟨f, p, rest, inner, hp, hinner, (Except.ok.inj hpure).symm⟩
    · rintro ⟨f', p', rest', inner, hp', hinner, rfl⟩
      obtain ⟨rfl, rfl, rfl⟩ : f = f' ∧ p = p' ∧ rest = rest' := by simpa [hp] using hp'
      exact ⟨inner, hinner, rfl⟩
  · rename_i hp
    exact ⟨fun h => (nomatch h), fun ⟨f, p, rest, _, hp', _⟩ => absurd hp' (hp f p rest)⟩

theorem construct_eq_ok_iff {form : Form} : form.construct scope d = .ok l ↔
    Builds scope.settings.fixedString (fun p m => scope.resolve p = .ok m) d form l := by
  cases form with
  | number =>
    rw [construct, Layout.numberOf]
    constructor
    · intro h
      split at h
      · nomatch h
      · rename_i k hk
        obtain ⟨hp, rfl⟩ := expect_zero_iff.1 h
        exact .number hk hp
    · rintro ⟨hk, hp⟩
      simp only [hk]
      exact expect_zero_iff.2 ⟨hp, rfl⟩
  | string =>
    rw [construct, expect_zero_iff]
    exact ⟨fun ⟨hp, h⟩ => h ▸ .string hp, fun h => by cases h with | string hp => exact ⟨hp, rfl⟩⟩
  | uuid =>
    rw [construct, expect_zero_iff]
    exact ⟨fun ⟨hp, h⟩ => h ▸ .uuid hp, fun h => by cases h with | uuid hp => exact ⟨hp, rfl⟩⟩
  | fixedString =>
    rw [construct, fixedStringOf_eq_ok_iff]
    constructor
    · rintro ⟨p, size, hp, hsize, rfl⟩
      exact .fixedString hp hsize
    · intro h
      cases h with
      | fixedString hp hsize => exact ⟨_, _, hp, hsize, rfl⟩
  | nothing =>
    rw [construct, expect_zero_iff]
    exact ⟨fun ⟨hp, h⟩ => h ▸ .nothing hp, fun h => by cases h with | nothing hp => exact ⟨hp, rfl⟩⟩
  | nullable =>
    rw [construct, nullableOf_eq_ok_iff]
    constructor
    · rintro ⟨p, inner, hp, hinner, hkind, rfl⟩
      exact .nullable hp hinner hkind
    · intro h
      cases h with
      | nullable hp hinner hkind => exact ⟨_, _, hp, hinner, hkind, rfl⟩
  | array =>
    rw [construct, arrayOf_eq_ok_iff]
    constructor
    · rintro ⟨p, e, element, hp, he, hname, helement, hkind, rfl⟩
      exact .array hp he hname helement hkind
    · intro h
      cases h with
      | array hp he hname helement hkind => exact ⟨_, _, _, hp, he, hname, helement, hkind, rfl⟩
  | tuple =>
    rw [construct, tupleOf_eq_ok_iff]
    constructor
    · rintro ⟨elements, hsome, helements, rfl⟩
      exact .tuple hsome helements
    · intro h
      cases h with
      | tuple hsome helements => exact ⟨_, hsome, helements, rfl⟩
  | map =>
    rw [construct, mapOf_eq_ok_iff]
    constructor
    · rintro ⟨p, q, key, value, hp, hkey, hvalue, rfl⟩
      exact .map hp hkey hvalue
    · intro h
      cases h with
      | map hp hkey hvalue => exact ⟨_, _, _, _, hp, hkey, hvalue, rfl⟩
  | aggregateState =>
    rw [construct, Layout.aggregateStateOf]
    constructor
    · intro h
      split at h
      · nomatch h
      · rename_i hsome
        exact Except.ok.inj h ▸ .aggregateState fun hnone => hsome (List.isEmpty_iff.2 hnone)
    · intro h
      cases h with
      | aggregateState hsome => rw [if_neg fun hnone => hsome (List.isEmpty_iff.1 hnone)]
  | simpleAggregate =>
    rw [construct, simpleAggregateOf_eq_ok_iff]
    constructor
    · rintro ⟨f, p, rest, inner, hp, hinner, rfl⟩
      exact .simpleAggregate hp hinner
    · intro h
      cases h with
      | simpleAggregate hp hinner => exact ⟨_, _, _, _, hp, hinner, rfl⟩

inductive Refuses (Fails : String → Fault → Prop) (d : Descriptor) : Fault → Prop
  | parameter (reason : ParameterFault) : Refuses Fails d (.parameter d.text reason)
  | nestedNullable : Refuses Fails d (.nestedNullable d.text)
  | nestedArray : Refuses Fails d (.nestedArray d.text)
  | passed {p : String} {f : Fault} : p ∈ d.parameters → Fails p f → Refuses Fails d f

theorem refuses_expect {Fails : String → Fault → Prop} {count : Nat} {f : Fault}
    {g : Unit → Except Fault Layout} (h : (d.expect count >>= g) = .error f)
    (hg : g () = .error f → Refuses Fails d f) : Refuses Fails d f := by
  obtain h | ⟨_, -, h⟩ := except_bind_eq_error_iff.1 h
  · rw [Descriptor.expect] at h
    split at h
    · cases h
    · cases h
      exact .parameter _
  · exact hg h

theorem refuses_of_construct {form : Form} {f : Fault} (h : form.construct scope d = .error f) :
    Refuses (fun p f => scope.resolve p = .error f) d f := by
  cases form with
  | number =>
    rw [construct, Layout.numberOf] at h
    split at h
    · cases h
      exact .parameter _
    · exact refuses_expect h fun h => (nomatch h)
  | string => exact refuses_expect h fun h => (nomatch h)
  | uuid => exact refuses_expect h fun h => (nomatch h)
  | fixedString =>
    refine refuses_expect h fun h => ?_
    split at h
    · cases h
    · cases h
      exact .parameter _
  | nothing => exact refuses_expect h fun h => (nomatch h)
  | nullable =>
    rw [construct, Layout.nullableOf] at h
    split at h
    · rename_i p hp
      obtain h | ⟨inner, -, h⟩ := except_bind_eq_error_iff.1 h
      · exact .passed (by simp [hp]) h
      · split at h
        · cases h
          exact .nestedNullable
        · cases h
    · cases h
      exact .parameter _
  | array =>
    rw [construct, Layout.arrayOf] at h
    split at h
    · rename_i p hp
      obtain h | ⟨e, he, h⟩ := except_bind_eq_error_iff.1 h
      · exact .passed (by simp [hp]) (except_bind_eq_error_iff.2 (.inl h))
      · split at h
        · cases h
          exact .nestedArray
        · obtain h | ⟨element, -, h⟩ := except_bind_eq_error_iff.1 h
          · exact .passed (by simp [hp]) h
          · split at h
            · cases h
              exact .nestedArray
            · cases h
    · cases h
      exact .parameter _
  | tuple =>
    rw [construct, Layout.tupleOf] at h
    split at h
    · cases h
      exact .parameter _
    · obtain h | ⟨_, -, h⟩ := except_bind_eq_error_iff.1 h
      · obtain ⟨p, hp, h⟩ := exists_of_mapM_eq_error h
        exact .passed hp h
      · cases h
  | map =>
    rw [construct, Layout.mapOf] at h
    split at h
    · rename_i p q hp
      obtain h | ⟨key, -, h⟩ := except_bind_eq_error_iff.1 h
      · exact .passed (by simp [hp]) h
      · obtain h | ⟨value, -, h⟩ := except_bind_eq_error_iff.1 h
        · exact .passed (by simp [hp]) h
        · cases h
    · cases h
      exact .parameter _
  | aggregateState =>
    rw [construct, Layout.aggregateStateOf] at h
    split at h
    · cases h
      exact .parameter _
    · cases h
  | simpleAggregate =>
    rw [construct, Layout.simpleAggregateOf] at h
    split at h
    · rename_i p inner rest hp
      obtain h | ⟨_, -, h⟩ := except_bind_eq_error_iff.1 h
      · exact .passed (by simp [hp]) h
      · cases h
    · cases h
      exact .parameter _

end Form

end TypedColumn
